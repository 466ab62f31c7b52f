import WorkflowEngine.Proofs.Engine.Construction
import WorkflowEngine.Proofs.Location.Linkless
import WorkflowEngine.Proofs.Location.Spelling
import WorkflowEngine.Proofs.Reference.Meaning

/-! References that are locations written out.

A location that a resolver has answered ends in a name with the extension, so the name is not completed again and
there is no blank to be trimmed behind it. Written out, a location under the root is therefore an entry that means
itself, whatever else there is to read its text as.
-/

set_option autoImplicit false

namespace WorkflowEngine

namespace Reference

variable {extension name : String}

theorem suffix_complete (extension name : String) :
    '.' :: extension.toList <:+ (complete extension name).toList := by
  unfold complete
  split
  · rename_i ends
    exact List.isSuffixOf_iff_suffix.1 (Bool.and_eq_true_iff.1 ends).1
  · exact ⟨name.toList, by simp⟩

theorem complete_of_longer {front : String} (written : front ≠ "") :
    complete extension (front ++ "." ++ extension) = front ++ "." ++ extension := by
  have letters : 0 < front.length := by
    rw [← String.length_toList, List.length_pos_iff]
    simpa using written
  rw [complete, if_pos]
  rw [Bool.and_eq_true_iff, List.isSuffixOf_iff_suffix, decide_eq_true_eq]
  refine ⟨⟨front.toList, by simp⟩, ?_⟩
  simp only [String.length_append]
  have dot : ".".length = 1 := rfl
  omega

theorem exists_stem (named : name ≠ "") :
    ∃ stem, stem ≠ "" ∧ complete extension name = stem ++ "." ++ extension := by
  unfold complete
  split
  · rename_i ends
    obtain ⟨suffix, longer⟩ := Bool.and_eq_true_iff.1 ends
    obtain ⟨front, whole⟩ := List.isSuffixOf_iff_suffix.1 suffix
    refine ⟨String.ofList front, ?_, String.toList_inj.1 (by simp [← whole])⟩
    rintro nothing
    have empty : front = [] := by simpa using nothing
    rw [← String.length_toList, ← String.length_toList, ← whole, empty] at longer
    simp at longer
  · exact ⟨name, named, rfl⟩

theorem length_complete_le (extension name : String) :
    (complete extension name).length ≤ name.length + extension.length + 1 := by
  rcases complete_eq_or extension name with same | longer
  · rw [same]
    omega
  · have dot : ".".length = 1 := rfl
    rw [longer, String.length_append, String.length_append, dot]
    omega

/-- A name gets the extension if it does not end with it, or with nothing before it. -/
theorem complete_eq_longer_iff : complete extension name = name ++ "." ++ extension ↔
    ∀ front, front ≠ "" → name ≠ front ++ "." ++ extension := by
  constructor
  · rintro longer front written rfl
    rw [complete_of_longer written] at longer
    have lengths := congrArg String.length longer
    have dot : ".".length = 1 := rfl
    simp only [String.length_append] at lengths
    omega
  · intro short
    refine (complete_eq_or extension name).resolve_left fun same => ?_
    have named : name ≠ "" := by
      rintro rfl
      obtain ⟨front, ends⟩ := suffix_complete extension ""
      simp [same] at ends
    obtain ⟨front, written, ends⟩ := @exists_stem extension name named
    exact short front written (same.symm.trans ends)

theorem complete_complete (named : name ≠ "") :
    complete extension (complete extension name) = complete extension name := by
  rcases complete_eq_or extension name with same | longer
  · rw [same, same]
  · rw [longer, complete_of_longer named]

theorem proper_complete (whole : ∀ c ∈ extension.toList, isSeparator c = false) (proper : ProperName name) :
    ProperName (complete extension name) := by
  obtain ⟨named, dot, dots⟩ := proper.ordinary
  obtain ⟨stillNamed, stillNotDot, stillNotDots⟩ := @complete_ordinary extension name named dot dots
  refine ⟨?_, by simp [Path.isIdle, stillNamed, stillNotDot], stillNotDots⟩
  rcases complete_eq_or extension name with same | longer
  · rw [same]
    exact proper.slashless
  · rw [longer]
    simp [proper.slashless, (unseparated whole).1]

end Reference

theorem FileSystem.normalLocation_lexical_eq_ok_iff {fs : FileSystem} {p : Path} {l : Location} :
    fs.normalLocation .lexical p = .ok l ↔ p.spelledLocation = .ok l := by
  unfold normalLocation
  cases p.spelledLocation <;> simp

namespace Resolver

variable {r : Resolver} {fs : FileSystem} {p : Location}

theorem spelledLocation_of_absoluteUnderRoot? (lexical : r.normalization = .lexical) {reference : Reference}
    (found : r.absoluteUnderRoot? fs reference = some p) :
    ∃ name, Path.fileName? ⟨Text.trim reference.text⟩ = some name ∧
      ((Path.parent ⟨Text.trim reference.text⟩).join ⟨Reference.complete r.extension name⟩).spelledLocation = .ok p := by
  obtain ⟨written, spells, located⟩ := written_of_absoluteUnderRoot? found
  rw [writtenAbsolutely?] at spells
  obtain ⟨name, named, rfl⟩ := Option.map_eq_some_iff.1 spells
  rw [lexical, FileSystem.normalLocation_lexical_eq_ok_iff, Reference.withExtension_eq_complete] at located
  exact ⟨name, named, located⟩

/-- The text of a location that ends with an extension has no blank at either end. -/
theorem trimmed_text {extension name : String} (ends : p.names.getLast? = some (Reference.complete extension name))
    (named : extension ≠ "") (trimmed : ∀ c ∈ extension.toList.getLast?, Text.isBlank c = false) :
    Text.trim p.text = p.text := by
  obtain ⟨above, names⟩ := List.getLast?_eq_some_iff.1 ends
  have below : p.names ≠ [] := by simp [names]
  obtain ⟨front, completed⟩ := Reference.suffix_complete extension name
  have written : extension.toList ≠ [] := by simpa using named
  have spelled : p.text.toList =
      (above.flatMap fun name => '/' :: name.toList) ++ '/' :: (front ++ ['.']) ++ extension.toList := by
    rw [p.toList_text below, names]
    simp [← completed]
  -- A slash stands at the start, and the end is that of the extension.
  refine String.toList_inj.1 ((Text.toList_trim _).trans (Text.trimChars_eq_self_iff.2 ⟨?_, ?_⟩))
  · obtain ⟨rest, slash⟩ := Path.isAbsolute_iff.1 p.isAbsolute_path
    have first : p.text.toList.head? = some '/' := by
      rw [show p.text.toList = '/' :: rest from slash]
      rfl
    rw [first]
    rintro c ⟨⟩
    decide
  · rw [spelled, List.getLast?_append_of_ne_nil _ written]
    exact trimmed

theorem absoluteUnderRoot?_text {name : String} (lexical : r.normalization = .lexical) (proper : p.Proper)
    (ends : p.names.getLast? = some (Reference.complete r.extension name)) (named : name ≠ "")
    (trimmed : Text.trim p.text = p.text) (under : p.isUnder r.root = true) :
    r.absoluteUnderRoot? fs ⟨p.text⟩ = some p := by
  obtain ⟨above, names⟩ := List.getLast?_eq_some_iff.1 ends
  have path : (⟨Text.trim p.text⟩ : Path) = p.path := congrArg Path.mk trimmed
  have directory : p.path.parent = Location.path ⟨above⟩ := Location.parent_path proper names
  have properAbove : Location.Proper ⟨above⟩ := fun other member =>
    proper other (by rw [names]; exact List.mem_append_left _ member)
  have slashless : '/' ∉ (Reference.complete r.extension name).toList :=
    (proper _ (List.mem_of_getLast? ends)).slashless
  -- The parent and the completed name make the path itself again.
  have again : p.path.parent.join ⟨Reference.complete r.extension name⟩ = p.path := by
    rw [directory, Location.join_path properAbove slashless]
    exact congrArg Location.path (Location.ext_names names.symm)
  have located : fs.normalLocation r.normalization p.path = .ok p := by
    rw [lexical, FileSystem.normalLocation_lexical_eq_ok_iff]
    exact Location.spelledLocation_path proper
  unfold absoluteUnderRoot?
  dsimp only
  rw [path, if_pos p.isAbsolute_path, Location.fileName?_path proper, ends]
  simp [Reference.withExtension_eq_complete, Reference.complete_complete named, again, located, under,
    Except.toOption]

theorem proper_of_answer {request : Request} (answered : r.answer fs request = .ok p) : p.Proper := by
  obtain ⟨_, _, located, _⟩ := written_of_answer answered
  exact FileSystem.proper_of_normalLocation located

theorem confine_of_isUnder {text : String} (under : p.isUnder r.root = true) : r.confine text p = .ok p := by
  simp [confine, under]

theorem resolveTarget_text {name : String} (lexical : r.normalization = .lexical) (proper : p.Proper)
    (ends : p.names.getLast? = some (Reference.complete r.extension name)) (written : name ≠ "")
    (named : r.extension ≠ "") (trimmed : ∀ c ∈ r.extension.toList.getLast?, Text.isBlank c = false)
    (under : p.isUnder r.root = true) : r.resolveTarget fs (.reference ⟨p.text⟩) = .ok p := by
  rw [resolveTarget, absoluteUnderRoot?_text lexical proper ends written (trimmed_text ends named trimmed) under]
  exact confine_of_isUnder under

end Resolver

end WorkflowEngine
