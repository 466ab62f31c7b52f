import WorkflowEngine.Proofs.Engine.Discovery
import WorkflowEngine.Proofs.Text.Extent

/-! Which listed references lead back.

A document is listed by its names without the extension, with slashes between them and for the backslashes in them.
Read as a reference, what is listed leads to names that stand in it, one behind the other. These are too few to be
those of the document if blanks have been trimmed, and other ones if there was a backslash. Without either, the names
are read as they were listed. The last one then has to get its extension back.
-/

set_option autoImplicit false

namespace WorkflowEngine

def Straight (names : List String) : Prop := ∀ name ∈ names, '\\' ∉ name.toList

def Separable (names : List String) : Prop :=
  ∀ name ∈ names, name ≠ "" ∧ ∀ c ∈ name.toList, Reference.isSeparator c = false

namespace Resolver

variable {r : Resolver} {fs : FileSystem} {names directories : List String} {stem : String}

theorem parts_intercalate (some_name : names ≠ []) (separable : Separable names) :
    Text.parts Reference.isSeparator (String.intercalate "/" names).toList = names := by
  obtain ⟨first, rest, rfl⟩ := List.exists_cons_of_ne_nil some_name
  induction rest generalizing first with
  | nil =>
    obtain ⟨named, free⟩ := separable first List.mem_cons_self
    rw [String.intercalate_singleton, Text.parts_of_forall free named]
  | cons second rest ih =>
    obtain ⟨⟨named, free⟩, others⟩ := List.forall_mem_cons.1 separable
    have spelled : (String.intercalate "/" (first :: second :: rest)).toList =
        first.toList ++ '/' :: (String.intercalate "/" (second :: rest)).toList := by
      rw [String.intercalate_cons_cons]
      simp
    rw [spelled, Text.parts_append_cons rfl, Text.parts_of_forall free named, ih second (by simp) others]
    rfl

theorem isAbsolute_intercalate (some_name : names ≠ []) (separable : Separable names) :
    Path.isAbsolute ⟨String.intercalate "/" names⟩ = false := by
  obtain ⟨first, rest, rfl⟩ := List.exists_cons_of_ne_nil some_name
  obtain ⟨named, free⟩ := separable first List.mem_cons_self
  obtain ⟨c, letters, spelled⟩ := List.exists_cons_of_ne_nil (mt String.toList_eq_nil_iff.1 named)
  by_contra absolute
  obtain ⟨behind, slash⟩ := Path.isAbsolute_iff.1 (by simpa using absolute)
  have mark : "/".toList = ['/'] := rfl
  rw [String.toList_intercalate, mark, List.map_cons, Text.intercalate_cons, spelled, List.cons_append] at slash
  obtain ⟨rfl, _⟩ := List.cons.inj slash
  exact (Reference.unseparated free).1 (by simp [spelled])

section Lexical

variable (lexical : r.normalization = .lexical)
  (whole : ∀ c ∈ r.extension.toList, Reference.isSeparator c = false) (proper : r.root.Proper)
include lexical whole proper

/-- What is below the root that a reference leads to stands in the text of the reference, but for the extension. -/
theorem exists_parts_of_resolveTarget {reference : Reference}
    (resolved : r.resolveTarget fs (.reference reference) = .ok ⟨r.root.names ++ names⟩) :
    ∃ cut above last, (above ++ [last]).Sublist (Text.parts cut (Text.trimChars reference.text.toList)) ∧
      names.Sublist (above ++ [Reference.complete r.extension last]) := by
  rw [resolveTarget] at resolved
  split at resolved
  · rename_i l found
    obtain rfl := eq_of_confine resolved
    -- An absolute path is walked from the top: what is left below the root was put there on the way.
    obtain ⟨name, named, located⟩ := spelledLocation_of_absoluteUnderRoot? lexical found
    have completed := Reference.proper_complete whole (Path.proper_of_fileName? named)
    obtain ⟨_, walked⟩ := Path.spelledLocation_eq_ok_iff.1 located
    rw [Path.components_join _ completed.slashless completed.ordinary.1] at walked
    refine ⟨Path.isSlash, _, name, ?_, Path.sublist_of_walk walked (Nat.zero_le _)⟩
    rw [← Text.toList_trim]
    exact Path.components_parent_sublist named
  · -- Any other reference is walked from the root on.
    have means := (resolve_eq_ok_iff lexical whole).1 resolved
    obtain ⟨last, ends, _⟩ := means.named
    have walked := means.walks
    have base : r.start reference r.root.path = r.root.path := ite_self _
    have down := Path.walk_names (fun name member => (proper name member).ordinary.2) []
    rw [route, base, Location.components_path proper, Path.walk_append, down, List.append_nil,
      Option.bind_some, Reference.completed, ends] at walked
    refine ⟨Reference.isSeparator, reference.parts.dropLast, last, ?_, Path.sublist_of_walk walked (by simp)⟩
    obtain ⟨front, split⟩ := List.getLast?_eq_some_iff.1 ends
    rw [split, List.dropLast_concat, ← split]
    exact List.Sublist.refl _

theorem straight_of_resolveTarget {reference : Reference} (free : '\\' ∉ reference.text.toList)
    (resolved : r.resolveTarget fs (.reference reference) = .ok ⟨r.root.names ++ names⟩) : Straight names := by
  obtain ⟨cut, above, last, inside, below⟩ := exists_parts_of_resolveTarget lexical whole proper resolved
  have parts : ∀ name ∈ above ++ [last], '\\' ∉ name.toList := by
    intro name member backslash
    have read := Text.mem_of_mem_parts (inside.subset member) backslash
    exact free ((Text.trimChars_isInfix _).subset read)
  have bare := (Reference.unseparated whole).2
  intro name member
  rcases List.mem_append.1 (below.subset member) with outer | completed
  · exact parts name (List.mem_append_left _ outer)
  · obtain rfl := List.mem_singleton.1 completed
    have plain := parts last (by simp)
    rcases Reference.complete_eq_or r.extension last with same | longer
    · rwa [same]
    · rw [longer]
      simp [plain, bare]

theorem extent_le_of_resolveTarget {reference : Reference}
    (resolved : r.resolveTarget fs (.reference reference) = .ok ⟨r.root.names ++ names⟩) :
    Text.extent names ≤ (Text.trimChars reference.text.toList).length + r.extension.length + 2 := by
  obtain ⟨cut, above, last, inside, below⟩ := exists_parts_of_resolveTarget lexical whole proper resolved
  have read := (Text.extent_le_of_sublist inside).trans (Text.extent_parts_le _ _)
  have written := Text.extent_le_of_sublist below
  have completed := Reference.length_complete_le r.extension last
  rw [Text.extent_append, Text.extent_singleton] at read written
  omega

/-- Names without separators lead below the root, where the last one gets the extension. -/
theorem resolveTarget_intercalate (level : ∀ name ∈ directories, name ≠ "." ∧ name ≠ "..")
    (separable : Separable (directories ++ [stem]))
    (trimmed : Text.Trimmed (String.intercalate "/" (directories ++ [stem])).toList) {p : Location} :
    r.resolveTarget fs (.reference ⟨String.intercalate "/" (directories ++ [stem])⟩) = .ok p ↔
      stem ≠ "." ∧ stem ≠ ".." ∧
        p.names = r.root.names ++ directories ++ [Reference.complete r.extension stem] := by
  have cut := parts_intercalate (by simp) separable
  -- There is no slash in front, so the text is not read as an absolute path.
  have relative := isAbsolute_intercalate (by simp) separable
  generalize String.intercalate "/" (directories ++ [stem]) = text at trimmed cut relative ⊢
  have same : Text.trimChars text.toList = text.toList := Text.trimChars_eq_self_iff.2 trimmed
  have elsewhere : r.absoluteUnderRoot? fs ⟨text⟩ = none := by
    have trim : Text.trim text = text := String.toList_inj.1 ((Text.toList_trim text).trans same)
    simp [absoluteUnderRoot?, trim, relative]
  have parts : Reference.parts ⟨text⟩ = directories ++ [stem] := by rw [Reference.parts, same, cut]
  have base : r.start ⟨text⟩ r.root.path = r.root.path := ite_self _
  have route : r.route ⟨text⟩ r.root.path =
      r.root.names ++ directories ++ [Reference.complete r.extension stem] := by
    rw [route, base, Location.components_path proper, Reference.completed, parts]
    simp
  have named : Reference.NamesDocument ⟨text⟩ ↔ stem ≠ "." ∧ stem ≠ ".." := by
    simp [Reference.NamesDocument, parts]
  have walks : stem ≠ "." ∧ stem ≠ ".." → Path.walk [] (r.route ⟨text⟩ r.root.path) =
      some (r.root.names ++ directories ++ [Reference.complete r.extension stem]).reverse := by
    rintro ⟨dot, dots⟩
    have ordinary := (@Reference.complete_ordinary r.extension stem (separable stem (by simp)).1 dot dots).2
    rw [route, Path.walk_names, List.append_nil]
    refine List.forall_mem_append.2 ⟨List.forall_mem_append.2 ⟨?_, level⟩, by simpa using ordinary⟩
    exact fun name member => (proper name member).ordinary.2
  rw [resolveTarget, elsewhere]
  dsimp only
  rw [resolve_eq_ok_iff lexical whole]
  constructor
  · intro means
    have notDots := named.1 means.named
    have walked := (walks notDots).symm.trans means.walks
    exact ⟨notDots.1, notDots.2, (List.reverse_inj.1 (Option.some.inj walked)).symm⟩
  · rintro ⟨dot, dots, placed⟩
    refine ⟨named.2 ⟨dot, dots⟩, ?_, ?_, fun _ => ?_⟩
    · rw [base]
      exact r.root.isAbsolute_path
    · rw [walks ⟨dot, dots⟩, placed]
    · rw [placed, List.append_assoc]
      exact List.prefix_append _ _

end Lexical

end Resolver

namespace Engine

open Text (slashed slashed_append slashed_of_straight straight_slashed)

variable {extension : String}

theorem referenceTo_document (bare : '\\' ∉ extension.toList) (directories : List String) (stem : String) :
    referenceTo extension (directories ++ [stem ++ "." ++ extension]) =
      slashed (String.intercalate "/" (directories ++ [stem])) := by
  have ends : String.intercalate "/" (directories ++ [stem ++ "." ++ extension]) =
      String.intercalate "/" (directories ++ [stem]) ++ ("." ++ extension) := by
    rcases eq_or_ne directories [] with rfl | below
    · simp [String.append_assoc]
    · rw [String.intercalate_append_of_ne_nil below (by simp), String.intercalate_append_of_ne_nil below (by simp)]
      simp [String.append_assoc]
  have cut : Text.beforeFinish? ('.' :: extension.toList)
      (slashed (String.intercalate "/" (directories ++ [stem ++ "." ++ extension]))).toList =
        some (slashed (String.intercalate "/" (directories ++ [stem]))).toList := by
    rw [Text.beforeFinish?_eq_some_iff, ends, slashed_append, @slashed_of_straight ("." ++ extension) (by simpa)]
    simp
  rw [slashed, String.toList_ofList] at cut
  rw [referenceTo, cut, Option.getD_some, String.ofList_toList]

theorem straight_intercalate {names : List String} (straight : Straight names) :
    '\\' ∉ (String.intercalate "/" names).toList := by
  induction names with
  | nil => simp
  | cons first rest ih =>
    obtain ⟨plain, others⟩ := List.forall_mem_cons.1 straight
    cases rest with
    | nil => simpa using plain
    | cons second rest =>
      rw [String.intercalate_cons_cons, String.toList_append, String.toList_append, List.mem_append, List.mem_append]
      exact not_or.2 ⟨not_or.2 ⟨plain, by decide⟩, ih others⟩

/-- The conditions on the names of a document under which it can be found by what it is listed as. -/
structure Speakable (extension : String) (names : List String) : Prop where
  straight : Straight names
  /-- There is no blank in front of the first name and none between the last one and its extension. -/
  trimmed : Text.Trimmed (referenceTo extension names).toList
  level : names.getLast? ≠ some (".." ++ extension) ∧ names.getLast? ≠ some ("..." ++ extension)
  /-- There is not the same extension twice. -/
  single : ∀ front, front ≠ "" → names.getLast? ≠ some (front ++ "." ++ extension ++ "." ++ extension)

section Document

variable {r : Resolver} {fs : FileSystem} {directories : List String} {stem : String}

theorem straight_concat_iff (bare : '\\' ∉ extension.toList) :
    Straight (directories ++ [stem ++ "." ++ extension]) ↔ Straight (directories ++ [stem]) := by
  have last : '\\' ∉ (stem ++ "." ++ extension).toList ↔ '\\' ∉ stem.toList := by
    simp [bare]
  rw [Straight, Straight, List.forall_mem_append, List.forall_mem_append, List.forall_mem_singleton,
    List.forall_mem_singleton, last]

theorem speakable_iff (bare : '\\' ∉ extension.toList) :
    Speakable extension (directories ++ [stem ++ "." ++ extension]) ↔ Straight (directories ++ [stem]) ∧
      Text.Trimmed (String.intercalate "/" (directories ++ [stem])).toList ∧ stem ≠ "." ∧ stem ≠ ".." ∧
        Reference.complete extension stem = stem ++ "." ++ extension := by
  -- Without a backslash both sides speak of one text.
  have written : Straight (directories ++ [stem]) →
      referenceTo extension (directories ++ [stem ++ "." ++ extension]) =
        String.intercalate "/" (directories ++ [stem]) := by
    intro straight
    rw [referenceTo_document bare, slashed_of_straight (straight_intercalate straight)]
  have ends : ∀ other, (directories ++ [stem ++ "." ++ extension]).getLast? ≠ some (other ++ "." ++ extension) ↔
      stem ≠ other := by
    intro other
    simp
  have dot := ends "."
  have dots := ends ".."
  rw [Reference.complete_eq_longer_iff]
  constructor
  · rintro ⟨straight, trimmed, ⟨notDot, notDots⟩, single⟩
    have plain := (straight_concat_iff bare).1 straight
    refine ⟨plain, written plain ▸ trimmed, dot.1 notDot, dots.1 notDots, fun front named => ?_⟩
    exact (ends _).1 (single front named)
  · rintro ⟨plain, trimmed, notDot, notDots, single⟩
    refine ⟨(straight_concat_iff bare).2 plain, (written plain).symm ▸ trimmed,
      ⟨dot.2 notDot, dots.2 notDots⟩, fun front named => ?_⟩
    exact (ends _).2 (single front named)

theorem separable_of_straight (properNames : ∀ name ∈ directories ++ [stem ++ "." ++ extension], ProperName name)
    (named : stem ≠ "") (straight : Straight (directories ++ [stem])) : Separable (directories ++ [stem]) := by
  obtain ⟨properAbove, properFile⟩ := List.forall_mem_append.1 properNames
  have slashless : '/' ∉ stem.toList := by
    have free := (properFile _ List.mem_cons_self).slashless
    simp only [String.toList_append, List.mem_append, not_or] at free
    exact free.1.1
  intro name member
  have written : '/' ∉ name.toList ∧ name ≠ "" := by
    rcases List.mem_append.1 member with above | last
    · exact ⟨(properAbove name above).slashless, (properAbove name above).ordinary.1⟩
    · obtain rfl := List.mem_singleton.1 last
      exact ⟨slashless, named⟩
  refine ⟨written.2, fun c inside => ?_⟩
  have notSlash : c ≠ '/' := fun same => written.1 (same ▸ inside)
  have notBackslash : c ≠ '\\' := fun same => straight name member (same ▸ inside)
  simp [Reference.isSeparator, notSlash, notBackslash]

theorem resolveTarget_referenceTo_iff (lexical : r.normalization = .lexical)
    (whole : ∀ c ∈ r.extension.toList, Reference.isSeparator c = false) (proper : r.root.Proper)
    (properNames : ∀ name ∈ directories ++ [stem ++ "." ++ r.extension], ProperName name) (named : stem ≠ "") :
    r.resolveTarget fs (.reference ⟨referenceTo r.extension (directories ++ [stem ++ "." ++ r.extension])⟩) =
        .ok ⟨r.root.names ++ (directories ++ [stem ++ "." ++ r.extension])⟩ ↔
      Speakable r.extension (directories ++ [stem ++ "." ++ r.extension]) := by
  have bare := (Reference.unseparated whole).2
  have level : ∀ name ∈ directories, name ≠ "." ∧ name ≠ ".." := fun name member =>
    (properNames name (List.mem_append_left _ member)).ordinary.2
  have separable := separable_of_straight properNames named
  rw [speakable_iff bare, referenceTo_document bare]
  constructor
  · intro resolved
    have straight : Straight (directories ++ [stem]) := (straight_concat_iff bare).1
      (Resolver.straight_of_resolveTarget lexical whole proper (straight_slashed _) resolved)
    rw [slashed_of_straight (straight_intercalate straight)] at resolved
    -- The names are as long as the text, so nothing of it was trimmed.
    have long := Resolver.extent_le_of_resolveTarget lexical whole proper resolved
    have written := @Text.length_intercalate (directories ++ [stem]) (by simp)
    have trimmed : Text.Trimmed (String.intercalate "/" (directories ++ [stem])).toList := by
      refine Text.trimChars_eq_self_iff.1 ((Text.trimChars_isInfix _).eq_of_length_le ?_)
      have dot : ".".length = 1 := rfl
      rw [String.length_toList]
      simp only [Text.extent_append, Text.extent_singleton, String.length_append, dot] at long written
      omega
    obtain ⟨notDot, notDots, placed⟩ :=
      (Resolver.resolveTarget_intercalate lexical whole proper level (separable straight) trimmed).1 resolved
    have same : Reference.complete r.extension stem = stem ++ "." ++ r.extension := by
      simpa using placed.symm
    exact ⟨straight, trimmed, notDot, notDots, same⟩
  · rintro ⟨straight, trimmed, notDot, notDots, same⟩
    rw [slashed_of_straight (straight_intercalate straight)]
    refine (Resolver.resolveTarget_intercalate lexical whole proper level (separable straight) trimmed).2
      ⟨notDot, notDots, ?_⟩
    rw [same, List.append_assoc]

theorem document_eq_of_referenceTo_eq {others : List String} {other : String} (bare : '\\' ∉ extension.toList)
    (proper : ∀ name ∈ directories ++ [stem ++ "." ++ extension], ProperName name) (named : stem ≠ "")
    (straight : Straight (directories ++ [stem ++ "." ++ extension]))
    (otherProper : ∀ name ∈ others ++ [other ++ "." ++ extension], ProperName name) (otherNamed : other ≠ "")
    (otherStraight : Straight (others ++ [other ++ "." ++ extension]))
    (same : referenceTo extension (directories ++ [stem ++ "." ++ extension]) =
      referenceTo extension (others ++ [other ++ "." ++ extension])) :
    directories ++ [stem ++ "." ++ extension] = others ++ [other ++ "." ++ extension] := by
  rw [straight_concat_iff bare] at straight otherStraight
  rw [referenceTo_document bare, referenceTo_document bare, slashed_of_straight (straight_intercalate straight),
    slashed_of_straight (straight_intercalate otherStraight)] at same
  have read := Resolver.parts_intercalate (by simp) (separable_of_straight proper named straight)
  rw [same, Resolver.parts_intercalate (by simp) (separable_of_straight otherProper otherNamed otherStraight)] at read
  obtain ⟨rfl, ends⟩ := List.append_inj' read rfl
  obtain rfl : other = stem := List.singleton_inj.1 ends
  rfl

end Document

variable {σ : Type}

theorem exists_document {e : Engine σ} {fs : FileSystem} {names : List String} (found : names ∈ e.discovered fs) :
    ∃ directories stem, stem ≠ "" ∧ names = directories ++ [stem ++ "." ++ e.resolver.extension] := by
  obtain ⟨directories, file, rfl, _, _, keeps⟩ := FileSystem.mem_discover.1 found
  obtain ⟨_, stem, named, rfl⟩ := Location.cutExtension_snd_eq_iff.1 keeps.extended
  exact ⟨directories, stem, named, rfl⟩

/-- What is listed are the documents that are found, each by a reference that leads back to it exactly if its names
are speakable. -/
theorem listWorkflows_speakable (start fs : FileSystem) (config : Config) (e : Engine σ)
    (built : build start config = .ok e) (lexical : config.workflows.normalization = .lexical)
    (whole : fs.Proper) :
    e.listWorkflows fs = (e.discovered fs).map (referenceTo e.resolver.extension) ∧
    (∀ names ∈ e.discovered fs,
      (e.resolver.resolveTarget fs (.reference ⟨referenceTo e.resolver.extension names⟩) =
        .ok ⟨e.root.names ++ names⟩ ↔ Speakable e.resolver.extension names)) ∧
    ∀ names ∈ e.discovered fs, ∀ others ∈ e.discovered fs, Straight names → Straight others →
      referenceTo e.resolver.extension names = referenceTo e.resolver.extension others → names = others := by
  have mode : e.resolver.normalization = .lexical := (root_of_build built).1.trans lexical
  have separated := whole_of_build built
  refine ⟨rfl, fun names found => ?_, fun names found others otherFound straight otherStraight same => ?_⟩
  · have proper := FileSystem.proper_of_discover whole found
    obtain ⟨directories, stem, named, rfl⟩ := exists_document found
    exact resolveTarget_referenceTo_iff mode separated (proper_root built) proper named
  · have proper := FileSystem.proper_of_discover whole found
    have otherProper := FileSystem.proper_of_discover whole otherFound
    obtain ⟨directories, stem, named, rfl⟩ := exists_document found
    obtain ⟨outer, other, otherNamed, rfl⟩ := exists_document otherFound
    have bare := (Reference.unseparated separated).2
    exact document_eq_of_referenceTo_eq bare proper named straight otherProper otherNamed otherStraight same

end Engine

namespace Sample

/-- Documents that are listed alike, and documents that are listed as another one or as none. -/
def clashing : FileSystem :=
  [["w", "a", "b.y"], ["w", "a\\b.y"], ["w", "x.y"], ["w", "x.y.y"], ["w", " c.y"]].foldl
    (fun fs names => fs.put ⟨names⟩ (.file (.text "steps: []\n")))
    ((FileSystem.empty.put ⟨["w"]⟩ .directory).put ⟨["w", "a"]⟩ .directory)

end Sample

namespace Engine

theorem listWorkflows_speakable_sample :
    (Sample.looker "b").listWorkflows (Sample.nook "x.a.b") = ["d/x.a"] ∧
    (Sample.looker "b").resolver.resolveTarget (Sample.nook "x.a.b") (.reference ⟨"d/x.a"⟩) =
      .ok ⟨["w", "d", "x.a.b"]⟩ ∧
    Speakable "b" ["d", "x.a.b"] := by
  have built : build (Sample.nook "x.a.b") (Sample.looking "b") = .ok (Sample.looker "b") :=
    build_eq_ok_iff.2 ⟨by decide +kernel, _, by decide +kernel, rfl⟩
  have whole : (Sample.nook "x.a.b").Proper := by
    have keys : (Sample.nook "x.a.b").entries.keys = [⟨["w"]⟩, ⟨["w", "d"]⟩, ⟨["w", "d", "x.a.b"]⟩] := by
      decide +kernel
    have w : ProperName "w" := ⟨by decide, by decide, by decide⟩
    have d : ProperName "d" := ⟨by decide, by decide, by decide⟩
    have x : ProperName "x.a.b" := ⟨by decide, by decide, by decide⟩
    simp [FileSystem.Proper, keys, Location.Proper, w, d, x]
  have found : (Sample.looker "b").discovered (Sample.nook "x.a.b") = [["d", "x.a.b"]] := by
    decide +kernel
  obtain ⟨listed, leads, _⟩ := listWorkflows_speakable _ _ _ _ built rfl whole
  have text : referenceTo "b" ["d", "x.a.b"] = "d/x.a" := by
    decide +kernel
  have resolved : (Sample.looker "b").resolver.resolveTarget (Sample.nook "x.a.b") (.reference ⟨"d/x.a"⟩) =
      .ok ⟨["w", "d", "x.a.b"]⟩ := by
    decide +kernel
  have member : ["d", "x.a.b"] ∈ (Sample.looker "b").discovered (Sample.nook "x.a.b") := by simp [found]
  refine ⟨?_, resolved, (leads _ member).1 ?_⟩
  · rw [listed, found]
    exact congrArg (fun text => [text]) text
  · rw [show (Sample.looker "b").resolver.extension = "b" from rfl, text]
    exact resolved

/-- A second extension is taken for the first one, a backslash for a slash, and a blank is lost. -/
theorem listWorkflows_astray :
    build Sample.clashing (Sample.looking "y") = .ok (Sample.looker "y") ∧ Sample.clashing.Unlinked ∧
    (Sample.looker "y").discovered Sample.clashing =
      [[" c.y"], ["a", "b.y"], ["a\\b.y"], ["x.y"], ["x.y.y"]] ∧
    (Sample.looker "y").listWorkflows Sample.clashing = [" c", "a/b", "a/b", "x", "x.y"] ∧
    (Sample.looker "y").resolver.resolveTarget Sample.clashing (.reference ⟨" c"⟩) = .ok ⟨["w", "c.y"]⟩ ∧
    (Sample.looker "y").resolver.resolveTarget Sample.clashing (.reference ⟨"x.y"⟩) = .ok ⟨["w", "x.y"]⟩ := by
  refine ⟨build_eq_ok_iff.2 ⟨by decide +kernel, _, by decide +kernel, rfl⟩, ?_, by decide +kernel,
    by decide +kernel, by decide +kernel, by decide +kernel⟩
  simp only [Sample.clashing, List.foldl_cons, List.foldl_nil]
  iterate 7 refine FileSystem.Unlinked.put ?_ (by simp) _
  exact FileSystem.unlinked_empty

end Engine

end WorkflowEngine
