import WorkflowEngine.Proofs.Reference.Entry

/-! Slashes and backslashes in references.

A backslash separates the segments of a reference as a slash does, so a reference with slashes for its
backslashes is of the same kind, names the same file and is resolved to the same location. An entry may also be
written as an absolute path to a place under the root. Such a text is no reference: it is taken as the path that
it is, and only slashes separate the names of a path.
-/

set_option autoImplicit false

namespace WorkflowEngine

namespace Reference

open Text (asSlash)

def slashed (r : Reference) : Reference := ⟨Text.slashed r.text⟩

theorem isSeparator_asSlash (c : Char) : isSeparator (asSlash c) = isSeparator c := by
  unfold asSlash
  split
  · rename_i backslash
    subst backslash
    rfl
  · rfl

theorem isBlank_asSlash (c : Char) : Text.isBlank (asSlash c) = Text.isBlank c := by
  unfold asSlash
  split
  · rename_i backslash
    subst backslash
    rfl
  · rfl

theorem asSlash_of_kept {c : Char} (kept : isSeparator c = false) : asSlash c = c := by
  refine Text.asSlash_of_ne ?_
  rintro rfl
  cases kept

theorem asSlash_eq_dot_iff {c : Char} : asSlash c = '.' ↔ c = '.' := by
  unfold asSlash
  split
  · rename_i backslash
    subst backslash
    decide
  · rfl

theorem trimChars_slashed (r : Reference) :
    Text.trimChars r.slashed.text.toList = (Text.trimChars r.text.toList).map asSlash := by
  have blank : Text.isBlank ∘ asSlash = Text.isBlank := funext isBlank_asSlash
  simp only [slashed, Text.slashed, String.toList_ofList, Text.trimChars, Text.trimEnd, Text.trimStart, List.dropWhile_map,
    ← List.map_reverse, blank]

theorem pieces_map_asSlash (cs : List Char) :
    Text.pieces isSeparator (cs.map asSlash) = Text.pieces isSeparator cs := by
  induction cs with
  | nil => rfl
  | cons c rest ih =>
    rw [List.map_cons, Text.pieces, Text.pieces, ih, isSeparator_asSlash]
    split
    · rfl
    · rename_i kept
      rw [asSlash_of_kept (by simpa using kept)]

theorem segments_slashed (r : Reference) : r.slashed.segments = r.segments := by
  rw [segments, segments, trimChars_slashed, segmentsOf, segmentsOf, pieces_map_asSlash]

theorem startsRelative_map_asSlash (cs : List Char) :
    startsRelative (cs.map asSlash) = startsRelative cs := by
  rw [Bool.eq_iff_iff, startsRelative_eq_true_iff, startsRelative_eq_true_iff]
  simp only [List.map_eq_cons_iff, asSlash_eq_dot_iff]
  constructor
  · rintro ⟨_, _, separates, ⟨_, _, rfl, rfl, c, rest, rfl, rfl, rfl⟩ |
      ⟨_, _, rfl, rfl, _, _, rfl, rfl, c, rest, rfl, rfl, rfl⟩⟩
    all_goals rw [isSeparator_asSlash] at separates
    · exact ⟨c, rest, separates, .inl rfl⟩
    · exact ⟨c, rest, separates, .inr rfl⟩
  · rintro ⟨c, rest, separates, rfl | rfl⟩
    all_goals rw [← isSeparator_asSlash] at separates
    · exact ⟨_, _, separates, .inl ⟨_, _, rfl, rfl, c, rest, rfl, rfl, rfl⟩⟩
    · exact ⟨_, _, separates, .inr ⟨_, _, rfl, rfl, _, _, rfl, rfl, c, rest, rfl, rfl, rfl⟩⟩

theorem kind_slashed (r : Reference) : r.slashed.kind = r.kind := by
  rw [kind, kind, trimChars_slashed, startsRelative_map_asSlash]

theorem fileName?_slashed (r : Reference) (extension : String) :
    r.slashed.fileName? extension = r.fileName? extension := by
  rw [fileName?, fileName?, segments_slashed]

end Reference

namespace Resolver

variable {r : Resolver} {fs : FileSystem} {reference other : Reference} {directory : Path} {p : Location}

/-- Where a reference leads is told by its kind and its segments. -/
theorem resolve_eq_ok_congr (kind : reference.kind = other.kind)
    (segments : reference.segments = other.segments) :
    r.resolve fs reference directory = .ok p ↔ r.resolve fs other directory = .ok p := by
  unfold resolve base
  rw [kind, segments]
  split
  · simp
  split
  · simp
  split
  · simp
  dsimp only
  split
  · rw [confine_eq_ok_iff, confine_eq_ok_iff]
  · simp

/-- The text of a reference is an absolute path, and with its file name completed the path spells a location
under the root. Only slashes separate the names of a path. -/
structure ReadsAsPath (r : Resolver) (reference : Reference) (p : Location) : Prop where
  absolute : Path.isAbsolute ⟨Text.trim reference.text⟩ = true
  spells : ∃ name, Path.fileName? ⟨Text.trim reference.text⟩ = some name ∧
    ((Path.parent ⟨Text.trim reference.text⟩).join
      ⟨Reference.complete r.extension name⟩).spelledLocation = .ok p
  under : r.root.names <+: p.names

theorem absoluteUnderRoot?_eq_some_iff (lexical : r.normalization = .lexical) :
    r.absoluteUnderRoot? fs reference = some p ↔ r.ReadsAsPath reference p := by
  constructor
  · intro found
    have spells := spelledLocation_of_absoluteUnderRoot? lexical found
    unfold absoluteUnderRoot? at found
    dsimp only at found
    split at found
    · rename_i absolute
      obtain ⟨_, _, behind⟩ := Option.bind_eq_some_iff.1 found
      obtain ⟨l, _, kept⟩ := Option.bind_eq_some_iff.1 behind
      split at kept
      · rename_i under
        obtain rfl := Option.some.inj kept
        exact ⟨absolute, spells, List.isPrefixOf_iff_prefix.1 under⟩
      · cases kept
    · cases found
  · rintro ⟨absolute, ⟨name, named, spelled⟩, under⟩
    have located : fs.normalLocation r.normalization
        ((Path.parent ⟨Text.trim reference.text⟩).join ⟨Reference.complete r.extension name⟩) = .ok p := by
      rw [lexical, FileSystem.normalLocation_lexical_eq_ok_iff]
      exact spelled
    unfold absoluteUnderRoot?
    simp [absolute, named, Reference.withExtension_eq_complete, located, Location.isUnder, under,
      Except.toOption]

theorem ReadsAsPath.resolveTarget (reads : r.ReadsAsPath reference p) (lexical : r.normalization = .lexical) :
    r.resolveTarget fs (.reference reference) = .ok p := by
  rw [Resolver.resolveTarget, (absoluteUnderRoot?_eq_some_iff lexical).2 reads]
  exact confine_eq_ok_iff.2 ⟨rfl, fun _ => reads.under⟩

theorem resolveTarget_of_not_readsAsPath (lexical : r.normalization = .lexical)
    (reads : ∀ p, ¬r.ReadsAsPath reference p) :
    r.resolveTarget fs (.reference reference) = r.resolve fs reference r.root.path := by
  have none : r.absoluteUnderRoot? fs reference = none :=
    Option.eq_none_iff_forall_ne_some.2 fun p found =>
      reads p ((absoluteUnderRoot?_eq_some_iff lexical).1 found)
  rw [Resolver.resolveTarget, none]

/-- Slashes for backslashes make no difference to a reference, unless the spellings do not read alike as absolute
paths under the root, in which a backslash is part of a name. -/
theorem resolveTarget_slashed (r : Resolver) (fs : FileSystem) (lexical : r.normalization = .lexical)
    (reference : Reference) (directory : Path) :
    reference.slashed.kind = reference.kind ∧
    (∀ extension, reference.slashed.fileName? extension = reference.fileName? extension) ∧
    (∀ p, r.resolve fs reference.slashed directory = .ok p ↔ r.resolve fs reference directory = .ok p) ∧
    ((∀ p, r.ReadsAsPath reference.slashed p ↔ r.ReadsAsPath reference p) →
      ∀ p, r.resolveTarget fs (.reference reference.slashed) = .ok p ↔
        r.resolveTarget fs (.reference reference) = .ok p) ∧
    ∀ p, r.ReadsAsPath reference p → r.resolveTarget fs (.reference reference) = .ok p := by
  have resolves : ∀ directory p,
      r.resolve fs reference.slashed directory = .ok p ↔ r.resolve fs reference directory = .ok p :=
    fun _ _ => resolve_eq_ok_congr reference.kind_slashed reference.segments_slashed
  refine ⟨reference.kind_slashed, reference.fileName?_slashed, resolves directory, ?_,
    fun p reads => reads.resolveTarget lexical⟩
  intro alike p
  -- Either both spellings are taken as paths, or neither is.
  by_cases reads : ∃ l, r.ReadsAsPath reference l
  · obtain ⟨l, reads⟩ := reads
    rw [reads.resolveTarget lexical, ((alike l).2 reads).resolveTarget lexical]
  · have written : ∀ l, ¬r.ReadsAsPath reference l := not_exists.1 reads
    have slashed : ∀ l, ¬r.ReadsAsPath reference.slashed l := fun l reads => written l ((alike l).1 reads)
    rw [resolveTarget_of_not_readsAsPath lexical written,
      resolveTarget_of_not_readsAsPath lexical slashed]
    exact resolves r.root.path p

end Resolver

namespace Sample

/-- A reference that starts with a slash and is no path under the root. -/
def anchored : Reference := ⟨" /sub\\.\\x/..\\y"⟩

def backslashed : Reference := ⟨"/srv/w/a\\b"⟩

end Sample

namespace Resolver

theorem resolveTarget_slashed_sample :
    Sample.keeper.resolveTarget .empty (.reference Sample.anchored) = .ok ⟨["srv", "w", "sub", "y.yml"]⟩ ∧
    Sample.keeper.resolveTarget .empty (.reference Sample.anchored.slashed) =
      .ok ⟨["srv", "w", "sub", "y.yml"]⟩ := by
  obtain ⟨_, _, _, agrees, _⟩ := resolveTarget_slashed Sample.keeper .empty rfl Sample.anchored ⟨"/"⟩
  have outside : ∀ reference : Reference, Sample.keeper.absoluteUnderRoot? .empty reference = none →
      ∀ p, ¬Sample.keeper.ReadsAsPath reference p := by
    intro reference none p reads
    cases none.symm.trans ((absoluteUnderRoot?_eq_some_iff rfl).2 reads)
  have resolved : Sample.keeper.resolveTarget .empty (.reference Sample.anchored) =
      .ok ⟨["srv", "w", "sub", "y.yml"]⟩ := by
    decide +kernel
  have alike : ∀ p, Sample.keeper.ReadsAsPath Sample.anchored.slashed p ↔
      Sample.keeper.ReadsAsPath Sample.anchored p := fun p =>
    iff_of_false (outside _ (by decide +kernel) p) (outside _ (by decide +kernel) p)
  exact ⟨resolved, (agrees alike _).2 resolved⟩

/-- A path under the root leads to a name with a backslash, and with a slash for it to a file in a
directory. -/
theorem resolveTarget_backslash :
    Sample.keeper.normalization = .lexical ∧
    Sample.keeper.resolveTarget .empty (.reference Sample.backslashed) = .ok ⟨["srv", "w", "a\\b.yml"]⟩ ∧
    Sample.keeper.resolveTarget .empty (.reference Sample.backslashed.slashed) =
      .ok ⟨["srv", "w", "a", "b.yml"]⟩ := by
  refine ⟨rfl, ?_, ?_⟩ <;> decide +kernel

end Resolver

end WorkflowEngine
