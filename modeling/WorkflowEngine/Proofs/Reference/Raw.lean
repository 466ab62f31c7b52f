import WorkflowEngine.Proofs.Path.Raw
import WorkflowEngine.Proofs.Reference.Entry
import WorkflowEngine.Resolver.Raw

/-! Entries in bytes.

On texts a resolver answers as the resolver in bytes does. What that has answered it answers again when it is asked
for the location itself. Asked for what the location is printed as, it does so if the path of the location is a text.
The printed text of any other path has other bytes.
-/

set_option autoImplicit false

namespace WorkflowEngine

theorem Reference.proper_of_mem_segments {reference : Reference} {name : String} (member : name ∈ reference.segments)
    (dot : name ≠ ".") (dots : name ≠ "..") : ProperName name := by
  rw [segments_eq_parts] at member
  obtain ⟨written, free⟩ := Text.whole_of_mem_parts member
  exact ⟨(unseparated free).1, by simp [Path.isIdle, written, dot], dots⟩

namespace Resolver

variable {r : Resolver} {fs : FileSystem}

theorem extension_raw : r.raw.extension = r.extension := rfl

theorem confine_raw (r : Resolver) (text : String) (l : Location) :
    r.raw.confine text l.raw = (r.confine text l).map Location.raw := by
  rw [RawResolver.confine, confine, raw, Location.isUnder_raw, Location.shown_raw, Location.shown_raw]
  split <;> rfl

theorem extend_raw (base : Path) (names : List String) : RawResolver.extend base.raw names = (extend base names).raw := by
  induction names generalizing base with
  | nil => rfl
  | cons name rest ih =>
    have next := ih (base.join ⟨name⟩)
    rw [Path.join_raw] at next
    exact next

theorem base_raw (r : Resolver) (reference : Reference) (directory : Path) :
    r.raw.base reference directory.raw = (r.base reference directory).raw := by
  rw [RawResolver.base, base]
  cases reference.kind with
  | relative => rfl
  | rootAnchored => exact Location.path_raw r.root

theorem build_raw (root : Path) (extension : String) (sandbox : Sandbox) :
    RawResolver.build root.raw extension sandbox = (build fs root extension sandbox .lexical).map raw := by
  rw [RawResolver.build, build]
  split
  · rfl
  · rw [Path.spelledLocation_raw, Path.text_raw, FileSystem.normalLocation]
    cases root.spelledLocation <;> rfl

theorem resolve_raw (lexical : r.normalization = .lexical) (reference : Reference) (directory : Path) :
    r.raw.resolve reference directory.raw = (r.resolve fs reference directory).map Location.raw := by
  rw [RawResolver.resolve, resolve]
  cases reference.segments.reverse with
  | nil => rfl
  | cons last above =>
    dsimp only
    rw [Path.isAbsolute_raw, Path.text_raw]
    split
    · rfl
    split
    · rfl
    rw [extension_raw, base_raw, extend_raw, Path.spelledLocation_raw, lexical, FileSystem.normalLocation]
    cases (extend (r.base reference directory) _).spelledLocation with
    | error fault => rfl
    | ok l => exact confine_raw r reference.text l

theorem absoluteUnderRoot?_raw (lexical : r.normalization = .lexical) (reference : Reference) :
    r.raw.absoluteUnderRoot? reference = (r.absoluteUnderRoot? fs reference).map Location.raw := by
  rw [RawResolver.absoluteUnderRoot?, absoluteUnderRoot?]
  dsimp only
  split
  · cases Path.fileName? ⟨Text.trim reference.text⟩ with
    | none => rfl
    | some name =>
      dsimp only [Option.bind_eq_bind, Option.bind_some]
      rw [extension_raw, Path.spelledLocation_raw, lexical, FileSystem.normalLocation]
      cases Path.spelledLocation _ with
      | error fault => rfl
      | ok l =>
        have under : l.raw.isUnder r.raw.root = l.isUnder r.root := Location.isUnder_raw l r.root
        by_cases inside : l.isUnder r.root = true <;> simp [Except.map, Except.toOption, under, inside]
  · rfl

/-- Texts are entries as their bytes are. -/
theorem resolveTarget_raw (lexical : r.normalization = .lexical) (target : Target) :
    r.raw.resolveTarget target.raw = (r.resolveTarget fs target).map Location.raw := by
  cases target with
  | location l =>
    rw [Target.raw, RawResolver.resolveTarget, resolveTarget, Location.text_raw]
    exact confine_raw r l.text l
  | reference reference =>
    rw [Target.raw, RawResolver.resolveTarget, resolveTarget, @absoluteUnderRoot?_raw r fs lexical]
    cases r.absoluteUnderRoot? fs reference with
    | some l => exact confine_raw r reference.text l
    | none =>
      rw [Option.map_none, raw, Location.path_raw]
      exact resolve_raw lexical reference r.root.path

end Resolver

namespace RawResolver

variable {r : RawResolver} {p : RawLocation}

/-- What a resolver answers, when a reference is seen from a directory or asked for as an entry. -/
inductive Answers (r : RawResolver) (p : RawLocation) : Prop
  | seen {reference : Reference} {directory : RawPath} : r.resolve reference directory = .ok p → Answers r p
  | entry {reference : Reference} : r.resolveTarget (.reference reference) = .ok p → Answers r p

theorem eq_of_confine {text : String} {l : RawLocation} (confined : r.confine text l = .ok p) : p = l := by
  unfold confine at confined
  split at confined
  · cases confined
  · exact (Except.ok.inj confined).symm

theorem confine_of_isUnder {text : String} (under : p.isUnder r.root = true) : r.confine text p = .ok p := by
  simp [confine, under]

theorem extension_of_build {root : RawPath} {extension : String} {sandbox : Sandbox}
    (built : build root extension sandbox = .ok r) :
    r.extension = Resolver.bareExtension extension ∧ r.extension ≠ "" := by
  unfold build at built
  dsimp only at built
  split at built
  · cases built
  · rename_i written
    split at built
    · cases built
      exact ⟨rfl, by simpa using written⟩
    · cases built

theorem extend_concat (base : RawPath) (above : List String) (last : String) :
    extend base (above ++ [last]) = (extend base above).join (Path.raw ⟨last⟩) := by
  simp [extend]

theorem exists_written_of_resolve {reference : Reference} {directory : RawPath}
    (resolved : r.resolve reference directory = .ok p) : ∃ (above : RawPath) (name : String),
      ProperName name ∧ (above.join (Path.raw ⟨Reference.complete r.extension name⟩)).spelledLocation = .ok p := by
  unfold resolve at resolved
  split at resolved
  · cases resolved
  rename_i last above backwards
  split at resolved
  · cases resolved
  rename_i names
  split at resolved
  · cases resolved
  dsimp only at resolved
  split at resolved
  · rename_i l located
    obtain rfl := eq_of_confine resolved
    -- The last segment stands behind the path of the others.
    rw [extend_concat, Reference.withExtension_eq_complete] at located
    have member : last ∈ reference.segments := List.mem_reverse.1 (backwards ▸ List.mem_cons_self)
    have ordinary : last ≠ "." ∧ last ≠ ".." := by simpa [not_or] using names
    exact ⟨_, last, Reference.proper_of_mem_segments member ordinary.1 ordinary.2, located⟩
  · cases resolved

theorem exists_written_of_absoluteUnderRoot? {reference : Reference}
    (found : r.absoluteUnderRoot? reference = some p) : ∃ (above : RawPath) (name : String),
      ProperName name ∧ (above.join (Path.raw ⟨Reference.complete r.extension name⟩)).spelledLocation = .ok p := by
  unfold absoluteUnderRoot? at found
  dsimp only at found
  split at found
  · simp only [Option.bind_eq_bind, Option.bind_eq_some_iff] at found
    obtain ⟨name, named, l, located, inside⟩ := found
    split at inside
    · cases inside
      rw [Path.join_raw, Reference.withExtension_eq_complete] at located
      exact ⟨_, name, Path.proper_of_fileName? named, toOption_eq_some_iff.1 located⟩
    · cases inside
  · cases found

/-- Whatever is answered is spelled by a path that was continued by a completed name. -/
theorem exists_written_of_answers (answers : r.Answers p) : ∃ (above : RawPath) (name : String),
    ProperName name ∧ (above.join (Path.raw ⟨Reference.complete r.extension name⟩)).spelledLocation = .ok p := by
  cases answers with
  | seen resolved => exact exists_written_of_resolve resolved
  | entry resolved =>
    rw [resolveTarget] at resolved
    split at resolved
    · rename_i l found
      obtain rfl := eq_of_confine resolved
      exact exists_written_of_absoluteUnderRoot? found
    · exact exists_written_of_resolve resolved

theorem getLast?_of_answers (whole : ∀ c ∈ r.extension.toList, Reference.isSeparator c = false)
    (answers : r.Answers p) :
    ∃ name, name ≠ "" ∧ p.names.getLast? = some (Text.bytes (Reference.complete r.extension name)) := by
  obtain ⟨above, name, proper, spelled⟩ := exists_written_of_answers answers
  have last := RawPath.getLast?_of_spelledLocation_join (Reference.proper_complete whole proper).raw spelled
  exact ⟨name, proper.ordinary.1, last⟩

theorem names_of_answers (answers : r.Answers p) : ∀ name ∈ p.names, RawName name := by
  obtain ⟨_, _, _, spelled⟩ := exists_written_of_answers answers
  exact RawPath.names_of_spelledLocation spelled

/-- Whatever a resolver has answered that lies under its root, it answers again when it is asked for the location
itself, and for the text that the location is printed as if its path is a text. -/
theorem resolveTarget_of_answers (root : RawPath) (extension : String) (sandbox : Sandbox) (r : RawResolver)
    (built : build root extension sandbox = .ok r)
    (whole : ∀ c ∈ r.extension.toList, Reference.isSeparator c = false) (p : RawLocation) (answers : r.Answers p)
    (under : p.isUnder r.root = true) :
    r.resolveTarget (.location p) = .ok p ∧
      (p.path = Path.raw ⟨p.text⟩ → r.resolveTarget (.reference ⟨p.text⟩) = .ok p) := by
  refine ⟨confine_of_isUnder under, fun kept => ?_⟩
  obtain ⟨bare, named⟩ := extension_of_build built
  obtain ⟨name, written, ends⟩ := getLast?_of_answers whole answers
  have raw := names_of_answers answers
  obtain ⟨q, rfl⟩ := RawLocation.exists_raw_eq raw kept
  obtain ⟨top, isTop⟩ := RawLocation.exists_raw_eq_of_isUnder under
  -- The path is a text, so the root is one, and the resolver is one on texts.
  obtain ⟨s, rfl, lexical⟩ : ∃ s : Resolver, s.raw = r ∧ s.normalization = .lexical :=
    ⟨⟨top, r.extension, r.sandbox, .lexical⟩, by rw [Resolver.raw, isTop], rfl⟩
  have trimmed : ∀ c ∈ s.extension.toList.getLast?, Text.isBlank c = false := by
    rw [← Resolver.extension_raw, bare]
    exact Resolver.trimmed_bareExtension extension
  have again := @Resolver.resolveTarget_text s .empty q name lexical (Location.proper_of_raw raw)
    (Location.getLast?_of_raw ends) written named trimmed (q.isUnder_raw s.root ▸ under)
  have same := @Resolver.resolveTarget_raw s .empty lexical (.reference ⟨q.text⟩)
  rw [again] at same
  rw [Location.text_raw]
  exact same

end RawResolver

namespace Resolver

variable {r : Resolver} {fs : FileSystem} {p : Location}

theorem answers_raw (lexical : r.normalization = .lexical) {request : Request}
    (answered : r.answer fs request = .ok p) : r.raw.Answers p.raw := by
  cases request with
  | seen reference directory =>
    have same := @resolve_raw r fs lexical reference directory
    rw [answer] at answered
    rw [answered] at same
    exact .seen same
  | entry reference =>
    have same := @resolveTarget_raw r fs lexical (.reference reference)
    rw [answer] at answered
    rw [answered] at same
    exact .entry same

theorem getLast?_of_answer (lexical : r.normalization = .lexical)
    (whole : ∀ c ∈ r.extension.toList, Reference.isSeparator c = false) {request : Request}
    (answered : r.answer fs request = .ok p) :
    ∃ name, name ≠ "" ∧ p.names.getLast? = some (Reference.complete r.extension name) := by
  obtain ⟨name, written, ends⟩ := RawResolver.getLast?_of_answers whole (answers_raw lexical answered)
  exact ⟨name, written, Location.getLast?_of_raw ends⟩

/-- Whatever a resolver has answered that lies under its root, it answers again for the location and for its text,
whatever has become of the files. -/
theorem resolveTarget_of_answer (start : FileSystem) (root : Path) (extension : String) (sandbox : Sandbox)
    (r : Resolver) (built : build start root extension sandbox .lexical = .ok r)
    (whole : ∀ c ∈ r.extension.toList, Reference.isSeparator c = false) (fs : FileSystem) (request : Request)
    (p : Location) (answered : r.answer fs request = .ok p) (under : p.isUnder r.root = true) :
    ∀ later : FileSystem, r.resolveTarget later (.location p) = .ok p ∧
      r.resolveTarget later (.reference ⟨p.text⟩) = .ok p := by
  intro later
  obtain ⟨named, l, _, rfl⟩ := build_eq_ok_iff.1 built
  obtain ⟨name, written, ends⟩ := getLast?_of_answer rfl whole answered
  have again := @resolveTarget_text _ later p name rfl (proper_of_answer answered) ends written named
    (trimmed_bareExtension extension) under
  exact ⟨confine_of_isUnder under, again⟩

end Resolver

namespace Sample

/-- A file below a directory that is spelled like the root, with a backslash and blanks on the way to it. -/
def spaced : Location := ⟨["srv", "w", "srv", "w", "a\\b", "  x y.yml"]⟩

/-- A root that is written with a directory that is no text, and climbs out of it. -/
def detour : RawPath := ⟨Text.bytes "/srv/" ++ 0xff :: Text.bytes "/../w"⟩

def unprintable : RawResolver := ⟨⟨[Text.bytes "srv", [0xff]]⟩, "yml", .confineToRoot⟩

def unprinted : RawLocation := ⟨[Text.bytes "srv", [0xff], Text.bytes "x.yml"]⟩

end Sample

namespace RawResolver

/-- The text of the location is no reference that would be read like this below the root. -/
theorem resolveTarget_of_answers_sample :
    Sample.keeper.raw.resolve ⟨" .//  x y "⟩ (Path.raw ⟨"/srv/w/srv/w/a\\b"⟩) = .ok Sample.spaced.raw ∧
    Sample.spaced.raw.text = "/srv/w/srv/w/a\\b/  x y.yml" ∧
    Sample.keeper.raw.resolveTarget (.reference ⟨Sample.spaced.raw.text⟩) = .ok Sample.spaced.raw := by
  have built : build Sample.detour " .yml" .confineToRoot = .ok Sample.keeper.raw := by
    decide +kernel
  have whole : ∀ c ∈ Sample.keeper.raw.extension.toList, Reference.isSeparator c = false := by
    have all : (Sample.keeper.raw.extension.toList.all fun c => !Reference.isSeparator c) = true := by decide
    simpa using all
  have answered : Sample.keeper.raw.resolve ⟨" .//  x y "⟩ (Path.raw ⟨"/srv/w/srv/w/a\\b"⟩) =
      .ok Sample.spaced.raw := by
    decide +kernel
  have again := resolveTarget_of_answers Sample.detour " .yml" .confineToRoot Sample.keeper.raw built whole
    Sample.spaced.raw (.seen answered) (by decide +kernel)
  exact ⟨answered, by decide +kernel, again.2 (by decide +kernel)⟩

/-- Printed, the directory of the root is another one, so what is printed of a file in it is read below the root. -/
theorem resolveTarget_printed :
    build Sample.unprintable.root.path "yml" .confineToRoot = .ok Sample.unprintable ∧
    (∀ c ∈ Sample.unprintable.extension.toList, Reference.isSeparator c = false) ∧
    Sample.unprintable.resolveTarget (.reference ⟨"x"⟩) = .ok Sample.unprinted ∧
    Sample.unprinted.isUnder Sample.unprintable.root = true ∧
    Sample.unprinted.text = "/srv/\uFFFD/x.yml" ∧
    Sample.unprintable.resolveTarget (.reference ⟨Sample.unprinted.text⟩) =
      .ok ⟨[Text.bytes "srv", [0xff], Text.bytes "srv", Text.bytes "\uFFFD", Text.bytes "x.yml"]⟩ ∧
    Sample.unprintable.resolveTarget (.reference ⟨Sample.unprinted.text⟩) ≠ .ok Sample.unprinted := by
  have built : build Sample.unprintable.root.path "yml" .confineToRoot = .ok Sample.unprintable := by
    decide +kernel
  have whole : ∀ c ∈ Sample.unprintable.extension.toList, Reference.isSeparator c = false := by
    have all : (Sample.unprintable.extension.toList.all fun c => !Reference.isSeparator c) = true := by decide
    simpa using all
  have found : Sample.unprintable.resolveTarget (.reference ⟨"x"⟩) = .ok Sample.unprinted := by
    decide +kernel
  have printed : Sample.unprinted.text = "/srv/\uFFFD/x.yml" := by
    decide +kernel
  have again : Sample.unprintable.resolveTarget (.reference ⟨"/srv/\uFFFD/x.yml"⟩) =
      .ok ⟨[Text.bytes "srv", [0xff], Text.bytes "srv", Text.bytes "\uFFFD", Text.bytes "x.yml"]⟩ := by
    decide +kernel
  rw [printed, again]
  exact ⟨built, whole, found, by decide, rfl, rfl, by decide⟩

end RawResolver

end WorkflowEngine
