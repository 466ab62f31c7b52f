import WorkflowEngine.Proofs.Path.Components

/-! What a reference means.

A reference has a base and segments. The components of the base and then the segments are taken on a stack of
names, the last segment with the extension put to it. The location that is left on the stack is what the
reference means, if the last segment names something and, for a confined resolver, if the root is at the
bottom of the stack. Where the stack has been in between does not matter.
-/

set_option autoImplicit false

namespace WorkflowEngine

namespace Reference

theorem unseparated {cs : List Char} (whole : ∀ c ∈ cs, isSeparator c = false) : '/' ∉ cs ∧ '\\' ∉ cs :=
  ⟨fun slash => absurd (whole _ slash) (by decide), fun backslash => absurd (whole _ backslash) (by decide)⟩

def parts (r : Reference) : List String := Text.parts isSeparator (Text.trimChars r.text.toList)

theorem segments_eq_parts (r : Reference) : r.segments = r.parts := by
  rw [segments, segmentsOf, Text.pieces_eq_splitOnP, parts, Text.parts]

def startsOver (r : Reference) : Bool :=
  ["./", "../", ".\\", "..\\"].any fun start => start.toList.isPrefixOf (Text.trimChars r.text.toList)

theorem startsRelative_eq_true_iff {cs : List Char} :
    startsRelative cs = true ↔
      ∃ c rest, isSeparator c = true ∧ (cs = '.' :: c :: rest ∨ cs = '.' :: '.' :: c :: rest) := by
  unfold startsRelative
  split
  · simp [isSeparator]
  · rename_i c rest more
    constructor
    · exact fun separates => ⟨c, rest, separates, .inl rfl⟩
    · rintro ⟨d, others, separates, same | same⟩
      · cases same
        exact separates
      · cases same
        exact absurd rfl (more d others rfl)
  · rename_i short shorter
    constructor
    · intro impossible
      cases impossible
    · rintro ⟨c, rest, _, rfl | rfl⟩
      · exact absurd rfl (shorter c rest)
      · exact absurd rfl (short c rest)

theorem startsRelative_eq_startsOver (r : Reference) :
    startsRelative (Text.trimChars r.text.toList) = r.startsOver := by
  rw [Bool.eq_iff_iff, startsRelative_eq_true_iff, startsOver]
  simp only [List.any_eq_true, List.isPrefixOf_iff_prefix]
  constructor
  · rintro ⟨c, rest, separates, same | same⟩
    all_goals
      have slash : c = '/' ∨ c = '\\' := by simpa [isSeparator] using separates
      rw [same]
      rcases slash with rfl | rfl
    · exact ⟨"./", by simp, by simp⟩
    · exact ⟨".\\", by simp, by simp⟩
    · exact ⟨"../", by simp, by simp⟩
    · exact ⟨"..\\", by simp, by simp⟩
  · rintro ⟨start, member, rest, same⟩
    simp only [List.mem_cons, List.not_mem_nil, or_false] at member
    rcases member with rfl | rfl | rfl | rfl
    · exact ⟨'/', rest, rfl, .inl same.symm⟩
    · exact ⟨'/', rest, rfl, .inr same.symm⟩
    · exact ⟨'\\', rest, rfl, .inl same.symm⟩
    · exact ⟨'\\', rest, rfl, .inr same.symm⟩

theorem kind_eq (r : Reference) : r.kind = if r.startsOver then .relative else .rootAnchored := by
  rw [kind, startsRelative_eq_startsOver]

/-- A name with the extension put to it, unless the name ends with it and has something before it. -/
def complete (extension name : String) : String :=
  if ('.' :: extension.toList).isSuffixOf name.toList && extension.length + 1 < name.length then name
  else name ++ "." ++ extension

theorem withExtension_eq_complete (extension name : String) :
    withExtension extension name = complete extension name := by
  unfold withExtension complete
  dsimp only
  split
  · rename_i first front ends
    have whole := Text.beforeFinish?_eq_some_iff.1 ends
    have longer : extension.length + 1 < name.length := by
      rw [← String.length_toList, ← String.length_toList, whole, List.length_append, List.length_cons,
        List.length_cons]
      omega
    have suffix : '.' :: extension.toList <:+ name.toList := ⟨_, whole.symm⟩
    rw [if_pos]
    simpa [List.isSuffixOf_iff_suffix, longer] using suffix
  · rename_i short
    rw [if_neg]
    · simp [String.ofList_append, String.append_assoc]
    · intro ends
      obtain ⟨suffix, longer⟩ := Bool.and_eq_true_iff.1 ends
      obtain ⟨front, whole⟩ := List.isSuffixOf_iff_suffix.1 suffix
      cases front with
      | nil =>
        rw [← String.length_toList, ← String.length_toList, ← whole] at longer
        simp at longer
      | cons first front => exact short first front (Text.beforeFinish?_eq_some_iff.2 whole.symm)

theorem complete_eq_or (extension name : String) :
    complete extension name = name ∨ complete extension name = name ++ "." ++ extension := by
  unfold complete
  split
  · exact .inl rfl
  · exact .inr rfl

theorem complete_ordinary {extension name : String} (named : name ≠ "") (dot : name ≠ ".")
    (dots : name ≠ "..") :
    complete extension name ≠ "" ∧ complete extension name ≠ "." ∧ complete extension name ≠ ".." := by
  rcases complete_eq_or extension name with same | longer
  · rw [same]
    exact ⟨named, dot, dots⟩
  · rw [longer]
    have written : name.toList ≠ [] := by simpa using named
    have other : name.toList ≠ ['.'] := fun same => dot (String.toList_inj.1 same)
    refine ⟨fun same => ?_, fun same => ?_, fun same => ?_⟩
    all_goals
      have letters := congrArg String.toList same
      rw [String.toList_append, String.toList_append] at letters
      rcases spelled : name.toList with _ | ⟨first, _ | ⟨second, rest⟩⟩
      · exact written spelled
      · simp_all
      · simp_all

def NamesDocument (r : Reference) : Prop :=
  ∃ last, r.parts.getLast? = some last ∧ last ≠ "." ∧ last ≠ ".."

def completed (r : Reference) (extension : String) : List String :=
  r.parts.dropLast ++ (r.parts.getLast?.map (complete extension)).toList

theorem whole_of_mem_completed {r : Reference} {extension name : String}
    (whole : ∀ c ∈ extension.toList, isSeparator c = false) (member : name ∈ r.completed extension) :
    '/' ∉ name.toList ∧ name ≠ "" := by
  have kept : ∀ part ∈ r.parts, '/' ∉ part.toList ∧ part ≠ "" := by
    intro part inside
    obtain ⟨written, free⟩ := Text.whole_of_mem_parts inside
    exact ⟨(unseparated free).1, written⟩
  rcases List.mem_append.1 member with above | last
  · exact kept name (List.dropLast_subset _ above)
  · obtain ⟨part, ends, rfl⟩ := Option.map_eq_some_iff.1 (Option.mem_toList.1 last)
    obtain ⟨free, written⟩ := kept part (List.mem_of_getLast? ends)
    rcases complete_eq_or extension part with same | longer
    · rw [same]
      exact ⟨free, written⟩
    · rw [longer]
      simp [free, (unseparated whole).1, written]

end Reference

namespace Resolver

def start (r : Resolver) (reference : Reference) (directory : Path) : Path :=
  if reference.startsOver then directory else r.root.path

/-- The components of the base of a reference, and its segments behind them. -/
def route (r : Resolver) (reference : Reference) (directory : Path) : List String :=
  (r.start reference directory).components ++ reference.completed r.extension

/-- A reference, seen from a directory, means a location. -/
structure Means (r : Resolver) (reference : Reference) (directory : Path) (p : Location) : Prop where
  named : reference.NamesDocument
  absolute : (r.start reference directory).isAbsolute = true
  walks : Path.walk [] (r.route reference directory) = some p.names.reverse
  confined : r.sandbox = .confineToRoot → r.root.names <+: p.names

variable {r : Resolver} {fs : FileSystem} {reference : Reference} {directory : Path} {p : Location}

theorem base_eq_start (r : Resolver) (reference : Reference) (directory : Path) :
    r.base reference directory = r.start reference directory := by
  rw [base, start, Reference.kind_eq]
  cases reference.startsOver <;> rfl

theorem isAbsolute_start : (r.start reference directory).isAbsolute = true ↔
    ¬(reference.kind = .relative ∧ directory.isAbsolute = false) := by
  rw [start, Reference.kind_eq]
  cases reference.startsOver <;> simp [Location.isAbsolute_path]

theorem confine_eq_ok_iff {text : String} {l : Location} :
    r.confine text l = .ok p ↔ p = l ∧ (r.sandbox = .confineToRoot → r.root.names <+: p.names) := by
  have refuses : (r.sandbox = .confineToRoot && !l.isUnder r.root) = true ↔
      ¬(r.sandbox = .confineToRoot → r.root.names <+: l.names) := by
    simp [Location.isUnder, ← List.isPrefixOf_iff_prefix]
  unfold confine
  split
  · rename_i outside
    simp only [reduceCtorEq, false_iff]
    rintro ⟨rfl, inside⟩
    exact refuses.1 outside inside
  · rename_i kept
    rw [Except.ok.injEq, eq_comm]
    refine ⟨fun same => ⟨same, ?_⟩, And.left⟩
    rw [same]
    exact not_not.1 (mt refuses.2 kept)

/-- What a reference is written out as spells what is left on the stack. -/
theorem spelledLocation_written (absolute : (r.start reference directory).isAbsolute = true)
    (whole : ∀ c ∈ r.extension.toList, Reference.isSeparator c = false) :
    (extend (r.start reference directory) (reference.completed r.extension)).spelledLocation = .ok p ↔
      Path.walk [] (r.route reference directory) = some p.names.reverse := by
  obtain ⟨below, components⟩ := extend_names absolute fun _ => Reference.whole_of_mem_completed whole
  rw [Path.spelledLocation_eq_ok_iff, and_iff_right below, components, route]

/-- Under lexical normalization a reference is resolved to what it means, and to nothing else. -/
theorem resolve_eq_ok_iff (lexical : r.normalization = .lexical)
    (whole : ∀ c ∈ r.extension.toList, Reference.isSeparator c = false) :
    r.resolve fs reference directory = .ok p ↔ r.Means reference directory p := by
  unfold resolve
  rw [Reference.segments_eq_parts]
  rcases List.eq_nil_or_concat' reference.parts with nothing | ⟨front, last, split⟩
  · rw [nothing]
    constructor
    · intro resolved
      cases resolved
    · rintro ⟨⟨last, ends, _⟩, _⟩
      simp [nothing] at ends
  have ordinary : reference.NamesDocument ↔ ¬(last = "." ∨ last = "..") := by
    simp [Reference.NamesDocument, split]
  have completed : reference.completed r.extension =
      front ++ [Reference.withExtension r.extension last] := by
    simp [Reference.completed, split, Reference.withExtension_eq_complete]
  rw [split, List.reverse_concat']
  dsimp only
  split
  · rename_i climbs
    constructor
    · intro resolved
      cases resolved
    · intro means
      exact absurd (by simpa using climbs) (ordinary.1 means.named)
  rename_i level
  split
  · rename_i adrift
    constructor
    · intro resolved
      cases resolved
    · intro means
      exact absurd (by simpa using adrift) (isAbsolute_start.1 means.absolute)
  rename_i anchored
  have named : reference.NamesDocument := ordinary.2 (by simpa using level)
  have absolute : (r.start reference directory).isAbsolute = true :=
    isAbsolute_start.2 (by simpa using anchored)
  -- Nothing is refused from here on but for its spelling and the sandbox.
  rw [List.reverse_reverse, base_eq_start, ← completed, lexical, FileSystem.normalLocation]
  cases spelled : (extend (r.start reference directory)
      (reference.completed r.extension)).spelledLocation with
  | error fault =>
    constructor
    · intro resolved
      cases resolved
    · intro means
      have found := (spelledLocation_written absolute whole).2 means.walks
      rw [spelled] at found
      cases found
  | ok l =>
    have walked := (spelledLocation_written absolute whole).1 spelled
    dsimp only
    rw [confine_eq_ok_iff]
    constructor
    · rintro ⟨rfl, confined⟩
      exact ⟨named, absolute, walked, confined⟩
    · intro means
      have same := Option.some.inj (means.walks.symm.trans walked)
      exact ⟨Location.ext_names (List.reverse_inj.1 same), means.confined⟩

theorem Means.fileName (means : r.Means reference directory p) :
    p.names.getLast? = reference.fileName? r.extension := by
  obtain ⟨last, ends, dot, dots⟩ := means.named
  have written : last ≠ "" := (Text.whole_of_mem_parts (List.mem_of_getLast? ends)).1
  obtain ⟨_, notDot, notDots⟩ := @Reference.complete_ordinary r.extension last written dot dots
  have walked := means.walks
  rw [route, Reference.completed, ends, ← List.append_assoc, Path.walk_append] at walked
  obtain ⟨above, _, placed⟩ := Option.bind_eq_some_iff.1 walked
  simp only [Option.map_some, Option.toList_some, Path.walk_cons, Path.place_name notDot notDots,
    Option.bind_some, Path.walk_nil] at placed
  have names := congrArg List.reverse (Option.some.inj placed)
  rw [List.reverse_reverse] at names
  rw [Reference.fileName?, Reference.segments_eq_parts, ends, Option.map_some,
    Reference.withExtension_eq_complete, ← names]
  simp

/-- A resolver that goes by spelling resolves a reference exactly to the location that it means. A way that comes back
to the root may have left it. -/
theorem resolve_iff_means (r : Resolver) (fs : FileSystem) (lexical : r.normalization = .lexical)
    (whole : ∀ c ∈ r.extension.toList, Reference.isSeparator c = false) (reference : Reference)
    (directory : Path) (p : Location) :
    (r.resolve fs reference directory = .ok p ↔ r.Means reference directory p) ∧
    (r.Means reference directory p → p.names.getLast? = reference.fileName? r.extension) ∧
    (∀ other further, reference.NamesDocument → other.NamesDocument →
      (r.start reference directory).isAbsolute = true → (r.start other further).isAbsolute = true →
      Path.walk [] (r.route reference directory) = Path.walk [] (r.route other further) →
        (r.resolve fs reference directory = .ok p ↔ r.resolve fs other further = .ok p)) ∧
    ∀ out back between, reference.NamesDocument → (r.start reference directory).isAbsolute = true →
      r.route reference directory = out ++ back → Path.walk [] out = some between →
      Path.walk between back = some p.names.reverse → r.root.names <+: p.names →
        r.resolve fs reference directory = .ok p := by
  have resolves : ∀ reference directory, r.resolve fs reference directory = .ok p ↔
      r.Means reference directory p := fun _ _ => resolve_eq_ok_iff lexical whole
  refine ⟨resolves reference directory, Means.fileName, ?_, ?_⟩
  · intro other further named otherNamed absolute otherAbsolute same
    rw [resolves, resolves]
    constructor
    · exact fun means => ⟨otherNamed, otherAbsolute, same ▸ means.walks, means.confined⟩
    · exact fun means => ⟨named, absolute, same.symm ▸ means.walks, means.confined⟩
  · intro out back between named absolute split left returns inside
    refine (resolves reference directory).2 ⟨named, absolute, ?_, fun _ => inside⟩
    rw [split, Path.walk_append, left]
    exact returns

end Resolver

namespace Sample

def keeper : Resolver := ⟨⟨["srv", "w"]⟩, "yml", .confineToRoot, .lexical⟩

/-- Three climbs with either separator, and the way back down. -/
def roundTrip : Reference := ⟨" ..\\../../srv//w/./a "⟩

def plain : Reference := ⟨"x/../a.yml"⟩

end Sample

namespace Resolver

/-- The way goes up to the top directory and comes back under the root, where another spelling leads too. -/
theorem resolve_iff_means_sample :
    Sample.keeper.resolve .empty Sample.roundTrip ⟨"/srv/w/x/../y"⟩ = .ok ⟨["srv", "w", "a.yml"]⟩ ∧
    Sample.keeper.resolve .empty Sample.plain ⟨"elsewhere"⟩ = .ok ⟨["srv", "w", "a.yml"]⟩ ∧
    Sample.keeper.Means Sample.plain ⟨"elsewhere"⟩ ⟨["srv", "w", "a.yml"]⟩ ∧
    Sample.plain.fileName? Sample.keeper.extension = some "a.yml" := by
  have whole : ∀ c ∈ Sample.keeper.extension.toList, Reference.isSeparator c = false := by
    have all : (Sample.keeper.extension.toList.all fun c => !Reference.isSeparator c) = true := by decide
    simpa using all
  have named : Sample.roundTrip.NamesDocument := ⟨"a", by decide +kernel, by decide, by decide⟩
  have plainNamed : Sample.plain.NamesDocument := ⟨"a.yml", by decide +kernel, by decide, by decide⟩
  obtain ⟨_, _, same, returns⟩ := resolve_iff_means Sample.keeper .empty rfl whole Sample.roundTrip
    ⟨"/srv/w/x/../y"⟩ ⟨["srv", "w", "a.yml"]⟩
  have resolved := returns ["srv", "w", "x", "..", "y", "..", "..", ".."] ["srv", "w", ".", "a.yml"] []
    named (by decide +kernel) (by decide +kernel) (by decide +kernel) (by decide +kernel)
    (by decide +kernel)
  have again := (same Sample.plain ⟨"elsewhere"⟩ named plainNamed (by decide +kernel) (by decide +kernel)
    (by decide +kernel)).1 resolved
  obtain ⟨means, file, _⟩ := resolve_iff_means Sample.keeper .empty rfl whole Sample.plain
    ⟨"elsewhere"⟩ ⟨["srv", "w", "a.yml"]⟩
  exact ⟨resolved, again, means.1 again, (file (means.1 again)).symm⟩

end Resolver

end WorkflowEngine
