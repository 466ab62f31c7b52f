import WorkflowEngine.Proofs.Location.Spelling

/-! Climbing paths.

An absolute path has a location by its spelling unless some of its first components climb more often than they go
down. The path of the location has ordinary components only and spells the same location again. A relative path
leads from it to where it leads from the path itself, so a directory may be put in its normal form before anything
is looked for from it. On the way the count of names is the number of components of the path that has been built, so
what climbing takes away is always a name and never the top.
-/

set_option autoImplicit false

namespace WorkflowEngine

namespace Path

def climbs (components : List String) : Nat := components.countP fun component => component = ".."

def descents (components : List String) : Nat :=
  components.countP fun component => component ≠ "." ∧ component ≠ ".."

/-- From a depth, some first components climb further than there is to climb. -/
def Overclimbs (depth : Nat) (components : List String) : Prop :=
  ∃ front, front <+: components ∧ depth + descents front < climbs front

section Overclimbing

variable {depth : Nat} {rest : List String}

theorem not_overclimbs_nil : ¬ Overclimbs depth [] := by
  rintro ⟨front, start, further⟩
  obtain rfl := List.prefix_nil.1 start
  simp [climbs] at further

theorem overclimbs_cons {component : String} : Overclimbs depth (component :: rest) ↔
    ∃ front, front <+: rest ∧ depth + descents (component :: front) < climbs (component :: front) := by
  constructor
  · rintro ⟨front, start, further⟩
    rcases List.prefix_cons_iff.1 start with rfl | ⟨behind, rfl, inside⟩
    · simp [climbs] at further
    · exact ⟨behind, inside, further⟩
  · rintro ⟨front, start, further⟩
    exact ⟨component :: front, (List.prefix_cons_inj component).2 start, further⟩

theorem overclimbs_dot : Overclimbs depth ("." :: rest) ↔ Overclimbs depth rest := by
  rw [overclimbs_cons]
  simp [Overclimbs, climbs, descents]

theorem overclimbs_top : Overclimbs 0 (".." :: rest) :=
  ⟨[".."], by simp, by decide⟩

theorem overclimbs_up : Overclimbs (depth + 1) (".." :: rest) ↔ Overclimbs depth rest := by
  rw [overclimbs_cons]
  refine exists_congr fun front => and_congr_right fun _ => ?_
  have higher : climbs (".." :: front) = climbs front + 1 := by simp [climbs]
  have level : descents (".." :: front) = descents front := by simp [descents]
  omega

theorem overclimbs_name {name : String} (dot : name ≠ ".") (dots : name ≠ "..") :
    Overclimbs depth (name :: rest) ↔ Overclimbs (depth + 1) rest := by
  rw [overclimbs_cons]
  refine exists_congr fun front => and_congr_right fun _ => ?_
  have level : climbs (name :: front) = climbs front := by simp [climbs, dots]
  have deeper : descents (name :: front) = descents front + 1 := by simp [descents, dot, dots]
  omega

end Overclimbing

/-- A walk fails where a name is to be taken from an empty stack: behind components that climb more often than there
are names, those on the stack included. -/
theorem walk_eq_none_iff {stack components : List String} :
    walk stack components = none ↔ Overclimbs stack.length components := by
  induction components generalizing stack with
  | nil => simp [not_overclimbs_nil]
  | cons component rest ih =>
    rw [walk_cons]
    by_cases dot : component = "."
    · subst dot
      rw [overclimbs_dot, ← ih]
      rfl
    by_cases dots : component = ".."
    · subst dots
      cases stack with
      -- Here the walk ends, and this component alone already climbs too far.
      | nil => exact iff_of_true rfl overclimbs_top
      | cons name below =>
        rw [List.length_cons, overclimbs_up, ← ih]
        rfl
    · rw [place_name dot dots, Option.bind_some, ih, List.length_cons, overclimbs_name dot dots]

theorem descents_of_ordinary {components : List String}
    (ordinary : ∀ component ∈ components, component ≠ "." ∧ component ≠ "..") :
    descents components = components.length :=
  List.countP_eq_length.2 fun component member => by simpa using ordinary component member

/-- Where a path goes with one more piece: nowhere, to its parent, or down to a name. -/
def advance (p : Path) (piece : String) : Path :=
  if isIdle piece then p else if piece = ".." then p.parent else p.join ⟨piece⟩

end Path

namespace Descent

def path (d : Descent) : Path := Location.path ⟨d.names⟩

structure Sound (d : Descent) : Prop where
  counted : d.depth = d.names.length
  proper : Location.Proper ⟨d.names⟩

variable {d e : Descent}

theorem sound_start : start.Sound := ⟨rfl, by simp [Location.Proper, start]⟩

namespace Sound

theorem components (sound : d.Sound) : d.path.components = d.names := Location.components_path sound.proper

theorem depth_eq (sound : d.Sound) : d.depth = Path.descents d.path.components := by
  have ordinary : ∀ name ∈ d.names, name ≠ "." ∧ name ≠ ".." :=
    fun name member => (sound.proper name member).ordinary.2
  rw [sound.components, Path.descents_of_ordinary ordinary, sound.counted]

theorem step (sound : d.Sound) {piece : String} (slashless : '/' ∉ piece.toList) (stepped : d.step piece = some e) :
    e.Sound :=
  ⟨depth_eq_of_step sound.counted stepped, proper_of_step slashless sound.proper stepped⟩

theorem climb (sound : d.Sound) (climbed : d.step ".." = some e) :
    ∃ name, d.names = e.names ++ [name] ∧ e.path = d.path.parent := by
  have deep : d.depth ≠ 0 := by
    intro top
    simp [Descent.step, Path.isIdle, top] at climbed
  have some_name : d.names ≠ [] := by
    intro nothing
    simp [sound.counted, nothing] at deep
  obtain ⟨above, name, ends⟩ := (List.eq_nil_or_concat' d.names).resolve_left some_name
  obtain rfl : ⟨above, d.depth - 1⟩ = e := by simpa [Descent.step, Path.isIdle, deep, ends] using climbed
  exact ⟨name, ends, (Location.parent_path sound.proper ends).symm⟩

theorem path_step (sound : d.Sound) {piece : String} (slashless : '/' ∉ piece.toList)
    (stepped : d.step piece = some e) : e.path = d.path.advance piece := by
  unfold Path.advance
  split
  · rename_i idle
    obtain rfl : d = e := by simpa [Descent.step, idle] using stepped
    rfl
  rename_i busy
  split
  · rename_i climbs
    obtain ⟨_, _, parent⟩ := sound.climb (climbs ▸ stepped)
    exact parent
  · rename_i level
    obtain rfl : ⟨d.names ++ [piece], d.depth + 1⟩ = e := by simpa [Descent.step, busy, level] using stepped
    exact (Location.join_path sound.proper slashless).symm

theorem follow (sound : d.Sound) {pieces : List String} (slashless : ∀ piece ∈ pieces, '/' ∉ piece.toList)
    (followed : d.follow pieces = some e) : e.Sound ∧ e.path = pieces.foldl Path.advance d.path := by
  induction pieces generalizing d with
  | nil =>
    obtain rfl : d = e := by simpa [Descent.follow] using followed
    exact ⟨sound, rfl⟩
  | cons piece rest ih =>
    obtain ⟨first, later⟩ := List.forall_mem_cons.1 slashless
    simp only [Descent.follow, List.foldlM_cons, Option.bind_eq_bind, Option.bind_eq_some_iff] at followed
    obtain ⟨next, stepped, followed⟩ := followed
    rw [List.foldl_cons, ← sound.path_step first stepped]
    exact ih (sound.step first stepped) later followed

end Sound

end Descent

namespace Path

variable {p q : Path} {l : Location}

theorem spelledLocation_eq_error_iff (absolute : p.isAbsolute = true) :
    (∃ fault, p.spelledLocation = .error fault) ↔ Overclimbs 0 p.components := by
  have unspelled : (∃ fault, p.spelledLocation = .error fault) ↔ ∀ l, p.spelledLocation ≠ .ok l := by
    cases p.spelledLocation <;> simp
  have climbing := @walk_eq_none_iff [] p.components
  rw [List.length_nil] at climbing
  rw [unspelled, ← climbing, Option.eq_none_iff_forall_ne_some]
  constructor
  · intro nowhere stack walked
    refine nowhere ⟨stack.reverse⟩ (spelledLocation_eq_ok_iff.2 ⟨absolute, ?_⟩)
    rw [walked, List.reverse_reverse]
  · intro nowhere l spelled
    exact nowhere _ (spelledLocation_eq_ok_iff.1 spelled).2

/-- A relative path leads from the path of a location to where it leads from any path that spells the location. -/
theorem spelledLocation_join_eq_ok_iff (spelled : p.spelledLocation = .ok l) (relative : q.isAbsolute = false)
    (m : Location) : (p.join q).spelledLocation = .ok m ↔ (l.path.join q).spelledLocation = .ok m := by
  obtain ⟨absolute, walked⟩ := spelledLocation_eq_ok_iff.1 spelled
  have proper := proper_of_spelledLocation spelled
  -- Both paths leave the same stack behind, and the components of the relative one go on from there.
  have again : walk [] l.path.components = some l.names.reverse := by
    rw [Location.components_path proper, walk_names fun name member => (proper name member).ordinary.2]
    simp
  rw [spelledLocation_eq_ok_iff, spelledLocation_eq_ok_iff, isAbsolute_join_of_relative absolute relative,
    isAbsolute_join_of_relative l.isAbsolute_path relative, components_join_of_relative p relative,
    components_join_of_relative l.path relative, walk_append, walk_append, walked, again]

/-- An absolute path has no location by its spelling exactly if first components of it climb more often than they go
down. Otherwise it can be replaced by the path of its location. -/
theorem spelledLocation_laws (p q : Path) (absolute : p.isAbsolute = true) (relative : q.isAbsolute = false) :
    ((∃ fault, p.spelledLocation = .error fault) ↔
      ∃ front, front <+: p.components ∧ descents front < climbs front) ∧
    (∀ l, p.spelledLocation = .ok l → l.path.isAbsolute = true ∧ (∀ name ∈ l.path.components, ProperName name) ∧
      l.path.spelledLocation = .ok l ∧
      (p.join q).spelledLocation.toOption = (l.path.join q).spelledLocation.toOption) ∧
    ∀ read d, read <+: p.pieces → Descent.start.follow read = some d →
      d.path = read.foldl advance ⟨"/"⟩ ∧ d.depth = descents d.path.components ∧
      ∀ e, d.step ".." = some e →
        ∃ name, ProperName name ∧ d.path.components = e.path.components ++ [name] := by
  refine ⟨?_, fun l spelled => ?_, fun read d start followed => ?_⟩
  · simpa [Overclimbs] using spelledLocation_eq_error_iff absolute
  · have proper := proper_of_spelledLocation spelled
    refine ⟨l.isAbsolute_path, ?_, Location.spelledLocation_path proper, ?_⟩
    · rw [Location.components_path proper]
      exact proper
    · have same := spelledLocation_join_eq_ok_iff spelled relative
      generalize (p.join q).spelledLocation = whole at same ⊢
      generalize (l.path.join q).spelledLocation = normal at same ⊢
      cases whole <;> cases normal <;> simp_all [Except.toOption]
  · have slashless : ∀ piece ∈ read, '/' ∉ piece.toList :=
      fun piece member => slashless_of_mem_pieces (start.subset member)
    obtain ⟨sound, built⟩ := Descent.sound_start.follow slashless followed
    refine ⟨built, sound.depth_eq, fun e climbed => ?_⟩
    obtain ⟨name, ends, _⟩ := sound.climb climbed
    have below := sound.step (by decide) climbed
    rw [sound.components, below.components]
    exact ⟨name, sound.proper name (by simp [ends]), ends⟩

/-- The path comes down to two names, and what is put behind it climbs over both and once more. -/
theorem spelledLocation_laws_sample :
    isAbsolute ⟨"//a/./../b/c/"⟩ = true ∧ isAbsolute ⟨"../.././../d"⟩ = false ∧
    spelledLocation ⟨"//a/./../b/c/"⟩ = .ok ⟨["b", "c"]⟩ ∧
    (join ⟨"//a/./../b/c/"⟩ ⟨"../.././../d"⟩).spelledLocation.toOption =
      (join (Location.path ⟨["b", "c"]⟩) ⟨"../.././../d"⟩).spelledLocation.toOption := by
  have spelled : spelledLocation ⟨"//a/./../b/c/"⟩ = .ok ⟨["b", "c"]⟩ := by decide +kernel
  obtain ⟨_, normal, _⟩ := spelledLocation_laws ⟨"//a/./../b/c/"⟩ ⟨"../.././../d"⟩ (by decide) (by decide)
  obtain ⟨_, _, _, joined⟩ := normal _ spelled
  exact ⟨by decide, by decide, spelled, joined⟩

end Path

end WorkflowEngine
