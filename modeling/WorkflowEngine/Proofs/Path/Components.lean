import WorkflowEngine.Proofs.Location.Proper
import Mathlib.Data.List.Basic

/-! Components of paths.

The components of a path are what stands between its slashes. They are taken one after the other on a stack
of names: a dot stays, two dots take the last name away, and anything else is put on the stack. An absolute
path spells the location that is left on the stack, and none if a name is taken away where there is none.
-/

set_option autoImplicit false

namespace WorkflowEngine

namespace Text

theorem extendFirst_eq_modifyHead {α : Type} (c : α) {parts : List (List α)} (some_part : parts ≠ []) :
    extendFirst c parts = parts.modifyHead (List.cons c) := by
  cases parts with
  | nil => contradiction
  | cons first rest => rfl

theorem pieces_eq_splitOnP {α : Type} (cut : α → Bool) (cs : List α) : pieces cut cs = cs.splitOnP cut := by
  induction cs with
  | nil => rw [pieces, List.splitOnP_nil]
  | cons c rest ih =>
    rw [pieces, List.splitOnP_cons_eq_if_modifyHead, ih,
      extendFirst_eq_modifyHead c (List.splitOnP_ne_nil cut rest)]

/-- What stands between the characters where a test holds, without the empty parts. -/
def parts (cut : Char → Bool) (cs : List Char) : List String :=
  ((cs.splitOnP cut).filter fun part => !part.isEmpty).map String.ofList

theorem parts_append_cons {cut : Char → Bool} {c : Char} (cuts : cut c = true) (first rest : List Char) :
    parts cut (first ++ c :: rest) = parts cut first ++ parts cut rest := by
  rw [parts, List.splitOnP_append_cons first rest cuts, List.filter_append, List.map_append, parts, parts]

@[simp]
theorem parts_nil (cut : Char → Bool) : parts cut [] = [] := by
  simp [parts]

theorem parts_of_forall {cut : Char → Bool} {name : String} (whole : ∀ c ∈ name.toList, cut c = false)
    (named : name ≠ "") : parts cut name.toList = [name] := by
  have text : name.toList ≠ [] := by simpa using named
  rw [parts, ← pieces_eq_splitOnP, pieces_of_forall whole]
  simp [text]

theorem whole_of_mem_parts {cut : Char → Bool} {cs : List Char} {part : String}
    (member : part ∈ parts cut cs) : part ≠ "" ∧ ∀ c ∈ part.toList, cut c = false := by
  obtain ⟨piece, inside, rfl⟩ := List.mem_map.1 member
  obtain ⟨piece_of, written⟩ := List.mem_filter.1 inside
  rw [← pieces_eq_splitOnP] at piece_of
  refine ⟨by simpa using written, fun c inner => ?_⟩
  rw [String.toList_ofList] at inner
  exact cut_eq_false_of_mem_pieces piece_of inner

end Text

namespace Path

def components (p : Path) : List String := Text.parts isSlash p.text.toList

theorem components_eq_filter_pieces (p : Path) :
    p.components = p.pieces.filter fun piece => piece ≠ "" := by
  rw [components, Text.parts, ← Text.pieces_eq_splitOnP, pieces, List.filter_map]
  congr 2
  funext piece
  cases piece <;> simp

/-- Take a component on a stack of names, whose last one is in front. -/
def place (stack : List String) (component : String) : Option (List String) :=
  if component = "." then some stack
  else if component = ".." then
    match stack with
    | [] => none
    | _ :: below => some below
  else some (component :: stack)

def walk (stack components : List String) : Option (List String) := components.foldlM place stack

@[simp]
theorem walk_nil (stack : List String) : walk stack [] = some stack := rfl

@[simp]
theorem walk_cons (stack : List String) (component : String) (rest : List String) :
    walk stack (component :: rest) = (place stack component).bind fun next => walk next rest := by
  simp [walk, List.foldlM_cons]

theorem walk_append (stack first rest : List String) :
    walk stack (first ++ rest) = (walk stack first).bind fun between => walk between rest := by
  simp [walk, List.foldlM_append]

theorem place_name {name : String} (dot : name ≠ ".") (dots : name ≠ "..") (stack : List String) :
    place stack name = some (name :: stack) := by
  simp [place, dot, dots]

theorem walk_names {names : List String} (ordinary : ∀ name ∈ names, name ≠ "." ∧ name ≠ "..")
    (stack : List String) : walk stack names = some (names.reverse ++ stack) := by
  induction names generalizing stack with
  | nil => rfl
  | cons name rest ih =>
    obtain ⟨⟨dot, dots⟩, others⟩ := List.forall_mem_cons.1 ordinary
    rw [walk_cons, place_name dot dots, Option.bind_some, ih others]
    simp

theorem exists_of_walk {stack components out : List String} (walked : walk stack components = some out) :
    ∃ pushed kept, out = pushed ++ kept ∧ kept <:+ stack ∧ pushed.reverse.Sublist components := by
  induction components generalizing stack with
  | nil =>
    obtain rfl : stack = out := Option.some.inj walked
    exact ⟨[], stack, rfl, List.suffix_rfl, List.nil_sublist _⟩
  | cons component rest ih =>
    rw [walk_cons] at walked
    obtain ⟨next, placed, walked⟩ := Option.bind_eq_some_iff.1 walked
    obtain ⟨pushed, kept, rfl, below, inside⟩ := ih walked
    unfold place at placed
    split at placed
    · cases placed
      exact ⟨pushed, kept, rfl, below, inside.cons component⟩
    split at placed
    · split at placed
      · cases placed
      · cases placed
        exact ⟨pushed, kept, rfl, below.trans (List.suffix_cons _ _), inside.cons component⟩
    · cases placed
      -- The name that was pushed has stayed, or was taken off again.
      rcases List.suffix_cons_iff.1 below with rfl | below
      · refine ⟨pushed ++ [component], stack, by simp, List.suffix_rfl, ?_⟩
        rw [List.reverse_concat]
        exact inside.cons_cons component
      · exact ⟨pushed, kept, rfl, below, inside.cons component⟩

theorem sublist_of_walk {stack components outer names : List String}
    (walked : walk stack components = some (outer ++ names).reverse) (deep : stack.length ≤ outer.length) :
    names.Sublist components := by
  obtain ⟨pushed, kept, whole, below, inside⟩ := exists_of_walk walked
  rw [List.reverse_append] at whole
  have short := below.length_le
  have lengths := congrArg List.length whole
  simp only [List.length_append, List.length_reverse] at lengths
  have front : names.reverse <+: pushed := by
    refine List.prefix_of_prefix_length_le (List.prefix_append _ _) (whole ▸ List.prefix_append pushed kept) ?_
    rw [List.length_reverse]
    omega
  have back : names <:+ pushed.reverse := by simpa using List.reverse_suffix.2 front
  exact back.sublist.trans inside

end Path

/-- A descent that counts its names keeps them as a walk keeps its stack. -/
theorem Descent.follow_eq_walk {d : Descent} (exact : d.depth = d.names.length) (pieces : List String) :
    (d.follow pieces).map Descent.names =
      (Path.walk d.names.reverse (pieces.filter fun piece => piece ≠ "")).map List.reverse := by
  induction pieces generalizing d with
  | nil => simp [follow]
  | cons piece rest ih =>
    have taken : d.follow (piece :: rest) = (d.step piece).bind fun next => next.follow rest := by
      simp [follow, List.foldlM_cons]
    rw [taken]
    cases stepped : d.step piece with
    | none =>
      -- Only two dots with no name left are refused.
      unfold step at stepped
      split at stepped
      · cases stepped
      split at stepped
      · rename_i climbs
        split at stepped
        · rename_i empty
          obtain nothing : d.names = [] := List.length_eq_zero_iff.1 (exact ▸ empty)
          simp [climbs, nothing, Path.place]
        · cases stepped
      · cases stepped
    | some next =>
      rw [Option.bind_some, ih (depth_eq_of_step exact stepped)]
      unfold step at stepped
      split at stepped
      · rename_i idle
        cases stepped
        have blank : piece = "" ∨ piece = "." := by simpa [Path.isIdle] using idle
        rcases blank with rfl | rfl <;> simp [Path.place]
      rename_i busy
      have named : ¬(piece = "" ∨ piece = ".") := by simpa [Path.isIdle] using busy
      obtain ⟨written, dot⟩ := not_or.1 named
      split at stepped
      · rename_i climbs
        split at stepped
        · cases stepped
        · rename_i deep
          cases stepped
          subst climbs
          rcases List.eq_nil_or_concat' d.names with nothing | ⟨above, last, split⟩
          · simp [exact, nothing] at deep
          · simp [Path.place, split]
      · rename_i level
        cases stepped
        simp [Path.place, written, dot, level]

namespace Path

variable {p : Path}

theorem spelledLocation_eq_ok_iff {l : Location} :
    p.spelledLocation = .ok l ↔ p.isAbsolute = true ∧ walk [] p.components = some l.names.reverse := by
  have followed := Descent.follow_eq_walk (d := .start) rfl p.pieces
  rw [← components_eq_filter_pieces] at followed
  unfold spelledLocation
  split
  · rename_i absolute
    rw [and_iff_right absolute]
    cases walked : walk [] p.components with
    | none =>
      have failed : Descent.start.follow p.pieces = none := by
        simpa [Descent.start, walked] using followed
      simp [failed]
    | some stack =>
      have left : (Descent.start.follow p.pieces).map Descent.names = some stack.reverse := by
        simpa [Descent.start, walked] using followed
      obtain ⟨d, found, names⟩ := Option.map_eq_some_iff.1 left
      rw [found]
      dsimp only
      constructor
      · intro same
        cases same
        simp [names]
      · intro same
        refine congrArg Except.ok (Location.ext_names ?_)
        rw [names, Option.some.inj same, List.reverse_reverse]
  · rename_i relative
    simp [relative]

theorem isAbsolute_iff : p.isAbsolute = true ↔ ∃ rest, p.text.toList = '/' :: rest := by
  unfold isAbsolute
  cases p.text.toList with
  | nil => simp
  | cons c rest => simp [isSlash]

theorem isAbsolute_of_slashless {name : String} (slashless : '/' ∉ name.toList) :
    isAbsolute ⟨name⟩ = false := by
  by_contra slash
  obtain ⟨rest, same⟩ := isAbsolute_iff.1 (by simpa using slash)
  exact slashless (by simp only at same; simp [same])

theorem parts_of_slashless {name : String} (slashless : '/' ∉ name.toList) (named : name ≠ "") :
    Text.parts isSlash name.toList = [name] :=
  Text.parts_of_forall (isSlash_eq_false_of_slashless slashless) named

theorem exists_of_endsWithSlash (slash : p.endsWithSlash = true) : ∃ front, p.text.toList = front ++ ['/'] := by
  unfold endsWithSlash at slash
  rcases List.eq_nil_or_concat' p.text.toList with nothing | ⟨front, c, ends⟩
  · simp [nothing] at slash
  · rw [ends] at slash ⊢
    refine ⟨front, ?_⟩
    rw [List.getLast?_concat] at slash
    simpa [isSlash] using slash

theorem isAbsolute_join_of_relative (absolute : p.isAbsolute = true) {q : Path} (relative : q.isAbsolute = false) :
    (p.join q).isAbsolute = true := by
  obtain ⟨below, text⟩ := isAbsolute_iff.1 absolute
  rw [join, relative, isAbsolute_iff]
  cases p.isEmpty || p.endsWithSlash <;> simp [text]

theorem components_join_of_relative (p : Path) {q : Path} (relative : q.isAbsolute = false) :
    (p.join q).components = p.components ++ q.components := by
  have slashes : isSlash '/' = true := rfl
  rw [join, relative]
  cases empty : p.isEmpty with
  | true =>
    have nothing : p.text = "" := by simpa [isEmpty] using empty
    simp [components, nothing]
  | false =>
    cases slash : p.endsWithSlash with
    | true =>
      -- The slash is there: what stands before it are the components of the path.
      obtain ⟨front, ends⟩ := exists_of_endsWithSlash slash
      simp [components, ends, Text.parts_append_cons slashes]
    | false => simp [components, Text.parts_append_cons slashes]

theorem isAbsolute_join (absolute : p.isAbsolute = true) {name : String} (slashless : '/' ∉ name.toList) :
    (p.join ⟨name⟩).isAbsolute = true :=
  isAbsolute_join_of_relative absolute (isAbsolute_of_slashless slashless)

theorem components_join (p : Path) {name : String} (slashless : '/' ∉ name.toList) (named : name ≠ "") :
    (p.join ⟨name⟩).components = p.components ++ [name] := by
  rw [components_join_of_relative p (isAbsolute_of_slashless slashless)]
  exact congrArg (p.components ++ ·) (parts_of_slashless slashless named)

end Path

theorem Resolver.extend_names {base : Path} (absolute : base.isAbsolute = true) {names : List String}
    (slashless : ∀ name ∈ names, '/' ∉ name.toList ∧ name ≠ "") :
    (extend base names).isAbsolute = true ∧ (extend base names).components = base.components ++ names := by
  induction names generalizing base with
  | nil => simpa [extend] using absolute
  | cons name rest ih =>
    obtain ⟨⟨free, named⟩, others⟩ := List.forall_mem_cons.1 slashless
    obtain ⟨below, all⟩ := ih (Path.isAbsolute_join absolute free) others
    refine ⟨below, ?_⟩
    rw [Path.components_join base free named, List.append_assoc] at all
    exact all

theorem ProperName.ordinary {name : String} (proper : ProperName name) :
    name ≠ "" ∧ name ≠ "." ∧ name ≠ ".." := by
  have busy := proper.busy
  refine ⟨?_, ?_, proper.level⟩
  · rintro rfl
    simp [Path.isIdle] at busy
  · rintro rfl
    simp [Path.isIdle] at busy

theorem Location.components_path {l : Location} (proper : l.Proper) : l.path.components = l.names := by
  rw [Path.components_eq_filter_pieces]
  by_cases below : l.names = []
  · obtain rfl : l = .top := Location.ext_names below
    decide
  · rw [Location.pieces_path proper below]
    have written : ∀ name ∈ l.names, name ≠ "" := fun name member => (proper name member).ordinary.1
    rw [List.filter_cons_of_neg (by simp), List.filter_eq_self.2 (by simpa using written)]

theorem Location.spelledLocation_path {l : Location} (proper : l.Proper) :
    l.path.spelledLocation = .ok l := by
  rw [Path.spelledLocation_eq_ok_iff, Location.components_path proper]
  refine ⟨l.isAbsolute_path, ?_⟩
  rw [Path.walk_names fun name member => (proper name member).ordinary.2, List.append_nil]

end WorkflowEngine
