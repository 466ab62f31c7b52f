import WorkflowEngine.Discovery
import WorkflowEngine.Proofs.Location.Spelling

/-! Paths in order.

Paths are compared by what they go by, one after the other: the top comes before the place where a path starts, then
come directories above, then names. A name put behind a path is one more thing that it goes by, so paths below one
directory are in the order of the names that lead to them.
-/

set_option autoImplicit false

namespace WorkflowEngine

/-- What a path goes by. -/
inductive Waypoint where
  | top
  | here
  | above
  | name (text : String)
  deriving DecidableEq

namespace Waypoint

def rank : Waypoint → Nat
  | top => 0
  | here => 1
  | above => 2
  | name _ => 3

def text : Waypoint → String
  | name text => text
  | _ => ""

def ofPiece (piece : String) : Waypoint := if piece = ".." then .above else .name piece

def before (a b : Waypoint) : Bool :=
  decide (a.rank < b.rank) || (decide (a.rank = b.rank) && KeyOrder.before a.text b.text)

theorem before_iff {a b : Waypoint} :
    a.before b = true ↔ a.rank < b.rank ∨ a.rank = b.rank ∧ KeyOrder.before a.text b.text = true := by
  simp [before]

theorem before_self (a : Waypoint) : a.before a = false := by
  simp [before, KeyOrder.irreflexive]

theorem before_trans (a b c : Waypoint) (h₁ : a.before b = true) (h₂ : b.before c = true) : a.before c = true := by
  rw [before_iff] at *
  rcases h₁ with h₁ | ⟨same₁, h₁⟩
  · exact .inl (by omega)
  rcases h₂ with h₂ | ⟨same₂, h₂⟩
  · exact .inl (by omega)
  · exact .inr ⟨same₁.trans same₂, KeyOrder.transitive _ _ _ h₁ h₂⟩

theorem before_total (a b : Waypoint) (h₁ : a.before b = false) (h₂ : b.before a = false) : a = b := by
  simp only [before, Bool.or_eq_false_iff, Bool.and_eq_false_iff, decide_eq_false_iff_not] at h₁ h₂
  obtain ⟨low₁, text₁⟩ := h₁
  obtain ⟨low₂, text₂⟩ := h₂
  have same : a.rank = b.rank := by omega
  have texts : a.text = b.text :=
    KeyOrder.total _ _ (text₁.resolve_left (not_not_intro same)) (text₂.resolve_left (not_not_intro same.symm))
  cases a <;> cases b <;> simp_all [rank, text]

instance : KeyOrder Waypoint where
  before := before
  irreflexive := before_self
  transitive := before_trans
  total := before_total

end Waypoint

namespace Path

/-- What a path goes by. A dot counts only in front. -/
def waypoints (p : Path) : List Waypoint :=
  (if p.isAbsolute then [.top] else if p.pieces.head? = some "." then [.here] else []) ++
    (p.pieces.filter fun piece => !isIdle piece).map Waypoint.ofPiece

def Before (p q : Path) : Prop := KeyOrder.before p.waypoints q.waypoints = true

theorem Before.ne {p q : Path} (before : p.Before q) : p ≠ q :=
  fun same => KeyOrder.ne_of_before before (congrArg waypoints same)

variable {p : Path} {name : String}

section Name

theorem pieces_of_slashless (slashless : '/' ∉ name.toList) : pieces ⟨name⟩ = [name] := by
  simp [pieces, Text.pieces_of_forall (isSlash_eq_false_of_slashless slashless)]

/-- A name put behind a path is a piece behind those of the path, or in the place of an empty last one. -/
theorem exists_pieces_join (p : Path) (slashless : '/' ∉ name.toList) :
    ∃ front, (p.pieces = front ∨ p.pieces = front ++ [""]) ∧ (p.join ⟨name⟩).pieces = front ++ [name] := by
  have slashes : isSlash '/' = true := rfl
  have last : (name.toList.splitOnP isSlash).map String.ofList = [name] := by
    rw [← Text.pieces_eq_splitOnP]
    exact pieces_of_slashless slashless
  rw [join, isAbsolute_of_slashless slashless]
  -- A slash is put in between, unless one is there or nothing comes before it.
  cases empty : p.isEmpty with
  | true =>
    have nothing : p.text = "" := by simpa [isEmpty] using empty
    refine ⟨[], .inr ?_, ?_⟩
    · simp [pieces, nothing, Text.pieces]
    · simpa [pieces, nothing] using pieces_of_slashless slashless
  | false =>
    cases slash : p.endsWithSlash with
    | true =>
      obtain ⟨front, ends⟩ := exists_of_endsWithSlash slash
      refine ⟨(front.splitOnP isSlash).map String.ofList, .inr ?_, ?_⟩
      · simp [pieces, ends, Text.pieces_eq_splitOnP, List.splitOnP_append_cons _ _ slashes]
      · simp [pieces, ends, Text.pieces_eq_splitOnP, List.splitOnP_append_cons _ _ slashes, last]
    | false =>
      refine ⟨p.pieces, .inl rfl, ?_⟩
      simp [pieces, Text.pieces_eq_splitOnP, List.splitOnP_append_cons _ _ slashes, last]

theorem isAbsolute_join_eq (p : Path) (slashless : '/' ∉ name.toList) :
    (p.join ⟨name⟩).isAbsolute = p.isAbsolute := by
  have relative := isAbsolute_of_slashless slashless
  cases text : p.text.toList with
  | nil =>
    have nothing : p.text = "" := by simpa using text
    have same : p.join ⟨name⟩ = ⟨name⟩ := by simp [join, relative, isEmpty, nothing]
    rw [same, relative]
    simp [isAbsolute, text]
  | cons c rest =>
    have starts : ∃ more, (p.join ⟨name⟩).text.toList = c :: more := by
      rw [join, relative]
      cases p.isEmpty || p.endsWithSlash <;> simp [text]
    obtain ⟨more, starts⟩ := starts
    simp [isAbsolute, text, starts]

variable (proper : ProperName name)

include proper

theorem busy_pieces_join (p : Path) : ((p.join ⟨name⟩).pieces.filter fun piece => !isIdle piece) =
    (p.pieces.filter fun piece => !isIdle piece) ++ [name] := by
  obtain ⟨front, before, behind⟩ := exists_pieces_join p proper.slashless
  rw [behind, List.filter_append]
  have kept : [name].filter (fun piece => !isIdle piece) = [name] := by simp [proper.busy]
  rw [kept]
  rcases before with before | before <;> simp [before, isIdle]

theorem fileName?_join (p : Path) : (p.join ⟨name⟩).fileName? = some name := by
  unfold fileName?
  rw [busy_pieces_join proper, List.getLast?_concat]
  split
  · rename_i climbs
    exact absurd (Option.some.inj climbs) proper.level
  · rfl

theorem waypoints_join (p : Path) : (p.join ⟨name⟩).waypoints = p.waypoints ++ [.name name] := by
  have first : (p.join ⟨name⟩).pieces.head? = some "." ↔ p.pieces.head? = some "." := by
    obtain ⟨front, before, behind⟩ := exists_pieces_join p proper.slashless
    have dot := proper.ordinary.2.1
    rcases before with before | before <;> cases front <;> simp_all
  have ofName : Waypoint.ofPiece name = .name name := if_neg proper.level
  simp [waypoints, isAbsolute_join_eq p proper.slashless, busy_pieces_join proper, first, ofName]

end Name

end Path

namespace KeyOrder

variable {κ : Type} [KeyOrder κ]

theorem before_append (front as bs : List κ) : before (front ++ as) (front ++ bs) = before as bs := by
  induction front with
  | nil => rfl
  | cons a front ih =>
    rw [← ih]
    simp [before, beforeList, irreflexive]

theorem before_map_name (names others : List String) :
    before (names.map Waypoint.name) (others.map Waypoint.name) = before names others := by
  have single : ∀ name other : String, before (Waypoint.name name) (.name other) = before name other :=
    fun name other => by simp [before, Waypoint.before, Waypoint.rank, Waypoint.text]
  induction names generalizing others with
  | nil => cases others <;> rfl
  | cons name rest ih =>
    cases others with
    | nil => rfl
    | cons other behind =>
      have tails : beforeList (rest.map Waypoint.name) (behind.map Waypoint.name) = beforeList rest behind := ih behind
      simp only [before, List.map_cons, beforeList, tails] at single ⊢
      simp only [single]

end KeyOrder

namespace FileSystem

variable {names others : List String}

theorem below_append (root : Path) (names : List String) (name : String) :
    below root (names ++ [name]) = (below root names).join ⟨name⟩ := by
  simp [below]

theorem waypoints_below (root : Path) (proper : ∀ name ∈ names, ProperName name) :
    (below root names).waypoints = root.waypoints ++ names.map .name := by
  induction names using List.reverseRecOn with
  | nil => simp [below]
  | append_singleton front name ih =>
    obtain ⟨first, last⟩ := List.forall_mem_append.1 proper
    rw [below_append, Path.waypoints_join (last name (by simp)), ih first]
    simp

/-- Paths below a directory are in the order of their names. -/
theorem before_below_iff (root : Path) (proper : ∀ name ∈ names, ProperName name)
    (properOthers : ∀ name ∈ others, ProperName name) :
    (below root names).Before (below root others) ↔ KeyOrder.before names others = true := by
  rw [Path.Before, waypoints_below root proper, waypoints_below root properOthers, KeyOrder.before_append,
    KeyOrder.before_map_name]

end FileSystem

end WorkflowEngine
