import Mathlib.Data.List.Chain
import Mathlib.Data.List.Forall2

/-! Lists and results.

What the parts of a list or of a computation that may fail say about the whole, whatever these are about.
-/

set_option autoImplicit false

namespace WorkflowEngine

theorem exists_of_map_eq_ok {ε α β : Type} {x : Except ε α} {f : α → β} {b : β}
    (mapped : x.map f = .ok b) : ∃ a, x = .ok a ∧ f a = b := by
  cases x with
  | error e => cases mapped
  | ok a => exact ⟨a, rfl, Except.ok.inj mapped⟩

theorem exists_of_bind_eq_ok {ε α β : Type} {x : Except ε α} {f : α → Except ε β} {b : β}
    (made : x >>= f = .ok b) : ∃ a, x = .ok a ∧ f a = .ok b := by
  cases x with
  | error e => cases made
  | ok a => exact ⟨a, rfl, made⟩

theorem toOption_eq_some_iff {ε α : Type} {x : Except ε α} {a : α} : x.toOption = some a ↔ x = .ok a := by
  cases x <;> simp [Except.toOption]

theorem exists_of_append_eq {α : Type} {first second front behind : List α} {a : α}
    (same : first ++ second = front ++ a :: behind) :
    (∃ between, first = front ++ a :: between ∧ behind = between ++ second) ∨
      ∃ between, front = first ++ between ∧ second = between ++ a :: behind := by
  rcases List.append_eq_append_iff.1 same with ⟨between, rfl, later⟩ | ⟨between, rfl, later⟩
  · exact .inr ⟨between, rfl, later⟩
  · cases between with
    | nil => exact .inr ⟨[], by simp, later.symm⟩
    | cons other between =>
      obtain ⟨rfl, rfl⟩ := List.cons.inj later
      exact .inl ⟨between, rfl, rfl⟩

theorem exists_of_forall₂ {α β : Type} {related : α → β → Prop} {first : List α} {second : List β}
    (paired : List.Forall₂ related first second) :
    (∀ a ∈ first, ∃ b ∈ second, related a b) ∧ ∀ b ∈ second, ∃ a ∈ first, related a b := by
  induction paired with
  | nil => simp
  | cons fits _ ih =>
    simp only [List.exists_mem_cons_iff, List.forall_mem_cons]
    exact ⟨⟨.inl fits, fun a member => .inr (ih.1 a member)⟩,
      ⟨.inl fits, fun b member => .inr (ih.2 b member)⟩⟩

theorem exists_rel_of_isChain {α : Type} {related : α → α → Prop} {first : α} {later : List α}
    (linked : (first :: later).IsChain related) : ∀ a ∈ later, ∃ b, related b a := by
  induction later generalizing first with
  | nil => simp
  | cons second rest ih =>
    obtain ⟨next, linked⟩ := List.isChain_cons_cons.1 linked
    intro a member
    rcases List.mem_cons.1 member with rfl | member
    · exact ⟨first, next⟩
    · exact ih linked a member

theorem getLast?_append_toList {α : Type} (items : List α) (last : Option α) :
    (items ++ last.toList).getLast? = last.or items.getLast? := by
  cases last <;> simp

end WorkflowEngine
