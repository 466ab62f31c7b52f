import WorkflowEngine.Text.Blank
import Mathlib.Data.List.DropRight

/-! What trimming leaves.

A trimmed text stands in the one it was made from, with no blank at either end. A text is left as it is exactly if
it has none there.
-/

set_option autoImplicit false

namespace WorkflowEngine.Text

structure Trimmed (cs : List Char) : Prop where
  first : ∀ c ∈ cs.head?, isBlank c = false
  last : ∀ c ∈ cs.getLast?, isBlank c = false

variable {cs : List Char}

theorem trimEnd_eq_rdropWhile (cs : List Char) : trimEnd cs = cs.rdropWhile isBlank := rfl

theorem trimChars_isPrefix (cs : List Char) : trimChars cs <+: trimStart cs := by
  rw [trimChars, trimEnd_eq_rdropWhile]
  exact List.rdropWhile_prefix _ _

theorem trimChars_isInfix (cs : List Char) : trimChars cs <:+: cs :=
  (trimChars_isPrefix cs).isInfix.trans (List.dropWhile_suffix _).isInfix

theorem trimmed_trimChars (cs : List Char) : Trimmed (trimChars cs) := by
  constructor
  · intro c first
    have kept : (trimStart cs).head? = some c := by
      obtain ⟨behind, whole⟩ := trimChars_isPrefix cs
      rw [← whole, List.head?_append, first]
      rfl
    have dropped := List.head?_dropWhile_not isBlank cs
    rw [trimStart] at kept
    rwa [kept] at dropped
  · intro c last
    have written : (trimStart cs).rdropWhile isBlank ≠ [] := by
      intro nothing
      rw [trimChars, trimEnd_eq_rdropWhile, nothing] at last
      cases last
    have dropped := List.rdropWhile_last_not isBlank (trimStart cs) written
    obtain rfl : _ = c := Option.some.inj ((List.getLast?_eq_some_getLast written).symm.trans last)
    simpa using dropped

theorem trimChars_eq_self_iff : trimChars cs = cs ↔ Trimmed cs := by
  constructor
  · intro same
    rw [← same]
    exact trimmed_trimChars cs
  · rintro ⟨first, last⟩
    have atStart : trimStart cs = cs := by
      cases cs with
      | nil => rfl
      | cons c rest => simp [trimStart, first c rfl]
    rw [trimChars, atStart, trimEnd_eq_rdropWhile, List.rdropWhile_eq_self_iff]
    intro written
    simpa using last _ (List.getLast?_eq_some_getLast written)

theorem trimChars_eq_nil_iff : trimChars cs = [] ↔ ∀ c ∈ cs, isBlank c = true := by
  have ends : trimChars cs = [] ↔ ∀ c ∈ trimStart cs, isBlank c = true := by
    rw [trimChars, trimEnd_eq_rdropWhile, List.rdropWhile_eq_nil_iff]
  rw [ends]
  constructor
  · intro blank
    -- What is left after the blanks at the start does not begin with one.
    cases left : trimStart cs with
    | nil => exact List.dropWhile_eq_nil_iff.1 left
    | cons c rest =>
      have visible := List.head?_dropWhile_not isBlank cs
      rw [← trimStart, left] at visible
      simp [blank c (by simp [left])] at visible
  · intro blank c member
    exact blank c ((List.dropWhile_suffix _).mem member)

theorem isEmpty_toList_trim (s : String) : (trim s).toList.isEmpty = isBlankText s := by
  rw [Bool.eq_iff_iff, List.isEmpty_iff, toList_trim, trimChars_eq_nil_iff, isBlankText, List.all_eq_true]

end WorkflowEngine.Text
