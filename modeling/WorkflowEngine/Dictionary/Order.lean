/-! Strict orders on keys.

A key order is a Boolean test with the laws of a strict linear order. Characters are ordered by code
point, lists and texts lexicographically.
-/

set_option autoImplicit false

namespace WorkflowEngine

/-- A strict linear order, as a test. -/
class KeyOrder (κ : Type) where
  before : κ → κ → Bool
  irreflexive : ∀ a, before a a = false
  transitive : ∀ a b c, before a b = true → before b c = true → before a c = true
  total : ∀ a b, before a b = false → before b a = false → a = b

namespace KeyOrder

variable {κ : Type} [KeyOrder κ]

theorem ne_of_before {a b : κ} (h : before a b = true) : a ≠ b := by
  rintro rfl
  simp [irreflexive] at h

/-- Lists are compared at the first place where they differ; a list comes before its extensions. -/
def beforeList : List κ → List κ → Bool
  | _, [] => false
  | [], _ :: _ => true
  | a :: as, b :: bs => before a b || (!before b a && beforeList as bs)

theorem beforeList_self (as : List κ) : beforeList as as = false := by
  induction as with
  | nil => rfl
  | cons a as ih => simp [beforeList, irreflexive, ih]

theorem beforeList_cons {a b : κ} {as bs : List κ} :
    beforeList (a :: as) (b :: bs) = true ↔ before a b = true ∨ a = b ∧ beforeList as bs = true := by
  simp only [beforeList, Bool.or_eq_true, Bool.and_eq_true, Bool.not_eq_true']
  constructor
  · rintro (h | ⟨h, rest⟩)
    · exact .inl h
    · cases same : before a b with
      | true => exact .inl rfl
      | false => exact .inr ⟨total a b same h, rest⟩
  · rintro (h | ⟨rfl, rest⟩)
    · exact .inl h
    · exact .inr ⟨irreflexive a, rest⟩

theorem beforeList_trans (as bs cs : List κ) (h₁ : beforeList as bs = true)
    (h₂ : beforeList bs cs = true) : beforeList as cs = true := by
  induction as generalizing bs cs with
  | nil =>
    cases cs with
    | nil => cases bs <;> simp [beforeList] at h₂
    | cons c cs => rfl
  | cons a as ih =>
    cases bs with
    | nil => simp [beforeList] at h₁
    | cons b bs =>
      cases cs with
      | nil => simp [beforeList] at h₂
      | cons c cs =>
        rw [beforeList_cons] at h₁ h₂ ⊢
        rcases h₁ with h₁ | ⟨rfl, h₁⟩
        · rcases h₂ with h₂ | ⟨rfl, _⟩
          · exact .inl (transitive a b c h₁ h₂)
          · exact .inl h₁
        · rcases h₂ with h₂ | ⟨rfl, h₂⟩
          · exact .inl h₂
          · exact .inr ⟨rfl, ih bs cs h₁ h₂⟩

theorem beforeList_total (as bs : List κ) (h₁ : beforeList as bs = false)
    (h₂ : beforeList bs as = false) : as = bs := by
  induction as generalizing bs with
  | nil =>
    cases bs with
    | nil => rfl
    | cons b bs => simp [beforeList] at h₁
  | cons a as ih =>
    cases bs with
    | nil => simp [beforeList] at h₂
    | cons b bs =>
      simp only [beforeList, Bool.or_eq_false_iff, Bool.and_eq_false_iff, Bool.not_eq_false'] at h₁ h₂
      obtain ⟨ab, rest₁⟩ := h₁
      obtain ⟨ba, rest₂⟩ := h₂
      have same := total a b ab ba
      have tails : as = bs := ih bs (by simpa [ba] using rest₁) (by simpa [ab] using rest₂)
      rw [same, tails]

instance : KeyOrder Char where
  before a b := decide (a.toNat < b.toNat)
  irreflexive a := by simp
  transitive a b c h₁ h₂ := by
    simp only [decide_eq_true_eq] at *
    omega
  total a b h₁ h₂ := by
    simp only [decide_eq_false_iff_not] at h₁ h₂
    exact Char.toNat_inj.1 (by omega)

instance : KeyOrder (List κ) where
  before := beforeList
  irreflexive := beforeList_self
  transitive := beforeList_trans
  total := beforeList_total

instance : KeyOrder String where
  before a b := beforeList a.toList b.toList
  irreflexive a := beforeList_self a.toList
  transitive a b c := beforeList_trans a.toList b.toList c.toList
  total a b h₁ h₂ := String.toList_inj.1 (beforeList_total a.toList b.toList h₁ h₂)

end KeyOrder

end WorkflowEngine
