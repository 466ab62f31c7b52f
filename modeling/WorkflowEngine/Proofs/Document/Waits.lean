import WorkflowEngine.Document.Reading
import WorkflowEngine.Number.Duration
import WorkflowEngine.Proofs.ListsAndResults

/-! The waits of documents that were read.

A wait is let through if it is a finite number from zero to an hour; a zero may have either sign. Such a
number of seconds is always a duration, so what a step that was read asks for can be done.
-/

set_option autoImplicit false

namespace WorkflowEngine

/-- A finite number from zero to a bound. Zero may have either sign. -/
inductive Binary64.Within (bound : Nat) : Binary64 → Prop
  | finite {negative : Bool} {units : Nat} :
      (negative = true → units = 0) → units ≤ bound * one → Within bound (.finite negative units)

def Binary64.nanoseconds : Binary64 → Nanoseconds
  | .finite _ units => nearestWhole (units * Nanoseconds.perSecond) one
  | _ => 0

theorem Binary64.one_pos : 0 < one := by decide +kernel

theorem Binary64.within_of_checked {x : Binary64} {bound : Nat} (finite : x.isFinite = true)
    (above : x.isBelowZero = false) (below : x.exceeds bound = false) : x.Within bound := by
  cases x with
  | infinite => cases finite
  | notANumber => cases finite
  | finite negative units =>
    cases negative with
    | true =>
      obtain rfl : units = 0 := by simpa [isBelowZero] using above
      exact .finite (fun _ => rfl) (Nat.zero_le _)
    | false => exact .finite nofun (by simpa [exceeds] using below)

theorem Nanoseconds.ofSeconds_of_within {x : Binary64} {bound : Nat} (within : x.Within bound)
    (small : bound < Nat.pow 2 64) : ofSeconds x = .ok x.nanoseconds := by
  obtain ⟨positive, le⟩ := within
  rename_i negative units
  have counts : (negative && units != 0) = false := by
    cases negative with
    | true => simp [positive]
    | false => rfl
  have room : units < Nat.pow 2 64 * Binary64.one :=
    Nat.lt_of_le_of_lt le (Nat.mul_lt_mul_of_pos_right small Binary64.one_pos)
  simp only [ofSeconds, counts, Nat.not_le_of_lt room, Bool.false_eq_true, if_false,
    Binary64.nanoseconds]

namespace ActionStep

def Waits (step : ActionStep) : Prop :=
  ∀ seconds, step.waitAfter = some seconds → seconds.Within Document.longestWait

theorem waitAfter_ofFields {fields : Document.ActionFields} {step : ActionStep}
    (read : ofFields fields = .ok step) : step.waitAfter = fields.waitAfter := by
  simp only [ofFields, bind, Except.bind] at read
  -- Every branch that comes to a step hands the wait on as it is.
  repeat' split at read
  all_goals
    cases read
    try rfl

theorem waits_ofFields {fields : Document.ActionFields} {step : ActionStep}
    (read : ofFields fields = .ok step) : step.Waits := by
  intro seconds given
  rw [waitAfter_ofFields read] at given
  simp only [ofFields, bind, Except.bind, given] at read
  split at read
  · cases read
  split at read
  · cases read
  rename_i usable
  split at read
  · cases read
  rename_i short
  simp only [Bool.or_eq_true, Bool.not_eq_true', not_or, Bool.not_eq_false,
    Bool.not_eq_true] at usable short
  exact Binary64.within_of_checked usable.1 usable.2 short

end ActionStep

def Step.Waits : Step → Prop
  | .action step => step.Waits
  | .workflow _ => True

theorem Step.waits_ofValue {v : Yaml.Value} {step : Step} (read : ofValue v = .ok step) :
    step.Waits := by
  unfold ofValue at read
  split at read
  · simp only [bind, Except.bind] at read
    split at read
    · cases read
    split at read
    · split at read
      · cases read
      · obtain ⟨own, checked, rfl⟩ := exists_of_map_eq_ok read
        exact ActionStep.waits_ofFields checked
    · split at read
      · cases read
      · obtain ⟨own, _, rfl⟩ := exists_of_map_eq_ok read
        trivial
  · cases read

namespace Document

theorem waits_readSteps {index : Nat} {values : List Yaml.Value} {steps : List Step}
    (read : readSteps index values = .ok steps) : ∀ step ∈ steps, step.Waits := by
  induction values generalizing index steps with
  | nil =>
    cases read
    simp
  | cons v rest ih =>
    unfold readSteps at read
    split at read
    · cases read
    · rename_i step here
      obtain ⟨later, behind, rfl⟩ := exists_of_map_eq_ok read
      exact List.forall_mem_cons.2 ⟨Step.waits_ofValue here, ih behind⟩

/-- Every wait that a document gives is a finite number from zero to an hour. -/
theorem waits_ofText {location : Location} {text : String} {d : Document}
    (read : ofText location text = .ok d) : ∀ step ∈ d.steps, step.Waits := by
  unfold ofText at read
  split at read
  · cases read
  split at read
  · cases read
  unfold ofOutline at read
  split at read
  · cases read
  · obtain ⟨steps, behind, rfl⟩ := exists_of_map_eq_ok read
    exact waits_readSteps behind

end Document

end WorkflowEngine
