import WorkflowEngine.Number.Binary64
import WorkflowEngine.Dictionary

/-! Parameter values.

A value is null, a truth value, a number, a text, a list or a record. Whole numbers and doubles are
different numbers, so one and one point zero are different values. Records are kept in the order of
their names.
-/

set_option autoImplicit false

namespace WorkflowEngine

inductive Number where
  | integer (value : Int)
  | real (value : Binary64)
  deriving DecidableEq

def Number.toReal : Number → Binary64
  | .integer i => Binary64.ofInt i
  | .real x => x

inductive Value where
  | null
  | bool (value : Bool)
  | number (value : Number)
  | text (value : String)
  | list (items : List Value)
  | record (fields : List (String × Value))

namespace Value

instance : Inhabited Value := ⟨.null⟩

def integer (i : Int) : Value := .number (.integer i)

def real (x : Binary64) : Value := .number (.real x)

/-- A record from fields in any order; the last of two fields of one name stays. -/
def ofFields (fields : List (String × Value)) : Value :=
  .record (Dictionary.ofList fields).entries

mutual

def same : Value → Value → Bool
  | .null, .null => true
  | .bool a, .bool b => a == b
  | .number a, .number b => a == b
  | .text a, .text b => a == b
  | .list as, .list bs => sameItems as bs
  | .record as, .record bs => sameFields as bs
  | _, _ => false
termination_by structural v => v

def sameItems : List Value → List Value → Bool
  | [], [] => true
  | a :: as, b :: bs => same a b && sameItems as bs
  | _, _ => false
termination_by structural vs => vs

def sameFields : List (String × Value) → List (String × Value) → Bool
  | [], [] => true
  | (k, a) :: as, (l, b) :: bs => k == l && (same a b && sameFields as bs)
  | _, _ => false
termination_by structural vs => vs

end

mutual

theorem eq_of_same : (a b : Value) → same a b = true → a = b
  | .null, b, h => by cases b <;> simp_all [same]
  | .bool _, b, h => by cases b <;> simp_all [same]
  | .number _, b, h => by cases b <;> simp_all [same]
  | .text _, b, h => by cases b <;> simp_all [same]
  | .list as, b, h => by
    cases b with
    | list bs => exact congrArg Value.list (eq_of_sameItems as bs h)
    | _ => simp [same] at h
  | .record as, b, h => by
    cases b with
    | record bs => exact congrArg Value.record (eq_of_sameFields as bs h)
    | _ => simp [same] at h

theorem eq_of_sameItems : (as bs : List Value) → sameItems as bs = true → as = bs
  | [], bs, h => by cases bs <;> simp_all [sameItems]
  | a :: as, bs, h => by
    cases bs with
    | nil => simp [sameItems] at h
    | cons b bs =>
      simp only [sameItems, Bool.and_eq_true] at h
      rw [eq_of_same a b h.1, eq_of_sameItems as bs h.2]

theorem eq_of_sameFields : (as bs : List (String × Value)) → sameFields as bs = true → as = bs
  | [], bs, h => by cases bs <;> simp_all [sameFields]
  | (k, a) :: as, bs, h => by
    cases bs with
    | nil => simp [sameFields] at h
    | cons head bs =>
      obtain ⟨l, b⟩ := head
      simp only [sameFields, Bool.and_eq_true, beq_iff_eq] at h
      rw [h.1, eq_of_same a b h.2.1, eq_of_sameFields as bs h.2.2]

end

mutual

theorem same_self : (a : Value) → same a a = true
  | .null => rfl
  | .bool _ => by simp [same]
  | .number _ => by simp [same]
  | .text _ => by simp [same]
  | .list as => sameItems_self as
  | .record as => sameFields_self as

theorem sameItems_self : (as : List Value) → sameItems as as = true
  | [] => rfl
  | a :: as => by simp [sameItems, same_self a, sameItems_self as]

theorem sameFields_self : (as : List (String × Value)) → sameFields as as = true
  | [] => rfl
  | (_, a) :: as => by simp [sameFields, same_self a, sameFields_self as]

end

instance : DecidableEq Value := fun a b =>
  if h : same a b = true then isTrue (eq_of_same a b h)
  else isFalse fun e => h (e ▸ same_self a)

end Value

end WorkflowEngine
