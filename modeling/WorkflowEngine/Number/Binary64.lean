/-! Double-precision numbers as exact quantities.

Every finite double is a whole number of units of `2 ^ -1074`, so a number is a sign and a count of
units, and comparison, rounding and reading of decimals are exact arithmetic on natural numbers.
-/

set_option autoImplicit false

namespace WorkflowEngine

/-- The whole number nearest to a quotient; a half goes to the even neighbour. -/
def nearestWhole (num den : Nat) : Nat :=
  let whole := num / den
  let twice := 2 * (num % den)
  if twice < den then whole
  else if den < twice then whole + 1
  else whole + whole % 2

def digitCount (n : Nat) : Nat := (Nat.toDigits 10 n).length

inductive Binary64 where
  /-- A sign and a count of units of `2 ^ -1074`; the count has at most 53 significant bits. -/
  | finite (negative : Bool) (units : Nat)
  | infinite (negative : Bool)
  | notANumber
  deriving DecidableEq

namespace Binary64

def one : Nat := Nat.pow 2 1074

def spacing (units : Nat) : Nat :=
  if units < Nat.pow 2 53 then 1 else Nat.pow 2 (units.log2 - 52)

/-- The double nearest to `num / den`, with an even significand at a half. -/
def ofQuotient (negative : Bool) (num den : Nat) : Binary64 :=
  let scaled := num * one
  let gap := spacing (scaled / den)
  let units := nearestWhole scaled (den * gap) * gap
  if units < Nat.pow 2 2098 then .finite negative units else .infinite negative

/-- The double nearest to `digits · 10 ^ exponent`. Outside the powers of ten from -330 to 310 the
answer is known without computing it. -/
def ofDecimal (negative : Bool) (digits : Nat) (exponent : Int) : Binary64 :=
  let magnitude := exponent + digitCount digits
  if digits = 0 then .finite negative 0
  else if 310 < magnitude then .infinite negative
  else if magnitude < -330 then .finite negative 0
  else match exponent with
    | .ofNat n => ofQuotient negative (digits * Nat.pow 10 n) 1
    | .negSucc n => ofQuotient negative digits (Nat.pow 10 (n + 1))

def ofNat (n : Nat) : Binary64 := ofQuotient false n 1

def ofInt (i : Int) : Binary64 := ofQuotient (decide (i < 0)) i.natAbs 1

def product (negative : Bool) (a b : Nat) : Binary64 := ofQuotient negative (a * b) (one * one)

def quotient (negative : Bool) (a b : Nat) : Binary64 := ofQuotient negative a b

def isFinite : Binary64 → Bool
  | .finite _ _ => true
  | _ => false

def signedUnits (negative : Bool) (units : Nat) : Int :=
  if negative then -(units : Int) else units

/-- Numeric comparison: the zeros are equal, and nothing compares with what is not a number. -/
def lessEq : Binary64 → Binary64 → Bool
  | .finite m a, .finite n b => decide (signedUnits m a ≤ signedUnits n b)
  | .infinite m, .infinite n => m || !n
  | .infinite m, .finite _ _ => m
  | .finite _ _, .infinite n => !n
  | _, _ => false

def isBelowZero : Binary64 → Bool
  | .finite negative units => negative && units != 0
  | .infinite negative => negative
  | .notANumber => false

def exceeds (x : Binary64) (bound : Nat) : Bool :=
  match x with
  | .finite negative units => !negative && decide (bound * one < units)
  | .infinite negative => !negative
  | .notANumber => false

/-- Numeric equality: the two zeros are equal, and what is not a number differs from itself. -/
def sameNumber : Binary64 → Binary64 → Bool
  | .finite m a, .finite n b => a == b && (m == n || a == 0)
  | .infinite m, .infinite n => m == n
  | _, _ => false

end Binary64

end WorkflowEngine
