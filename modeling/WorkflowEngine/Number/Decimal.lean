import WorkflowEngine.Number.Binary64

/-! Decimal text of doubles.

A double is written with the fewest digits that read back as the same double, and among those with
the digits nearest to it. A layout then fixes where the point goes.
-/

set_option autoImplicit false

namespace WorkflowEngine

structure Decimal where
  digits : Nat
  exponent : Int
  deriving DecidableEq

structure DecimalLayout where
  /-- Leading exponents from `least` to `greatest` are written without an exponent. -/
  least : Option Int
  greatest : Option Int
  /-- A whole number keeps `.0`. -/
  keepsPoint : Bool
  /-- Of two equally near decimals the upper one is taken; otherwise the even one. -/
  tiesUp : Bool
  infinity : String
  notANumber : String

namespace Decimal

/-- The grid `10 ^ exponent` around a double: the grid point below it, and the numerator and
denominator of what is left, as a part of one grid step. -/
def below (units : Nat) : Int → Nat × Nat × Nat
  | .ofNat n =>
    let den := Binary64.one * Nat.pow 10 n
    (units / den, units % den, den)
  | .negSucc n =>
    let num := units * Nat.pow 10 (n + 1)
    (num / Binary64.one, num % Binary64.one, Binary64.one)

def readsBack (units : Nat) (d : Decimal) : Bool :=
  Binary64.ofDecimal false d.digits d.exponent = .finite false units

/-- The point of a grid that reads back as the double, the nearer one if two do. -/
def onGrid? (tiesUp : Bool) (units : Nat) (exponent : Int) : Option Decimal :=
  let (lower, rest, step) := below units exponent
  let down : Decimal := ⟨lower, exponent⟩
  let up : Decimal := ⟨lower + 1, exponent⟩
  -- Between neighbours on the grid lies the double itself, so no other point is nearer.
  match readsBack units down, readsBack units up with
  | true, true =>
    if 2 * rest < step then some down
    else if step < 2 * rest then some up
    else if tiesUp then some up
    else some ⟨lower + lower % 2, exponent⟩
  | true, false => some down
  | false, true => some up
  | false, false => none

def leadingExponent (units : Nat) : Int :=
  (digitCount (units * Nat.pow 10 400 / Binary64.one) : Int) - 401

def search (tiesUp : Bool) (units : Nat) (leading : Int) : Nat → Nat → Decimal
  | 0, _ => ⟨0, 0⟩
  | more + 1, digits =>
    match onGrid? tiesUp units (leading - digits) with
    | some found => found
    | none => search tiesUp units leading more (digits + 1)

/-- The shortest decimal that reads back as a positive double. Seventeen digits always suffice. -/
def shortest (tiesUp : Bool) (units : Nat) : Decimal :=
  search tiesUp units (leadingExponent units) 17 0

def significant (d : Decimal) : List Char × Int :=
  let written := Nat.toDigits 10 d.digits
  let kept := (written.reverse.dropWhile (· = '0')).reverse
  (kept, d.exponent + written.length - 1)

end Decimal

namespace DecimalLayout

def zeros (count : Nat) : List Char := List.replicate count '0'

def positional (keepsPoint : Bool) (digits : List Char) (leading : Int) : List Char :=
  match leading with
  | .negSucc n => '0' :: '.' :: (zeros n ++ digits)
  | .ofNat n =>
    if digits.length ≤ n + 1 then
      digits ++ zeros (n + 1 - digits.length) ++ (if keepsPoint then ['.', '0'] else [])
    else digits.take (n + 1) ++ '.' :: digits.drop (n + 1)

def scientific (digits : List Char) (leading : Int) : List Char :=
  let power := (if leading < 0 then '-' else '+') :: Nat.toDigits 10 leading.natAbs
  match digits with
  | [] => 'e' :: power
  | [d] => d :: 'e' :: power
  | d :: more => d :: '.' :: (more ++ 'e' :: power)

def isPositional (layout : DecimalLayout) (leading : Int) : Bool :=
  layout.least.all (fun least => decide (least ≤ leading)) &&
    layout.greatest.all (fun greatest => decide (leading ≤ greatest))

def magnitude (layout : DecimalLayout) (units : Nat) : List Char :=
  if units = 0 then positional layout.keepsPoint ['0'] 0
  else
    let (digits, leading) := (Decimal.shortest layout.tiesUp units).significant
    if layout.isPositional leading then positional layout.keepsPoint digits leading
    else scientific digits leading

def render (layout : DecimalLayout) : Binary64 → String
  | .finite negative units =>
    String.ofList ((if negative then ['-'] else []) ++ layout.magnitude units)
  | .infinite negative => if negative then "-" ++ layout.infinity else layout.infinity
  | .notANumber => layout.notANumber

/-- The layout of amounts in messages: never an exponent, no point after a whole number. -/
def plain : DecimalLayout where
  least := none
  greatest := none
  keepsPoint := false
  tiesUp := true
  infinity := "inf"
  notANumber := "NaN"

end DecimalLayout

end WorkflowEngine
