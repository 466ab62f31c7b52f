import WorkflowEngine.Number.Binary64

/-! Reading decimal text.

A written number has a whole part, a part after the point and a power of ten. Formats differ in what
they demand of the parts, so the parts are read first and judged by the format.
-/

set_option autoImplicit false

namespace WorkflowEngine

def digitValue? (base : Nat) (c : Char) : Option Nat :=
  let value :=
    if '0'.toNat ≤ c.toNat ∧ c.toNat ≤ '9'.toNat then c.toNat - '0'.toNat
    else if 'a'.toNat ≤ c.toNat ∧ c.toNat ≤ 'z'.toNat then c.toNat - 'a'.toNat + 10
    else if 'A'.toNat ≤ c.toNat ∧ c.toNat ≤ 'Z'.toNat then c.toNat - 'A'.toNat + 10
    else base
  if value < base then some value else none

def isDigit (c : Char) : Bool := (digitValue? 10 c).isSome

/-- The number that digits write in a base; characters that are no digits count as zero. -/
def digitsValue (base : Nat) (digits : List Char) : Nat :=
  digits.foldl (fun n c => n * base + (digitValue? base c).getD 0) 0

def natOfDigits? (base : Nat) (digits : List Char) : Option Nat :=
  if digits.isEmpty || digits.any (fun c => (digitValue? base c).isNone) then none
  else some (digitsValue base digits)

structure WrittenDecimal where
  whole : List Char
  /-- The digits after the point, when there is a point. -/
  fraction : Option (List Char)
  /-- Sign and digits of the power of ten, when there is one. -/
  power : Option (Bool × List Char)

namespace WrittenDecimal

def sign : List Char → Bool × List Char
  | '-' :: rest => (true, rest)
  | '+' :: rest => (false, rest)
  | cs => (false, cs)

def readPower (whole : List Char) (fraction : Option (List Char)) (cs : List Char) :
    WrittenDecimal × List Char :=
  match cs with
  | c :: rest =>
    if c = 'e' || c = 'E' then
      let (negative, rest) := sign rest
      (⟨whole, fraction, some (negative, rest.takeWhile isDigit)⟩, rest.dropWhile isDigit)
    else (⟨whole, fraction, none⟩, cs)
  | [] => (⟨whole, fraction, none⟩, cs)

def read (cs : List Char) : WrittenDecimal × List Char :=
  let whole := cs.takeWhile isDigit
  match cs.dropWhile isDigit with
  | '.' :: rest => readPower whole (some (rest.takeWhile isDigit)) (rest.dropWhile isDigit)
  | rest => readPower whole none rest

/-- There is a digit before or after the point, and one in the power of ten if it is there. -/
def isComplete (written : WrittenDecimal) : Bool :=
  !(written.whole.isEmpty && (written.fraction.getD []).isEmpty) &&
    written.power.all fun power => !power.2.isEmpty

def powerOfTen (written : WrittenDecimal) : Int :=
  match written.power with
  | none => 0
  | some (negative, digits) =>
    let size : Int := digitsValue 10 digits
    if negative then -size else size

def value (written : WrittenDecimal) (negative : Bool) : Binary64 :=
  let fraction := written.fraction.getD []
  Binary64.ofDecimal negative (digitsValue 10 (written.whole ++ fraction))
    (written.powerOfTen - fraction.length)

end WrittenDecimal

namespace Binary64

def ofText? (cs : List Char) : Option Binary64 :=
  let (negative, rest) := WrittenDecimal.sign cs
  let (written, rest) := WrittenDecimal.read rest
  if written.isComplete && rest.isEmpty then some (written.value negative) else none

end Binary64

end WorkflowEngine
