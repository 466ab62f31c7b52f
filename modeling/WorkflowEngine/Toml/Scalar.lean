import WorkflowEngine.Toml.Table
import WorkflowEngine.Toml.Text

/-! Numbers, truth values and moments in TOML.

These are runs of letters, digits and a few signs, so a run is read first and then classified. Digits
may be set apart by single underscores. A moment is a date, a time of day, or a date and a time with
an offset that may be missing.
-/

set_option autoImplicit false

namespace WorkflowEngine.Toml

def isRunChar (c : Char) : Bool :=
  c.isAlphanum || c == '_' || c == '-' || c == '+' || c == '.' || c == ':'

/-- Digits of a base, with single underscores between them. -/
def isSpacedDigits (base : Nat) : List Char → Bool
  | [] => false
  | [c] => (digitValue? base c).isSome
  | c :: '_' :: rest => (digitValue? base c).isSome && isSpacedDigits base rest
  | c :: rest => (digitValue? base c).isSome && isSpacedDigits base rest

def withoutUnderscores (cs : List Char) : List Char := cs.filter (· != '_')

def isDecimalWhole (cs : List Char) : Bool :=
  isSpacedDigits 10 cs && (cs.length == 1 || cs.head? != some '0')

def inRange (i : Int) : Option Value :=
  if -(Nat.pow 2 63 : Int) ≤ i && i < (Nat.pow 2 63 : Int) then some (.integer i) else none

def basedInteger? (base : Nat) (digits : List Char) : Option Value :=
  if isSpacedDigits base digits then inRange (digitsValue base (withoutUnderscores digits)) else none

def integer? (cs : List Char) : Option Value :=
  match cs with
  | '0' :: 'x' :: digits => basedInteger? 16 digits
  | '0' :: 'o' :: digits => basedInteger? 8 digits
  | '0' :: 'b' :: digits => basedInteger? 2 digits
  | _ =>
    let (negative, digits) := WrittenDecimal.sign cs
    if isDecimalWhole digits then
      let n : Int := digitsValue 10 (withoutUnderscores digits)
      inRange (if negative then -n else n)
    else none

def isPower : List Char → Bool
  | [] => true
  | c :: rest => (c == 'e' || c == 'E') && isSpacedDigits 10 (WrittenDecimal.sign rest).2

/-- A double in decimal form, which may not overflow upwards. -/
def isReal (cs : List Char) : Bool :=
  let (_, unsigned) := WrittenDecimal.sign cs
  let isDigitChar (c : Char) : Bool := isDigit c || c == '_'
  let whole := unsigned.takeWhile isDigitChar
  let shaped := isDecimalWhole whole && match unsigned.dropWhile isDigitChar with
    | '.' :: rest =>
      isSpacedDigits 10 (rest.takeWhile isDigitChar) && isPower (rest.dropWhile isDigitChar)
    | [] => false
    | rest => isPower rest
  shaped && Binary64.ofText? (withoutUnderscores cs) != some (.infinite false)

def isSpecialReal (cs : List Char) : Bool :=
  let word := (WrittenDecimal.sign cs).2
  word == "inf".toList || word == "nan".toList

def twoDigits? (greatest : Nat) : List Char → Option (Nat × List Char)
  | a :: b :: rest =>
    match natOfDigits? 10 [a, b] with
    | some n => if isDigit a && isDigit b && n ≤ greatest then some (n, rest) else none
    | none => none
  | _ => none

def isLeapYear (year : Nat) : Bool := year % 4 == 0 && (year % 100 != 0 || year % 400 == 0)

def daysIn (year month : Nat) : Nat :=
  if month == 2 then if isLeapYear year then 29 else 28
  else if [4, 6, 9, 11].contains month then 30
  else 31

def afterDate? : List Char → Option (List Char)
  | a :: b :: c :: d :: '-' :: rest => do
    let year ← natOfDigits? 10 [a, b, c, d]
    let (month, rest) ← twoDigits? 12 rest
    match rest with
    | '-' :: rest => do
      let (day, rest) ← twoDigits? 31 rest
      if 1 ≤ month && 1 ≤ day && day ≤ daysIn year month then some rest else none
    | _ => none
  | _ => none

def afterTime? (cs : List Char) : Option (List Char) := do
  let (_, rest) ← twoDigits? 23 cs
  match rest with
  | ':' :: rest => do
    let (_, rest) ← twoDigits? 59 rest
    match rest with
    | ':' :: rest => do
      let (_, rest) ← twoDigits? 60 rest
      match rest with
      | '.' :: rest =>
        if (rest.takeWhile isDigit).isEmpty then none else some (rest.dropWhile isDigit)
      | _ => some rest
    | _ => none
  | _ => none

def isOffset : List Char → Bool
  | [] => true
  | [c] => c == 'Z' || c == 'z'
  | c :: rest =>
    (c == '+' || c == '-') && match twoDigits? 23 rest with
      | some (_, ':' :: rest) =>
        match twoDigits? 59 rest with
        | some (_, []) => true
        | _ => false
      | _ => false

def isTimeWithOffset (cs : List Char) : Bool :=
  match afterTime? cs with
  | some rest => isOffset rest
  | none => false

def isMoment (cs : List Char) : Bool :=
  match afterDate? cs with
  | some [] => true
  | some (c :: rest) => (c == 'T' || c == 't') && isTimeWithOffset rest
  | none => afterTime? cs == some []

def ofRun? (cs : List Char) : Option Value :=
  if cs == "true".toList then some (.bool true)
  else if cs == "false".toList then some (.bool false)
  else if isMoment cs then some .moment
  else if isReal cs || isSpecialReal cs then some .real
  else integer? cs

/-- A time behind a date and a blank belongs to the date. -/
def skipTime (run rest : List Char) : List Char :=
  match afterDate? run, rest with
  | some [], ' ' :: after =>
    if isTimeWithOffset (after.takeWhile isRunChar) then after.dropWhile isRunChar else rest
  | _, _ => rest

def readScalar (cs : List Char) : Except Fault (Value × List Char) :=
  let run := cs.takeWhile isRunChar
  match ofRun? run with
  | some v => .ok (v, skipTime run (cs.dropWhile isRunChar))
  | none => .error .value

end WorkflowEngine.Toml
