import WorkflowEngine.Value.Json

/-! Reading JSON text.

Characters are grouped into tokens, and one pass over the tokens with a stack of open lists and
records builds the value. Nothing may follow the value, and at most 127 containers may be open at a
time.
-/

set_option autoImplicit false

namespace WorkflowEngine.Json

/-- The digits of a significand that fit in 64 bits, and how many digits did not. -/
def fitDigits (significand : Nat) : List Char → Nat × Nat
  | [] => (significand, 0)
  | c :: rest =>
    let extended := significand * 10 + (digitValue? 10 c).getD 0
    if extended < Nat.pow 2 64 then fitDigits extended rest else (significand, rest.length + 1)

/-- Scale by a power of ten in steps that are doubles, rounding at each step. Too large a result is
refused; below the smallest double the result is zero. -/
def scaled? (negative : Bool) (value : Binary64) (exponent : Int) : Nat → Option Binary64
  | 0 => some (.finite negative 0)
  | more + 1 =>
    match value, Binary64.ofDecimal false 1 (min exponent.natAbs 308) with
    | .finite _ units, .finite _ power =>
      -- Powers of ten up to this one are finite doubles.
      if exponent.natAbs ≤ 308 then
        if 0 ≤ exponent then
          match Binary64.product negative units power with
          | .finite sign result => some (.finite sign result)
          | _ => none
        else some (Binary64.quotient negative units power)
      else if units = 0 then some (.finite negative 0)
      else if 0 ≤ exponent then none
      else scaled? negative (Binary64.quotient negative units power) (exponent + 308) more
    | _, _ => none

def realOf? (negative : Bool) (written : WrittenDecimal) : Option Binary64 :=
  let (significand, dropped) := fitDigits 0 written.whole
  let fraction := written.fraction.getD []
  let (significand, unread) := fitDigits significand fraction
  let exponent := written.powerOfTen + dropped - (fraction.length - unread : Nat)
  let outsized :=
    (written.power.map fun power => decide (Nat.pow 2 31 ≤ digitsValue 10 power.2)).getD false
  -- Exponents that are too long to count decide the answer by their sign.
  if outsized then
    if significand != 0 && 0 < written.powerOfTen then none else some (.finite negative 0)
  else scaled? negative (Binary64.ofNat significand) exponent 4

/-- A whole number that fits in 64 bits is an integer, but minus zero is a double. -/
def numberOf? (negative : Bool) (written : WrittenDecimal) : Option Number :=
  let (significand, dropped) := fitDigits 0 written.whole
  let whole := written.fraction.isNone && written.power.isNone && dropped == 0
  if whole && !negative then some (.integer significand)
  else if whole && significand != 0 && significand ≤ Nat.pow 2 63 then some (.integer (-significand))
  else (realOf? negative written).map .real

/-- There is no sign but minus, no needless zero in front and a digit after a point. -/
def readNumber? (cs : List Char) : Option (Number × List Char) :=
  let (negative, rest) := match cs with
    | '-' :: rest => (true, rest)
    | _ => (false, cs)
  let (written, rest) := WrittenDecimal.read rest
  let leads := match written.whole with
    | [] => false
    | ['0'] => true
    | first :: _ => first != '0'
  let fits := leads && written.isComplete && !(written.fraction == some [])
  if fits then (numberOf? negative written).map fun n => (n, rest) else none

def simpleEscape? (c : Char) : Option Char :=
  [('"', '"'), ('\\', '\\'), ('/', '/'), ('b', '\x08'), ('f', '\x0c'), ('n', '\n'), ('r', '\r'),
    ('t', '\t')].lookup c

def joinUnit (pending : Option Nat) (unit : Nat) : Option (Option Nat × Option Char) :=
  let isHigh := 0xD800 ≤ unit && unit < 0xDC00
  let isLow := 0xDC00 ≤ unit && unit < 0xE000
  match pending with
  | none =>
    if isHigh then some (some unit, none)
    else if isLow then none
    else some (none, some (Char.ofNat unit))
  | some high =>
    if isLow then some (none, some (Char.ofNat (0x10000 + (high - 0xD800) * 0x400 + (unit - 0xDC00))))
    else none

def readText? (pending : Option Nat) : List Char → Option (List Char × List Char)
  | '"' :: rest => if pending.isNone then some ([], rest) else none
  | '\\' :: 'u' :: a :: b :: c :: d :: rest => do
    let unit ← natOfDigits? 16 [a, b, c, d]
    let (pending, made) ← joinUnit pending unit
    let (text, rest) ← readText? pending rest
    return (made.toList ++ text, rest)
  | '\\' :: c :: rest => do
    let made ← simpleEscape? c
    if pending.isSome then none
    let (text, rest) ← readText? none rest
    return (made :: text, rest)
  | c :: rest => do
    if pending.isSome || c.toNat < 0x20 then none
    let (text, rest) ← readText? none rest
    return (c :: text, rest)
  | [] => none

inductive Token where
  | openList
  | closeList
  | openRecord
  | closeRecord
  | comma
  | colon
  | text (value : String)
  | scalar (value : Value)

def readToken? (cs : List Char) : Option (Token × List Char) :=
  match cs with
  | '[' :: rest => some (.openList, rest)
  | ']' :: rest => some (.closeList, rest)
  | '\x7b' :: rest => some (.openRecord, rest)
  | '\x7d' :: rest => some (.closeRecord, rest)
  | ',' :: rest => some (.comma, rest)
  | ':' :: rest => some (.colon, rest)
  | '"' :: rest => (readText? none rest).map fun (text, rest) => (.text (String.ofList text), rest)
  | 'n' :: 'u' :: 'l' :: 'l' :: rest => some (.scalar .null, rest)
  | 't' :: 'r' :: 'u' :: 'e' :: rest => some (.scalar (.bool true), rest)
  | 'f' :: 'a' :: 'l' :: 's' :: 'e' :: rest => some (.scalar (.bool false), rest)
  | _ => (readNumber? cs).map fun (n, rest) => (.scalar (.number n), rest)

def isSpace (c : Char) : Bool := c = ' ' || c = '\t' || c = '\n' || c = '\r'

/-- The tokens of a text. Every token takes a character, so the length of the text bounds them. -/
def tokens? : Nat → List Char → Option (List Token)
  | 0, _ => some []
  | more + 1, cs =>
    match cs.dropWhile isSpace with
    | [] => some []
    | rest => do
      let (token, rest) ← readToken? rest
      let tokens ← tokens? more rest
      return token :: tokens

inductive Open where
  | list (items : List Value)
  | record (fields : List (String × Value)) (name : String)

inductive Expected where
  | value (orClose : Bool)
  | name (orClose : Bool)
  | colon
  | commaOrClose
  | nothing (result : Value)

structure Pending where
  expected : Expected
  stack : List Open

namespace Pending

def deliver (v : Value) : List Open → Pending
  | [] => ⟨.nothing v, []⟩
  | .list items :: rest => ⟨.commaOrClose, .list (v :: items) :: rest⟩
  | .record fields name :: rest => ⟨.commaOrClose, .record ((name, v) :: fields) name :: rest⟩

def openContainer (container : Open) (expected : Expected) (stack : List Open) : Option Pending :=
  if stack.length < 127 then some ⟨expected, container :: stack⟩ else none

def step (pending : Pending) (token : Token) : Option Pending :=
  match pending.expected, token, pending.stack with
  | .value _, .scalar v, stack => some (deliver v stack)
  | .value _, .text s, stack => some (deliver (.text s) stack)
  | .value _, .openList, stack => openContainer (.list []) (.value true) stack
  | .value _, .openRecord, stack => openContainer (.record [] "") (.name true) stack
  | .value true, .closeList, .list items :: rest => some (deliver (.list items.reverse) rest)
  | .name _, .text name, .record fields _ :: rest => some ⟨.colon, .record fields name :: rest⟩
  | .name true, .closeRecord, .record fields _ :: rest =>
    some (deliver (Value.ofFields fields.reverse) rest)
  | .colon, .colon, stack => some ⟨.value false, stack⟩
  | .commaOrClose, .comma, .list items :: rest => some ⟨.value false, .list items :: rest⟩
  | .commaOrClose, .closeList, .list items :: rest => some (deliver (.list items.reverse) rest)
  | .commaOrClose, .comma, .record fields name :: rest =>
    some ⟨.name false, .record fields name :: rest⟩
  | .commaOrClose, .closeRecord, .record fields _ :: rest =>
    some (deliver (Value.ofFields fields.reverse) rest)
  | _, _, _ => none

end Pending

def ofTokens? (tokens : List Token) : Option Value := do
  let final ← tokens.foldlM Pending.step ⟨.value false, []⟩
  match final.expected with
  | .nothing v => some v
  | _ => none

def read? (text : String) : Option Value := do
  let cs := text.toList
  let tokens ← tokens? (cs.length + 1) cs
  ofTokens? tokens

end WorkflowEngine.Json
