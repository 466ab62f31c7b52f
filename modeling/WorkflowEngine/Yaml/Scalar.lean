import WorkflowEngine.Value
import WorkflowEngine.Number.Reading
import WorkflowEngine.Text.Pieces
import WorkflowEngine.Yaml.Fault

/-! What scalars mean.

A plain scalar without a tag is null, a truth value, a number or a text by its spelling; any other is
a text. Digits behind a needless zero are a text. A whole number is an integer if it fits in 64 bits,
is refused if it fits in 128 bits only, and is a double beyond that.
-/

set_option autoImplicit false

namespace WorkflowEngine.Yaml

inductive Scalar where
  | null
  | bool (value : Bool)
  | number (value : Number)
  | text (value : String)

namespace Scalar

def isNull (text : String) : Bool := ["null", "Null", "NULL", "~"].contains text

def bool? (text : String) : Option Bool :=
  if ["true", "True", "TRUE"].contains text then some true
  else if ["false", "False", "FALSE"].contains text then some false
  else none

def isPadded (cs : List Char) : Bool :=
  match (WrittenDecimal.sign cs).2 with
  | '0' :: c :: rest => (c :: rest).all isDigit
  | _ => false

def basedNat? (cs : List Char) : Option Nat :=
  match cs with
  | '0' :: 'x' :: digits => natOfDigits? 16 digits
  | '0' :: 'o' :: digits => natOfDigits? 8 digits
  | '0' :: 'b' :: digits => natOfDigits? 2 digits
  | _ => none

/-- A whole number of any size: one sign, then a base and digits or decimal digits. -/
def whole? (cs : List Char) : Option Int :=
  let (negative, digits) := WrittenDecimal.sign cs
  let magnitude := (basedNat? digits).orElse fun _ =>
    if isPadded cs then none else natOfDigits? 10 digits
  magnitude.map fun n => if negative then -(n : Int) else n

def fits (bits : Nat) (i : Int) : Bool :=
  -(Nat.pow 2 (bits - 1) : Int) ≤ i && i < (Nat.pow 2 bits : Int)

inductive Whole where
  | fitting (value : Int)
  | outOfRange
  | none

def wholeOf (text : List Char) : Whole :=
  match whole? text with
  | some i => if fits 64 i then .fitting i else if fits 128 i then .outOfRange else .none
  | .none => .none

/-- A double: infinity, what is not a number, or a decimal within range. -/
def real? (text : String) : Option Binary64 :=
  let cs := text.toList
  let unsigned := match cs with
    | '+' :: rest => rest
    | _ => cs
  let repeatsSign := match cs with
    | '+' :: c :: _ => c == '+' || c == '-'
    | _ => false
  if repeatsSign then none
  else if [".inf", ".Inf", ".INF"].contains (String.ofList unsigned) then some (.infinite false)
  else if ["-.inf", "-.Inf", "-.INF"].contains text then some (.infinite true)
  else if [".nan", ".NaN", ".NAN"].contains text then some .notANumber
  else (Binary64.ofText? unsigned).filter Binary64.isFinite

def plain (text : String) : Except Fault Scalar :=
  if text == "" || isNull text then .ok .null
  else match bool? text with
    | some b => .ok (.bool b)
    | none =>
      match wholeOf text.toList with
      | .fitting i => .ok (.number (.integer i))
      | .outOfRange => .error .number
      | .none =>
        match if isPadded text.toList then none else real? text with
        | some x => .ok (.number (.real x))
        | none => .ok (.text text)

def standardTag (name : String) : String := "tag:yaml.org,2002:" ++ name

def tagged (tag text : String) : Except Fault Scalar :=
  if tag == standardTag "bool" then
    match bool? text with
    | some b => .ok (.bool b)
    | none => .error (.kind "a boolean")
  else if tag == standardTag "int" then
    match wholeOf text.toList with
    | .fitting i => .ok (.number (.integer i))
    | .outOfRange => .error .number
    | .none => .error (.kind "an integer")
  else if tag == standardTag "float" then
    match real? text with
    | some x => .ok (.number (.real x))
    | none => .error (.kind "a float")
  else if tag == standardTag "null" then
    if isNull text then .ok .null else .error (.kind "null")
  else .ok (.text text)

def of (tag : Option String) (isPlain : Bool) (text : String) : Except Fault Scalar :=
  match tag with
  | some tag => tagged tag text
  | none => if isPlain then plain text else .ok (.text text)

end Scalar

end WorkflowEngine.Yaml
