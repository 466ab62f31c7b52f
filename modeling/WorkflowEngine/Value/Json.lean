import WorkflowEngine.Value
import WorkflowEngine.Number.Decimal
import WorkflowEngine.Number.Reading
import WorkflowEngine.Text.Pieces

/-! Values as JSON text.

Values are written either on one line or indented by two spaces, fields in the order they have. A
text is quoted; only quotes, backslashes and control characters in it are escaped.
-/

set_option autoImplicit false

namespace WorkflowEngine.Json

/-- Doubles with a leading exponent from -5 to 15 are written without one and keep a point. -/
def numberLayout : DecimalLayout where
  least := some (-5)
  greatest := some 15
  keepsPoint := true
  tiesUp := false
  infinity := "null"
  notANumber := "null"

def numberText : Number → String
  | .integer i => String.ofList ((if i < 0 then ['-'] else []) ++ Nat.toDigits 10 i.natAbs)
  | .real x => numberLayout.render x

def codeEscape (c : Char) : List Char :=
  let digits := Nat.toDigits 16 c.toNat
  ['\\', 'u'] ++ List.replicate (4 - digits.length) '0' ++ digits

def escape (c : Char) : List Char :=
  if c = '"' then ['\\', '"']
  else if c = '\\' then ['\\', '\\']
  else if c = '\x08' then ['\\', 'b']
  else if c = '\x0c' then ['\\', 'f']
  else if c = '\n' then ['\\', 'n']
  else if c = '\r' then ['\\', 'r']
  else if c = '\t' then ['\\', 't']
  else if c.toNat < 0x20 then codeEscape c
  else [c]

def quoted (s : String) : List Char :=
  '"' :: s.toList.flatMap escape ++ ['"']

mutual

def write : Value → List Char
  | .null => "null".toList
  | .bool true => "true".toList
  | .bool false => "false".toList
  | .number n => (numberText n).toList
  | .text s => quoted s
  | .list items => '[' :: writeItems items
  | .record fields => '\x7b' :: writeFields fields
termination_by structural v => v

def writeItems : List Value → List Char
  | [] => [']']
  | v :: rest => write v ++ (if rest.isEmpty then [] else [',']) ++ writeItems rest
termination_by structural vs => vs

def writeFields : List (String × Value) → List Char
  | [] => ['\x7d']
  | (name, v) :: rest =>
    quoted name ++ ':' :: write v ++ (if rest.isEmpty then [] else [',']) ++ writeFields rest
termination_by structural vs => vs

end

def compact (v : Value) : String := String.ofList (write v)

def newline (depth : Nat) : List Char := '\n' :: List.replicate (2 * depth) ' '

mutual

def writeIndented (depth : Nat) : Value → List Char
  | .list (v :: rest) =>
    '[' :: newline (depth + 1) ++ writeIndented (depth + 1) v ++ moreItems depth rest
  | .record ((name, v) :: rest) =>
    '\x7b' :: newline (depth + 1) ++ quoted name ++ ':' :: ' ' :: writeIndented (depth + 1) v ++
      moreFields depth rest
  | .list [] => ['[', ']']
  | .record [] => ['\x7b', '\x7d']
  | .null => "null".toList
  | .bool true => "true".toList
  | .bool false => "false".toList
  | .number n => (numberText n).toList
  | .text s => quoted s
termination_by structural v => v

def moreItems (depth : Nat) : List Value → List Char
  | [] => newline depth ++ [']']
  | v :: rest =>
    ',' :: newline (depth + 1) ++ writeIndented (depth + 1) v ++ moreItems depth rest
termination_by structural vs => vs

def moreFields (depth : Nat) : List (String × Value) → List Char
  | [] => newline depth ++ ['\x7d']
  | (name, v) :: rest =>
    ',' :: newline (depth + 1) ++ quoted name ++ ':' :: ' ' :: writeIndented (depth + 1) v ++
      moreFields depth rest
termination_by structural vs => vs

end

def pretty (v : Value) : String := String.ofList (writeIndented 0 v)

end WorkflowEngine.Json
