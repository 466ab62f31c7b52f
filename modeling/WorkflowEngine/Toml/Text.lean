import WorkflowEngine.Number.Reading
import WorkflowEngine.Toml.Fault

/-! Texts and keys in TOML.

Texts stand between double quotes, with escapes, or between apostrophes, without. Three quotes start
a text over several lines; a break right behind them does not count, and a backslash at the end of a
line takes away all blanks and breaks that follow.
-/

set_option autoImplicit false

namespace WorkflowEngine.Toml

def isBlank (c : Char) : Bool := c == ' ' || c == '\t'

/-- The characters of texts and comments: no control characters but the tab. -/
def isTextChar (c : Char) : Bool := c == '\t' || (0x20 ≤ c.toNat && c.toNat != 0x7F)

def simpleEscape? (c : Char) : Option Char :=
  [('b', '\x08'), ('t', '\t'), ('n', '\n'), ('f', '\x0c'), ('r', '\r'), ('"', '"'),
    ('\\', '\\')].lookup c

def charOf? (digits : List Char) : Option Char :=
  match natOfDigits? 16 digits with
  | some n =>
    if (0xD800 ≤ n && n ≤ 0xDFFF) || 0x10FFFF < n then none else some (Char.ofNat n)
  | none => none

def readEscape? : List Char → Option (Char × List Char)
  | 'u' :: a :: b :: c :: d :: rest => (charOf? [a, b, c, d]).map fun made => (made, rest)
  | 'U' :: a :: b :: c :: d :: e :: f :: g :: h :: rest =>
    (charOf? [a, b, c, d, e, f, g, h]).map fun made => (made, rest)
  | c :: rest => (simpleEscape? c).map fun made => (made, rest)
  | [] => none

def readBasic (text : List Char) : Nat → List Char → Except Fault (String × List Char)
  | 0, _ => .error .text
  | more + 1, cs =>
    match cs with
    | '"' :: rest => .ok (String.ofList text.reverse, rest)
    | '\\' :: rest =>
      match readEscape? rest with
      | some (c, rest) => readBasic (c :: text) more rest
      | none => .error .text
    | c :: rest => if isTextChar c then readBasic (c :: text) more rest else .error .text
    | [] => .error .text

def readLiteral (cs : List Char) : Except Fault (String × List Char) :=
  let text := cs.takeWhile fun c => isTextChar c && c != '\''
  match cs.drop text.length with
  | '\'' :: rest => .ok (String.ofList text, rest)
  | _ => .error .text

/-- Up to two quotes in front of the three that close a text belong to the text. -/
def closing (quote : Char) (text : List Char) (rest : List Char) : String × List Char :=
  let extra := (rest.takeWhile (· == quote)).take 2
  (String.ofList (extra ++ text).reverse, rest.drop extra.length)

def afterBreak? : List Char → Option (List Char)
  | '\n' :: rest => some rest
  | '\r' :: '\n' :: rest => some rest
  | _ => none

def skipGap : List Char → List Char
  | '\r' :: '\n' :: rest => skipGap rest
  | c :: rest => if isBlank c || c == '\n' then skipGap rest else c :: rest
  | [] => []

def readLongBasic (text : List Char) : Nat → List Char → Except Fault (String × List Char)
  | 0, _ => .error .text
  | more + 1, cs =>
    match afterBreak? cs with
    | some rest => readLongBasic ('\n' :: text) more rest
    | none =>
      match cs with
      | '"' :: '"' :: '"' :: rest => .ok (closing '"' text rest)
      | '\\' :: rest =>
        match afterBreak? (rest.dropWhile isBlank) with
        | some rest => readLongBasic text more (skipGap rest)
        | none =>
          match readEscape? rest with
          | some (c, rest) => readLongBasic (c :: text) more rest
          | none => .error .text
      | c :: rest => if isTextChar c then readLongBasic (c :: text) more rest else .error .text
      | [] => .error .text

def readLongLiteral (text : List Char) : Nat → List Char → Except Fault (String × List Char)
  | 0, _ => .error .text
  | more + 1, cs =>
    match afterBreak? cs with
    | some rest => readLongLiteral ('\n' :: text) more rest
    | none =>
      match cs with
      | '\'' :: '\'' :: '\'' :: rest => .ok (closing '\'' text rest)
      | c :: rest => if isTextChar c then readLongLiteral (c :: text) more rest else .error .text
      | [] => .error .text

def readText (cs : List Char) : Except Fault (String × List Char) :=
  match cs with
  | '"' :: '"' :: '"' :: rest =>
    let rest := (afterBreak? rest).getD rest
    readLongBasic [] (rest.length + 1) rest
  | '"' :: rest => readBasic [] (rest.length + 1) rest
  | '\'' :: '\'' :: '\'' :: rest =>
    let rest := (afterBreak? rest).getD rest
    readLongLiteral [] (rest.length + 1) rest
  | '\'' :: rest => readLiteral rest
  | _ => .error .text

def isBareChar (c : Char) : Bool := c.isAlphanum || c == '_' || c == '-'

def readKeyPart (cs : List Char) : Except Fault (String × List Char) :=
  match cs with
  | '"' :: rest => readBasic [] (rest.length + 1) rest
  | '\'' :: rest => readLiteral rest
  | _ =>
    let name := cs.takeWhile isBareChar
    if name.isEmpty then .error .key else .ok (String.ofList name, cs.drop name.length)

/-- The parts of a key between dots; there may be fewer than eighty. -/
def readKey : Nat → List Char → Except Fault (List String × List Char)
  | 0, _ => .error .depth
  | more + 1, cs => do
    let (part, rest) ← readKeyPart (cs.dropWhile isBlank)
    match rest.dropWhile isBlank with
    | '.' :: rest => do
      let (parts, rest) ← readKey more rest
      .ok (part :: parts, rest)
    | rest => .ok ([part], rest)

end WorkflowEngine.Toml
