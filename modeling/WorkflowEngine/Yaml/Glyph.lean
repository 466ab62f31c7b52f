import WorkflowEngine.Yaml.Fault

/-! Characters with their places.

A text becomes a list of glyphs, each a character with its line and column. Every line break but the
two Unicode separators reads as a line feed, and a null character ends the list.
-/

set_option autoImplicit false

namespace WorkflowEngine.Yaml

structure Glyph where
  char : Char
  line : Nat
  column : Nat
  /-- The count of characters before it. -/
  index : Nat

def byteOrderMark : Char := '\uFEFF'

def isAllowed (c : Char) : Bool :=
  let n := c.toNat
  n == 0x09 || n == 0x0A || n == 0x0D || (0x20 ≤ n && n ≤ 0x7E) || n == 0x85 ||
    (0xA0 ≤ n && n ≤ 0xD7FF) || (0xE000 ≤ n && n ≤ 0xFFFD) || 0x10000 ≤ n

def isBlankChar (c : Char) : Bool := c == ' ' || c == '\t'

def isBreak (c : Char) : Bool := c == '\n' || c == '\u2028' || c == '\u2029'

def isEnd (c : Char) : Bool := c == '\x00'

def isBreakOrEnd (c : Char) : Bool := isBreak c || isEnd c

def isGap (c : Char) : Bool := isBlankChar c || isBreakOrEnd c

def isWordChar (c : Char) : Bool := c.isAlphanum || c == '_' || c == '-'

/-- Lay out characters from a place on, in front of glyphs collected in reverse. -/
def layOut (line column index : Nat) (done : List Glyph) : List Char → List Glyph
  | [] => (⟨'\x00', line, column, index⟩ :: done).reverse
  | '\r' :: '\n' :: rest =>
    layOut (line + 1) 0 (index + 2) (⟨'\n', line, column, index⟩ :: done) rest
  | c :: rest =>
    if c == '\r' || c == '\u0085' then
      layOut (line + 1) 0 (index + 1) (⟨'\n', line, column, index⟩ :: done) rest
    else if isBreak c then layOut (line + 1) 0 (index + 1) (⟨c, line, column, index⟩ :: done) rest
    else layOut line (column + 1) (index + 1) (⟨c, line, column, index⟩ :: done) rest

def glyphs (text : String) : Except Fault (List Glyph) :=
  let cs := match text.toList with
    | c :: rest => if c == byteOrderMark then rest else c :: rest
    | [] => []
  if cs.all isAllowed then .ok (layOut 0 0 0 [] cs) else .error .character

abbrev Rest := List Glyph

namespace Rest

def next : Rest → Char
  | g :: _ => g.char
  | [] => '\x00'

def ahead (rest : Rest) (places : Nat) : Char := next (rest.drop places)

def column : Rest → Nat
  | g :: _ => g.column
  | [] => 0

def line : Rest → Nat
  | g :: _ => g.line
  | [] => 0

def index : Rest → Nat
  | g :: _ => g.index
  | [] => 0

def takeWhile (rest : Rest) (allowed : Char → Bool) : List Char × Rest :=
  ((List.takeWhile (fun g => allowed g.char) rest).map Glyph.char,
    List.dropWhile (fun g => allowed g.char) rest)

def skipWhile (rest : Rest) (skipped : Char → Bool) : Rest :=
  List.dropWhile (fun g => skipped g.char) rest

/-- Three hyphens or three dots alone at the start of a line. -/
def isDocumentMark (rest : Rest) : Bool :=
  rest.column == 0 && (rest.next == '-' || rest.next == '.') && rest.ahead 1 == rest.next &&
    rest.ahead 2 == rest.next && isGap (rest.ahead 3)

end Rest

end WorkflowEngine.Yaml
