import WorkflowEngine.Yaml.Glyph

/-! Texts that are folded over lines.

Plain and quoted texts may go over several lines. Blanks around a break are dropped, a single break
becomes a space, and further breaks are kept. Block texts keep the lines below an indentation, each
break as it is or folded.
-/

set_option autoImplicit false

namespace WorkflowEngine.Yaml

/-- A text read so far, with the blanks and breaks behind it that may turn out to be inside it. -/
structure Folding where
  /-- The text in reverse. -/
  text : List Char
  /-- Blanks in reverse, as long as no break was met. -/
  blanks : List Char
  /-- The first break. -/
  firstBreak : Option Char
  /-- The breaks after the first, in reverse. -/
  laterBreaks : List Char
  /-- A break was met since the last character of the text. -/
  broken : Bool

namespace Folding

def empty : Folding := ⟨[], [], none, [], false⟩

def hasGap (f : Folding) : Bool := f.broken || !f.blanks.isEmpty

def addBlank (f : Folding) (c : Char) : Folding :=
  if f.broken then f else { f with blanks := c :: f.blanks }

def addBreak (f : Folding) (c : Char) : Folding :=
  if f.broken then { f with laterBreaks := c :: f.laterBreaks }
  else { f with blanks := [], firstBreak := some c, broken := true }

def join (f : Folding) : Folding :=
  let gap :=
    if f.broken then
      if f.firstBreak = some '\n' then
        if f.laterBreaks.isEmpty then [' '] else f.laterBreaks
      else f.laterBreaks ++ f.firstBreak.toList
    else f.blanks
  ⟨gap ++ f.text, [], none, [], false⟩

def add (f : Folding) (c : Char) : Folding :=
  let joined := if f.hasGap then f.join else f
  { joined with text := c :: joined.text }

def result (f : Folding) : String := String.ofList f.text.reverse

end Folding

def isFlowEnd (c : Char) : Bool := c == ',' || c == '[' || c == ']' || c == '{' || c == '}'

/-- Read a plain text, inside brackets or not, whose further lines are indented at least so far. The
gap behind the text shows whether a line has ended. -/
def readPlain (inFlow : Bool) (indent : Int) (f : Folding) : Rest → Except Fault (Folding × Rest)
  | [] => .ok (f, [])
  | g :: rest =>
    if isEnd g.char then .ok (f, g :: rest)
    else if isBlankChar g.char then
      -- A tab cannot make up the indentation of a further line.
      if f.broken && g.char == '\t' && decide ((g.column : Int) < indent) then .error .indentation
      else readPlain inFlow indent (f.addBlank g.char) rest
    else if isBreak g.char then readPlain inFlow indent (f.addBreak g.char) rest
    else if f.hasGap && !inFlow && decide ((g.column : Int) < indent) then .ok (f, g :: rest)
    else if Rest.isDocumentMark (g :: rest) || (f.hasGap && g.char == '#') then .ok (f, g :: rest)
    -- Such a colon is neither text nor the sign of a value.
    else if inFlow && g.char == ':' && (Rest.next rest == '?' || isFlowEnd (Rest.next rest)) then
      .error .strayCharacter
    else if (g.char == ':' && isGap (Rest.next rest)) || (inFlow && isFlowEnd g.char) then
      .ok (f, g :: rest)
    else readPlain inFlow indent (f.add g.char) rest

inductive QuoteMode where
  | text
  /-- After a quote inside a text between apostrophes. -/
  | quote
  | backslash
  /-- Hexadecimal digits still to come, and the code read so far. -/
  | code (digits : Nat) (value : Nat)

def escaped? (c : Char) : Option Char :=
  [('0', '\x00'), ('a', '\x07'), ('b', '\x08'), ('t', '\t'), ('\t', '\t'), ('n', '\n'),
    ('v', '\x0b'), ('f', '\x0c'), ('r', '\r'), ('e', '\x1b'), (' ', ' '), ('"', '"'), ('/', '/'),
    ('\\', '\\'), ('N', '\u0085'), ('_', '\u00a0'), ('L', '\u2028'), ('P', '\u2029')].lookup c

def hexValue? (c : Char) : Option Nat :=
  if '0' ≤ c ∧ c ≤ '9' then some (c.toNat - '0'.toNat)
  else if 'a' ≤ c ∧ c ≤ 'f' then some (c.toNat - 'a'.toNat + 10)
  else if 'A' ≤ c ∧ c ≤ 'F' then some (c.toNat - 'A'.toNat + 10)
  else none

def readQuoted (single : Bool) (mode : QuoteMode) (f : Folding) :
    Rest → Except Fault (Folding × Rest)
  | [] => .error .text
  | g :: rest =>
    match mode with
    | .quote =>
      if g.char == '\'' then readQuoted single .text (f.add '\'') rest
      else .ok (if f.hasGap then f.join else f, g :: rest)
    | .backslash =>
      if isBreak g.char then
        readQuoted single .text { (if f.hasGap then f.join else f) with broken := true } rest
      else if g.char == 'x' then readQuoted single (.code 2 0) f rest
      else if g.char == 'u' then readQuoted single (.code 4 0) f rest
      else if g.char == 'U' then readQuoted single (.code 8 0) f rest
      else match escaped? g.char with
        | some c => readQuoted single .text (f.add c) rest
        | none => .error .text
    | .code digits value =>
      match hexValue? g.char with
      | none => .error .text
      | some digit =>
        let value := value * 16 + digit
        if 1 < digits then readQuoted single (.code (digits - 1) value) f rest
        else if (0xD800 ≤ value && value ≤ 0xDFFF) || 0x10FFFF < value then .error .text
        else readQuoted single .text (f.add (Char.ofNat value)) rest
    | .text =>
      if isEnd g.char then .error .text
      else if isBlankChar g.char then readQuoted single .text (f.addBlank g.char) rest
      else if isBreak g.char then readQuoted single .text (f.addBreak g.char) rest
      else if Rest.isDocumentMark (g :: rest) then .error .text
      else if single && g.char == '\'' then readQuoted single .quote f rest
      else if !single && g.char == '"' then .ok (if f.hasGap then f.join else f, rest)
      else if !single && g.char == '\\' then readQuoted single .backslash f rest
      else readQuoted single .text (f.add g.char) rest

inductive Chomping where
  | strip
  | clip
  | keep

def chomping? (c : Char) : Option Chomping :=
  if c == '+' then some .keep else if c == '-' then some .strip else none

def readHeader (rest : Rest) : Except Fault (Chomping × Option Nat × Rest) := do
  let increment (rest : Rest) : Except Fault (Option Nat × Rest) :=
    if rest.next == '0' then .error .blockHeader
    else if rest.next.isDigit then .ok (hexValue? rest.next, rest.drop 1)
    else .ok (none, rest)
  let (chomping, indent, rest) ← match chomping? rest.next with
    | some chomping => do
      let (indent, rest) ← increment (rest.drop 1)
      .ok (chomping, indent, rest)
    | none => do
      let (indent, rest) ← increment rest
      match indent, chomping? rest.next with
      | some _, some chomping => .ok (chomping, indent, rest.drop 1)
      | _, _ => .ok (.clip, indent, rest)
  let rest := rest.skipWhile isBlankChar
  let rest := if rest.next == '#' then rest.skipWhile fun c => !isBreakOrEnd c else rest
  if isBreakOrEnd rest.next then
    .ok (chomping, indent, if isBreak rest.next then rest.drop 1 else rest)
  else .error .blockHeader

/-- Read empty lines, up to an indentation if one is known. The widest column met, the breaks in
reverse, and what follows. -/
def readEmptyLines (indent : Option Nat) (widest : Nat) (breaks : List Char) :
    Rest → Except Fault (Nat × List Char × Rest)
  | [] => .ok (widest, breaks, [])
  | g :: rest =>
    let inside := indent.all fun indent => g.column < indent
    if inside && g.char == ' ' then readEmptyLines indent widest breaks rest
    else
      let widest := max widest g.column
      if inside && g.char == '\t' then .error .indentation
      else if isBreak g.char then readEmptyLines indent widest (g.char :: breaks) rest
      else .ok (widest, breaks, g :: rest)

structure BlockText where
  text : List Char
  /-- The break behind the last line. -/
  lastBreak : Option Char
  /-- The breaks of the empty lines behind it, in reverse. -/
  emptyLines : List Char
  /-- The last line starts with a blank. -/
  blankStart : Bool

/-- Read the lines at an indentation. Each takes a character, so the glyphs left bound them. -/
def readLines (literal : Bool) (indent : Nat) (t : BlockText) :
    Nat → Rest → Except Fault (BlockText × Rest)
  | 0, rest => .ok (t, rest)
  | more + 1, rest =>
    if rest.column == indent && !isEnd rest.next then do
      let blank := isBlankChar rest.next
      -- A break is folded only between two lines that both start with a character.
      let folds := !literal && t.lastBreak = some '\n' && !t.blankStart && !blank
      let text :=
        if folds then if t.emptyLines.isEmpty then ' ' :: t.text else t.text
        else t.lastBreak.toList ++ t.text
      let (line, rest) := rest.takeWhile fun c => !isBreakOrEnd c
      let lastBreak := if isBreak rest.next then some rest.next else none
      let (_, breaks, rest) ←
        readEmptyLines (some indent) 0 [] (if isBreak rest.next then rest.drop 1 else rest)
      readLines literal indent
        ⟨line.reverse ++ (t.emptyLines ++ text), lastBreak, breaks, blank⟩ more rest
    else .ok (t, rest)

/-- Read a block text behind its indicator. Without an indentation of its own it is indented as its
first line, and always deeper than what holds it. -/
def readBlock (literal : Bool) (outer : Int) (rest : Rest) : Except Fault (String × Rest) := do
  let (chomping, increment, rest) ← readHeader rest
  let base := outer.toNat
  let known := increment.map (base + ·)
  let (widest, breaks, rest) ← readEmptyLines known 0 [] rest
  let indent := known.getD (max widest (max (outer + 1).toNat 1))
  let (t, rest) ← readLines literal indent ⟨[], none, breaks, false⟩ (rest.length + 1) rest
  let ended := match chomping with
    | .strip => t.text
    | .clip => t.lastBreak.toList ++ t.text
    | .keep => t.emptyLines ++ (t.lastBreak.toList ++ t.text)
  .ok (String.ofList ended.reverse, rest)

end WorkflowEngine.Yaml
