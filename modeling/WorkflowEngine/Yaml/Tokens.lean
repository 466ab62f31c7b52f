import WorkflowEngine.Yaml.Folding
import WorkflowEngine.Yaml.Tag

/-! From glyphs to tokens.

Block collections start and end by indentation. A key needs no indicator in front of it: when the
colon behind it is met, the key token is put in front of what was read since, provided that is on the
same line and not too long ago.
-/

set_option autoImplicit false

namespace WorkflowEngine.Yaml

/-- A place where a key without indicator may have started. -/
structure PossibleKey where
  /-- A colon has to follow, for nothing else may stand at this indentation. -/
  required : Bool
  /-- How many tokens stand before it. -/
  position : Nat
  line : Nat
  column : Nat
  index : Nat

structure Scan where
  rest : Rest
  tokens : Array Token
  /-- The indentation of the innermost block collection, and those around it. -/
  indent : Int
  outerIndents : List Int
  keyAllowed : Bool
  key : Option PossibleKey
  /-- The possible keys around the open brackets. -/
  outerKeys : List (Option PossibleKey)

namespace Scan

def inFlow (s : Scan) : Bool := !s.outerKeys.isEmpty

def emit (s : Scan) (token : Token) : Scan := { s with tokens := s.tokens.push token }

def take (s : Scan) (count : Nat) (token : Token) : Scan :=
  { s.emit token with rest := s.rest.drop count }

/-- Skip blanks, comments and breaks. A break outside brackets makes a key possible; there and where
a key is possible, a tab is no blank. -/
def toNext (inFlow inComment keyAllowed : Bool) : Rest → Bool × Rest
  | [] => (keyAllowed, [])
  | g :: rest =>
    if isBreak g.char then toNext inFlow false (keyAllowed || !inFlow) rest
    else if inComment && !isEnd g.char then toNext inFlow true keyAllowed rest
    else if g.char == byteOrderMark && g.column == 0 then toNext inFlow false keyAllowed rest
    else if g.char == ' ' then toNext inFlow false keyAllowed rest
    else if g.char == '\t' && (inFlow || !keyAllowed) then toNext inFlow false keyAllowed rest
    else if g.char == '#' then toNext inFlow true keyAllowed rest
    else (keyAllowed, g :: rest)

/-- A possible key that is out of reach is given up. -/
def expire (rest : Rest) : Option PossibleKey → Except Fault (Option PossibleKey)
  | none => .ok none
  | some key =>
    if key.line < rest.line || key.index + 1024 < rest.index then
      if key.required then .error .key else .ok none
    else .ok (some key)

def expireKeys (s : Scan) : Except Fault Scan := do
  let key ← expire s.rest s.key
  let outerKeys ← s.outerKeys.mapM (expire s.rest)
  .ok { s with key, outerKeys }

def dropKey (s : Scan) : Except Fault Scan :=
  match s.key with
  | some key => if key.required then .error .key else .ok { s with key := none }
  | none => .ok s

def saveKey (s : Scan) : Except Fault Scan :=
  if s.keyAllowed then do
    let s ← s.dropKey
    let required := !s.inFlow && s.indent == (s.rest.column : Int)
    let key : PossibleKey :=
      ⟨required, s.tokens.size, s.rest.line, s.rest.column, s.rest.index⟩
    .ok { s with key := some key }
  else .ok s

/-- Start a block collection if a column is deeper than the current indentation. Its token goes to
the end or to a given position. -/
def indentTo (s : Scan) (column : Nat) (position : Option Nat) (token : Token) : Scan :=
  if !s.inFlow && s.indent < (column : Int) then
    let tokens := match position with
      | some position => s.tokens.insertIdxIfInBounds position token
      | none => s.tokens.push token
    { s with tokens, indent := column, outerIndents := s.indent :: s.outerIndents }
  else s

/-- End the block collections that are deeper than a column, given the indentations around them. -/
def closeTo (column : Int) (tokens : Array Token) (indent : Int) :
    List Int → Array Token × Int × List Int
  | [] => (tokens, indent, [])
  | outer :: rest =>
    if column < indent then closeTo column (tokens.push .blockEnd) outer rest
    else (tokens, indent, outer :: rest)

def unindentTo (s : Scan) (column : Int) : Scan :=
  if s.inFlow then s
  else
    let (tokens, indent, outerIndents) := closeTo column s.tokens s.indent s.outerIndents
    { s with tokens, indent, outerIndents }

def documentMark (s : Scan) (token : Token) : Except Fault Scan := do
  let s ← (s.unindentTo (-1)).dropKey
  .ok { s.take 3 token with keyAllowed := false }

def openFlow (s : Scan) (token : Token) : Except Fault Scan := do
  let s ← s.saveKey
  .ok { s.take 1 token with key := none, outerKeys := s.key :: s.outerKeys, keyAllowed := true }

def closeFlow (s : Scan) (token : Token) : Except Fault Scan := do
  let s ← s.dropKey
  let (key, outerKeys) := match s.outerKeys with
    | key :: outer => (key, outer)
    | [] => (s.key, [])
  .ok { s.take 1 token with key, outerKeys, keyAllowed := false }

def flowEntry (s : Scan) : Except Fault Scan := do
  let s ← s.dropKey
  .ok { s.take 1 .flowEntry with keyAllowed := true }

def blockEntry (s : Scan) : Except Fault Scan :=
  if !s.inFlow && !s.keyAllowed then .error .key
  else do
    let s ← (s.indentTo s.rest.column none .blockSequence).dropKey
    .ok { s.take 1 .blockEntry with keyAllowed := true }

def keyIndicator (s : Scan) : Except Fault Scan :=
  if !s.inFlow && !s.keyAllowed then .error .key
  else do
    let s ← (s.indentTo s.rest.column none .blockMapping).dropKey
    .ok { s.take 1 .key with keyAllowed := !s.inFlow }

def valueIndicator (s : Scan) : Except Fault Scan :=
  match s.key with
  | some key =>
    -- The key was read as a text or a collection before the colon showed what it is.
    let tokens := s.tokens.insertIdxIfInBounds key.position .key
    let s := { s with tokens }.indentTo key.column (some key.position) .blockMapping
    .ok { s.take 1 .value with key := none, keyAllowed := false }
  | none =>
    -- A colon without a key stands for an empty one.
    if !s.inFlow && !s.keyAllowed then .error .key
    else
      let s := s.indentTo s.rest.column none .blockMapping
      .ok { s.take 1 .value with keyAllowed := !s.inFlow }

def emitRead (s : Scan) (read : Token × Rest) : Scan :=
  { s.emit read.1 with rest := read.2 }

def anchor (s : Scan) (token : String → Token) : Except Fault Scan := do
  let s ← s.saveKey
  let (name, rest) ← readAnchorName (s.rest.drop 1)
  .ok { s.emitRead (token name, rest) with keyAllowed := false }

def tag (s : Scan) : Except Fault Scan := do
  let s ← s.saveKey
  let read ← readTag s.inFlow s.rest
  .ok { s.emitRead read with keyAllowed := false }

def block (s : Scan) (literal : Bool) : Except Fault Scan := do
  let s ← s.dropKey
  let (text, rest) ← readBlock literal s.indent (s.rest.drop 1)
  .ok { s.emitRead (.scalar text false, rest) with keyAllowed := true }

def quoted (s : Scan) (single : Bool) : Except Fault Scan := do
  let s ← s.saveKey
  let (f, rest) ← readQuoted single .text .empty (s.rest.drop 1)
  .ok { s.emitRead (.scalar f.result false, rest) with keyAllowed := false }

def plain (s : Scan) : Except Fault Scan := do
  let s ← s.saveKey
  let (f, rest) ← readPlain s.inFlow (s.indent + 1) .empty s.rest
  .ok { s.emitRead (.scalar f.result true, rest) with keyAllowed := f.broken }

def directive (s : Scan) : Except Fault Scan := do
  let s ← (s.unindentTo (-1)).dropKey
  let read ← readDirective (s.rest.drop 1)
  .ok { s.emitRead read with keyAllowed := false }

def isIndicator (c : Char) : Bool :=
  ['-', '?', ':', ',', '[', ']', '{', '}', '#', '&', '*', '!', '|', '>', '\'', '"', '%', '@',
    '`'].contains c

def startsPlain (s : Scan) : Bool :=
  let c := s.rest.next
  let following := s.rest.ahead 1
  !(isGap c || isIndicator c) || (c == '-' && !isBlankChar following) ||
    (!s.inFlow && (c == '?' || c == ':') && !isGap following)

def token (s : Scan) : Except Fault Scan :=
  let c := s.rest.next
  let indicates := s.inFlow || isGap (s.rest.ahead 1)
  if s.rest.column == 0 && c == '%' then s.directive
  else if s.rest.isDocumentMark then
    s.documentMark (if c == '-' then .documentStart else .documentEnd)
  else if c == '[' then s.openFlow .openSequence
  else if c == '{' then s.openFlow .openMapping
  else if c == ']' then s.closeFlow .closeSequence
  else if c == '}' then s.closeFlow .closeMapping
  else if c == ',' then s.flowEntry
  else if c == '-' && isGap (s.rest.ahead 1) then s.blockEntry
  else if c == '?' && indicates then s.keyIndicator
  else if c == ':' && indicates then s.valueIndicator
  else if c == '*' then s.anchor .alias
  else if c == '&' then s.anchor .anchor
  else if c == '!' then s.tag
  else if c == '|' && !s.inFlow then s.block true
  else if c == '>' && !s.inFlow then s.block false
  else if c == '\'' then s.quoted true
  else if c == '"' then s.quoted false
  else if s.startsPlain then s.plain
  else .error .strayCharacter

/-- Read tokens to the end. Each takes a glyph, so the glyphs bound them. -/
def tokens? : Nat → Scan → Except Fault (Array Token)
  | 0, _ => .error .misplaced
  | more + 1, s => do
    let (keyAllowed, rest) := toNext s.inFlow false s.keyAllowed s.rest
    let s ← { s with keyAllowed, rest }.expireKeys
    -- A token further to the left ends the collections that are deeper.
    let s := s.unindentTo s.rest.column
    if isEnd s.rest.next then
      let s ← (s.unindentTo (-1)).dropKey
      .ok (s.tokens.push .streamEnd)
    else do
      let s ← s.token
      tokens? more s

end Scan

def tokens (text : String) : Except Fault (List Token) := do
  let rest ← glyphs text
  let found ← Scan.tokens? (rest.length + 1) ⟨rest, #[], -1, [], true, none, []⟩
  .ok found.toList

end WorkflowEngine.Yaml
