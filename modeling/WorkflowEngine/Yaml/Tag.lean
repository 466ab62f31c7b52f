import WorkflowEngine.Yaml.Glyph
import WorkflowEngine.Yaml.Token

/-! Tags, anchors and directives as written.

A tag is a handle and a suffix, or a whole tag between angle brackets. Percent signs in suffixes
stand before the bytes of a character in UTF-8. Directives give a version or a handle.
-/

set_option autoImplicit false

namespace WorkflowEngine.Yaml

def hexDigit? (c : Char) : Option Nat :=
  let n := c.toNat
  if 0x30 ≤ n && n ≤ 0x39 then some (n - 0x30)
  else if 0x41 ≤ n && n ≤ 0x46 then some (n - 0x37)
  else if 0x61 ≤ n && n ≤ 0x66 then some (n - 0x57)
  else none

def readByte? : Rest → Option (Nat × Rest)
  | p :: a :: b :: rest =>
    match p.char, hexDigit? a.char, hexDigit? b.char with
    | '%', some high, some low => some (high * 16 + low, rest)
    | _, _, _ => none
  | _ => none

/-- How many bytes follow a first byte, and the bits that it gives. -/
def firstByte? (byte : Nat) : Option (Nat × Nat) :=
  if byte < 0x80 then some (0, byte)
  else if byte / 0x20 == 0x6 then some (1, byte % 0x20)
  else if byte / 0x10 == 0xE then some (2, byte % 0x10)
  else if byte / 0x08 == 0x1E then some (3, byte % 0x08)
  else none

def readFurtherBytes? (value : Nat) : Nat → Rest → Option (Nat × Rest)
  | 0, rest => some (value, rest)
  | more + 1, rest => do
    let (byte, rest) ← readByte? rest
    if byte / 0x40 == 0x2 then readFurtherBytes? (value * 0x40 + byte % 0x40) more rest else none

def readEscapedChar? (rest : Rest) : Option (Char × Rest) := do
  let (byte, rest) ← readByte? rest
  let (more, bits) ← firstByte? byte
  let (code, rest) ← readFurtherBytes? bits more rest
  return (Char.ofNat code, rest)

/-- The characters of a tag. Those that have a meaning inside brackets are allowed on request. -/
def isTagChar (brackets : Bool) (c : Char) : Bool :=
  isWordChar c || [';', '/', '?', ':', '@', '&', '=', '+', '$', '.', '!', '~', '*', '\'', '(',
    ')'].contains c || (brackets && [',', '[', ']'].contains c)

def readTagChars (brackets : Bool) : Nat → Rest → Except Fault (List Char × Rest)
  | 0, rest => .ok ([], rest)
  | more + 1, rest =>
    if rest.next == '%' then
      match readEscapedChar? rest with
      | none => .error .tag
      | some (c, rest) => do
        let (cs, rest) ← readTagChars brackets more rest
        .ok (c :: cs, rest)
    else if isTagChar brackets rest.next && !isEnd rest.next then do
      let (cs, rest') ← readTagChars brackets more (rest.drop 1)
      .ok (rest.next :: cs, rest')
    else .ok ([], rest)

def readTagText (brackets : Bool) (rest : Rest) : Except Fault (List Char × Rest) :=
  readTagChars brackets rest.length rest

def readHandle (rest : Rest) : Except Fault (List Char × Rest) :=
  if rest.next == '!' then
    let (word, rest) := Rest.takeWhile (rest.drop 1) isWordChar
    if rest.next == '!' then .ok ('!' :: word ++ ['!'], rest.drop 1) else .ok ('!' :: word, rest)
  else .error .tag

def tagToken (handle suffix : List Char) : Token :=
  .tag (String.ofList handle) (String.ofList suffix)

def isNamedHandle (handle : List Char) : Bool :=
  1 < handle.length && handle.getLast? == some '!'

def readTag (inFlow : Bool) (rest : Rest) : Except Fault (Token × Rest) := do
  let ((token, rest) : Token × Rest) ←
    if rest.ahead 1 == '<' then do
      let (whole, rest) ← readTagText true (rest.drop 2)
      if whole.isEmpty || rest.next != '>' then .error .tag
      else .ok (tagToken [] whole, rest.drop 1)
    else do
      let (handle, rest) ← readHandle rest
      let (suffix, rest) ← readTagText false rest
      if isNamedHandle handle then
        if suffix.isEmpty then .error .tag else .ok (tagToken handle suffix, rest)
      else
        match handle.drop 1 ++ suffix with
        | [] => .ok (tagToken [] ['!'], rest)
        | suffix => .ok (tagToken ['!'] suffix, rest)
  if isGap rest.next || (inFlow && rest.next == ',') then .ok (token, rest) else .error .tag

def readAnchorName (rest : Rest) : Except Fault (String × Rest) :=
  let (name, rest) := rest.takeWhile isWordChar
  let ends := isGap rest.next || ['?', ':', ',', ']', '}', '%', '@', '`'].contains rest.next
  if name.isEmpty || !ends then .error .anchor else .ok (String.ofList name, rest)

def readVersionNumber (rest : Rest) : Except Fault (Nat × Rest) :=
  let (digits, rest) := rest.takeWhile Char.isDigit
  if digits.isEmpty || 9 < digits.length then .error .directive
  else .ok (digits.foldl (fun n c => n * 10 + (c.toNat - 0x30)) 0, rest)

def readDirective (rest : Rest) : Except Fault (Token × Rest) := do
  let (name, rest) := rest.takeWhile isWordChar
  if name.isEmpty || !isGap rest.next then .error .directive
  else
    let rest := rest.skipWhile isBlankChar
    let ((token, rest) : Token × Rest) ←
      if name == "YAML".toList then do
        let (major, rest) ← readVersionNumber rest
        if rest.next != '.' then .error .directive
        else do
          let (minor, rest) ← readVersionNumber (rest.drop 1)
          .ok (Token.version major minor, rest)
      else if name == "TAG".toList then do
        let (handle, rest) ← readHandle rest
        if !(isNamedHandle handle || handle == ['!']) || !isBlankChar rest.next then
          .error .directive
        else do
          let (start, rest) ← readTagText true (rest.skipWhile isBlankChar)
          if start.isEmpty || !isGap rest.next then .error .directive
          else .ok (Token.tagHandle (String.ofList handle) (String.ofList start), rest)
      else .error .directive
    let rest := rest.skipWhile isBlankChar
    let rest := if rest.next == '#' then rest.skipWhile fun c => !isBreakOrEnd c else rest
    if isBreakOrEnd rest.next then .ok (token, if isBreak rest.next then rest.drop 1 else rest)
    else .error .directive

end WorkflowEngine.Yaml
