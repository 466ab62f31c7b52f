import WorkflowEngine.Path.Lexical
import WorkflowEngine.Text.Bytes

/-! Paths in bytes.

The system keeps a path as bytes, and only the byte of a slash has a meaning in it. What stands between the slashes
need not be a text; printed, it is shown as one, so different paths can be printed alike. A path that is a text is
located as its bytes are.
-/

set_option autoImplicit false

namespace WorkflowEngine

structure RawPath where
  bytes : List UInt8
  deriving DecidableEq

structure RawLocation where
  names : List (List UInt8)
  deriving DecidableEq

def Path.raw (p : Path) : RawPath := ⟨Text.bytes p.text⟩

def Location.raw (l : Location) : RawLocation := ⟨l.names.map Text.bytes⟩

namespace RawPath

def isSlash (b : UInt8) : Bool := decide (b = 0x2f)

def isAbsolute (p : RawPath) : Bool := p.bytes.head?.any isSlash

def endsWithSlash (p : RawPath) : Bool := p.bytes.getLast?.any isSlash

def pieces (p : RawPath) : List (List UInt8) := Text.pieces isSlash p.bytes

/-- A path continued by another, as texts are: see `Path.join`. -/
def join (p q : RawPath) : RawPath :=
  if q.isAbsolute then q
  else if p.bytes.isEmpty || p.endsWithSlash then ⟨p.bytes ++ q.bytes⟩
  else ⟨p.bytes ++ 0x2f :: q.bytes⟩

def text (p : RawPath) : String := Text.ofBytes p.bytes

/-- Take a piece on the names descended to, the last of which stands in front. -/
def descend (names : List (List UInt8)) (piece : List UInt8) : Option (List (List UInt8)) :=
  if piece = Text.bytes "" ∨ piece = Text.bytes "." then some names
  else if piece = Text.bytes ".." then
    match names with
    | [] => none
    | _ :: above => some above
  else some (piece :: names)

def spelledLocation (p : RawPath) : Except SpellingFault RawLocation :=
  if p.isAbsolute then
    match p.pieces.foldlM descend [] with
    | some names => .ok ⟨names.reverse⟩
    | none => .error (.climbsAboveTop ⟨p.text⟩)
  else .error (.notAbsolute ⟨p.text⟩)

end RawPath

namespace RawLocation

def path (l : RawLocation) : RawPath :=
  match l.names with
  | [] => ⟨[0x2f]⟩
  | names => ⟨names.flatMap (0x2f :: ·)⟩

def text (l : RawLocation) : String := l.path.text

/-- The location that is printed like this one. -/
def shown (l : RawLocation) : Location := ⟨l.names.map Text.ofBytes⟩

def isUnder (l root : RawLocation) : Bool := root.names.isPrefixOf l.names

end RawLocation

end WorkflowEngine
