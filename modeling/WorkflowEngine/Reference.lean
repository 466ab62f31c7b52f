import WorkflowEngine.Text.Pieces

/-! References to workflows.

A reference names a workflow document as an author writes it. Slashes and backslashes both separate
its segments; empty segments do not count, and the file extension may be left out. A reference that
starts with one or two dots and a separator is relative to the document it stands in, and every other
one is anchored at the root.
-/

set_option autoImplicit false

namespace WorkflowEngine

structure Reference where
  text : String
  deriving DecidableEq

inductive ReferenceKind where
  | relative
  | rootAnchored
  deriving DecidableEq

namespace Reference

def isSeparator (c : Char) : Bool := c == '/' || c == '\\'

/-- One or two dots and a separator, at the start of a text. -/
def startsRelative : List Char → Bool
  | '.' :: '.' :: c :: _ => isSeparator c
  | '.' :: c :: _ => isSeparator c
  | _ => false

def kind (r : Reference) : ReferenceKind :=
  if startsRelative (Text.trimChars r.text.toList) then .relative else .rootAnchored

def segmentsOf (cs : List Char) : List (List Char) :=
  (Text.pieces isSeparator cs).filter fun piece => !piece.isEmpty

/-- The non-empty pieces between separators, blanks at both ends left out. -/
def segments (r : Reference) : List String :=
  (segmentsOf (Text.trimChars r.text.toList)).map String.ofList

/-- A name with the extension, which is put behind it unless it already ends it and something comes
before it. -/
def withExtension (extension name : String) : String :=
  let suffix := '.' :: extension.toList
  match Text.beforeFinish? suffix name.toList with
  | some (_ :: _) => name
  | _ => String.ofList (name.toList ++ suffix)

def fileName? (r : Reference) (extension : String) : Option String :=
  r.segments.getLast?.map (withExtension extension)

end Reference

end WorkflowEngine
