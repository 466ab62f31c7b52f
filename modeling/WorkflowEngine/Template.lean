import WorkflowEngine.Text.Blank

/-! Text with placeholders.

A template is read from left to right. An opener, a dollar sign before a brace, starts a placeholder
that runs to the first closing brace; openers inside it belong to its name. An opener that is never
closed leaves the rest of the text open. The pieces together spell the text.
-/

set_option autoImplicit false

namespace WorkflowEngine.Template

inductive Piece where
  /-- Text without an opener. -/
  | literal (text : List Char)
  /-- The name between opener and brace, as written. -/
  | placeholder (name : List Char)
  /-- What follows an opener that is never closed. -/
  | unclosed (rest : List Char)
  deriving DecidableEq

def opener : List Char := ['$', '{']

def Piece.written : Piece → List Char
  | .literal text => text
  | .placeholder name => opener ++ name ++ ['}']
  | .unclosed rest => opener ++ rest

/-- Put a character in front, into the literal that stands there if one does. -/
def addLiteral (c : Char) : List Piece → List Piece
  | .literal text :: rest => .literal (c :: text) :: rest
  | pieces => .literal [c] :: pieces

/-- Read on, either outside a placeholder or inside one whose name so far is given in reverse. -/
def scan : Option (List Char) → List Char → List Piece
  | none, [] => []
  | none, '$' :: '{' :: rest => scan (some []) rest
  | none, c :: rest => addLiteral c (scan none rest)
  | some name, [] => [.unclosed name.reverse]
  | some name, '}' :: rest => .placeholder name.reverse :: scan none rest
  | some name, c :: rest => scan (some (c :: name)) rest

def pieces (text : List Char) : List Piece := scan none text

def hasOpener : List Char → Bool
  | '$' :: '{' :: _ => true
  | _ :: rest => hasOpener rest
  | [] => false

/-- The trimmed name, when the text is exactly one placeholder with no opener in its name. -/
def soleName? (text : List Char) : Option (List Char) :=
  match pieces text with
  | [.placeholder name] => if hasOpener name then none else some (Text.trimChars name)
  | _ => none

theorem flatMap_written_addLiteral (c : Char) (rest : List Piece) :
    (addLiteral c rest).flatMap Piece.written = c :: rest.flatMap Piece.written := by
  cases rest with
  | nil => rfl
  | cons piece rest => cases piece <;> rfl

/-- What a scan has still to spell. -/
def pendingText : Option (List Char) → List Char
  | none => []
  | some name => opener ++ name.reverse

theorem flatMap_written_scan (mode : Option (List Char)) (text : List Char) :
    (scan mode text).flatMap Piece.written = pendingText mode ++ text := by
  fun_induction scan mode text with
  | case1 => rfl
  | case2 rest ih => simpa [pendingText, opener] using ih
  | case3 c rest _ ih => simpa [pendingText, flatMap_written_addLiteral] using ih
  | case4 name => simp [pendingText, Piece.written]
  | case5 name rest ih => simpa [pendingText, Piece.written] using ih
  | case6 name c rest _ ih => simpa [pendingText] using ih

theorem flatMap_written_pieces (text : List Char) :
    (pieces text).flatMap Piece.written = text :=
  flatMap_written_scan none text

end WorkflowEngine.Template
