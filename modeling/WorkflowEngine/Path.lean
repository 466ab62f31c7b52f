import WorkflowEngine.Text.Pieces

/-! Paths as they are written.

A path is a text whose pieces lie between slashes. It says where to look for a file, relative to a
directory unless it starts with a slash; two paths may lead to one file. The system keeps paths as
bytes, and those that are no text are not paths here: they are in `WorkflowEngine.Path.Raw`.
-/

set_option autoImplicit false

namespace WorkflowEngine

structure Path where
  text : String
  deriving DecidableEq

namespace Path

def isSlash (c : Char) : Bool := c == '/'

def isAbsolute (p : Path) : Bool :=
  match p.text.toList with
  | c :: _ => isSlash c
  | [] => false

def isEmpty (p : Path) : Bool := p.text.toList.isEmpty

/-- What lies between the slashes, empty pieces and dots included. -/
def pieces (p : Path) : List String :=
  (Text.pieces isSlash p.text.toList).map String.ofList

def endsWithSlash (p : Path) : Bool :=
  match p.text.toList.getLast? with
  | some c => isSlash c
  | none => false

/-- A path continued by another. A slash goes between them unless one is there or nothing comes
before it; an absolute path is not continued but replaced. -/
def join (p q : Path) : Path :=
  if q.isAbsolute then q
  else if p.isEmpty || p.endsWithSlash then ⟨p.text ++ q.text⟩
  else ⟨p.text ++ "/" ++ q.text⟩

/-- A piece that names nothing: an empty one, or a single dot. -/
def isIdle (piece : String) : Bool := piece == "" || piece == "."

/-- Drop idle pieces at the end, but not the first piece. -/
def dropIdleEnd : List String → List String
  | [] => []
  | first :: rest => first :: (rest.reverse.dropWhile isIdle).reverse

def ofPieces (pieces : List String) : Path :=
  match pieces with
  | [""] => ⟨"/"⟩
  | _ => ⟨String.intercalate "/" pieces⟩

def parent (p : Path) : Path :=
  match (dropIdleEnd p.pieces).dropLast with
  | [] => ⟨""⟩
  | pieces => ofPieces (dropIdleEnd pieces)

def fileName? (p : Path) : Option String :=
  match (p.pieces.filter fun piece => !isIdle piece).getLast? with
  | some ".." => none
  | found => found

end Path

end WorkflowEngine
