import WorkflowEngine.FileSystem
import WorkflowEngine.Path.Lexical

/-! Normal locations of paths.

A path is given one location either by its spelling alone or by following links. In the second mode
the deepest part of the spelled location that exists is replaced by its real location, and the
missing names are kept as spelled.
-/

set_option autoImplicit false

namespace WorkflowEngine

inductive Normalization where
  | lexical
  | filesystem
  deriving DecidableEq

inductive NormalFault where
  | spelling (fault : SpellingFault)
  | unlocated (path : Path) (fault : FileFault)
  deriving DecidableEq

def NormalFault.message : NormalFault → String
  | .spelling fault => fault.message
  | .unlocated path fault => "failed to canonicalize '" ++ path.text ++ "': " ++ fault.message

namespace FileSystem

/-- Cut a location, its names in reverse, into the part that exists and the names missing there. -/
def existingPart (fs : FileSystem) : List String → Location × List String
  | [] => (.top, [])
  | name :: above =>
    let here : Location := ⟨above.reverse ++ [name]⟩
    -- A link that leads nowhere counts as missing, as does one that leads to itself.
    if fs.isPresent here.path then (here, [])
    else
      let (found, missing) := fs.existingPart above
      (found, missing ++ [name])

def realLocation (fs : FileSystem) (l : Location) : Except NormalFault Location :=
  let (found, missing) := fs.existingPart l.names.reverse
  match fs.locate found.path with
  | .ok real => .ok ⟨real.names ++ missing⟩
  | .error fault => .error (.unlocated found.path fault)

def normalLocation (fs : FileSystem) (mode : Normalization) (p : Path) :
    Except NormalFault Location :=
  match p.spelledLocation with
  | .error fault => .error (.spelling fault)
  | .ok l =>
    match mode with
    | .lexical => .ok l
    | .filesystem => fs.realLocation l

end FileSystem

end WorkflowEngine
