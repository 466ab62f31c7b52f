import WorkflowEngine.FileSystem

/-! Finding documents below a directory.

Directories are looked into down to a depth, links followed. A document is a file whose name has the
extension that is asked for. What cannot be read is passed over.
-/

set_option autoImplicit false

namespace WorkflowEngine.FileSystem

def below (root : Path) (names : List String) : Path :=
  names.foldl (fun path name => path.join ⟨name⟩) root

/-- The names of the documents directly in a directory and, to a depth, in those below it. Each is
given with the names of the directories that lead to it. -/
def documentsBelow (fs : FileSystem) (root : Path) (extension : String) :
    Nat → List String → List (List String)
  | depth, above =>
    let names := (fs.list? (below root above)).getD []
    let directories := names.filter fun name => fs.isDirectory (below root (above ++ [name]))
    let files := names.filter fun name =>
      (Location.cutExtension name).2 = some extension && fs.isFile (below root (above ++ [name]))
    files.map (fun name => above ++ [name]) ++
      match depth with
      | 0 => []
      | depth + 1 => directories.flatMap fun name =>
          fs.documentsBelow root extension depth (above ++ [name])

def discover (fs : FileSystem) (root : Path) (extension : String) (depth : Nat) :
    List (List String) :=
  (Dictionary.ofList ((fs.documentsBelow root extension depth []).map fun names => (names, ()))).keys

end WorkflowEngine.FileSystem
