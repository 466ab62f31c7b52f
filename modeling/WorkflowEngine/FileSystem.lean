import WorkflowEngine.Dictionary
import WorkflowEngine.Location

/-! File systems with symbolic links.

A file system says what stands at each location: a directory, a file or a symbolic link. A path is
looked up piece by piece from a real directory; a link is replaced by its target, and a look-up that
meets a forty-first link fails. What a look-up never reaches does not matter. Whatever is found can be
opened, and a directory listed: nobody is denied it, and no path and no name is too long. All names are
texts.
-/

set_option autoImplicit false

namespace WorkflowEngine

inductive Content where
  | text (value : String)
  /-- Bytes that are no text. -/
  | binary

inductive Entry where
  | directory
  | file (content : Content)
  | link (target : Path)

inductive FileFault where
  | notFound
  | notADirectory
  | isADirectory
  | tooManyLinks
  | notText
  | nulInName
  deriving DecidableEq

def FileFault.message : FileFault → String
  | .notFound => "No such file or directory (os error 2)"
  | .notADirectory => "Not a directory (os error 20)"
  | .isADirectory => "Is a directory (os error 21)"
  | .tooManyLinks => "Too many levels of symbolic links (os error 40)"
  | .notText => "stream did not contain valid UTF-8"
  | .nulInName => "file name contained an unexpected NUL byte"

structure FileSystem where
  entries : Dictionary Location Entry
  /-- Where paths without a leading slash start. -/
  workingDirectory : Location

namespace FileSystem

def empty : FileSystem := ⟨∅, .top⟩

def entryAt? (fs : FileSystem) (l : Location) : Option Entry :=
  match l.names with
  | [] => some .directory
  | _ => fs.entries.find? l

/-- Follow pieces from a real directory. A link hands its target and the pieces that are left to
`jump`, with the directory where they start. -/
def followWith (fs : FileSystem) (jump : List String → List String → Except FileFault Location)
    (here : List String) : List String → Except FileFault Location
  | [] => .ok ⟨here⟩
  | piece :: rest =>
    if Path.isIdle piece then fs.followWith jump here rest
    else if piece = ".." then fs.followWith jump here.dropLast rest
    else match fs.entries.find? ⟨here ++ [piece]⟩ with
      | none => .error .notFound
      | some .directory => fs.followWith jump (here ++ [piece]) rest
      -- Nothing may follow a file, not even an idle piece.
      | some (.file _) => if rest.isEmpty then .ok ⟨here ++ [piece]⟩ else .error .notADirectory
      | some (.link target) => jump (if target.isAbsolute then [] else here) (target.pieces ++ rest)

def follow (fs : FileSystem) : Nat → List String → List String → Except FileFault Location
  | 0 => fs.followWith fun _ _ => .error .tooManyLinks
  | links + 1 => fs.followWith (fs.follow links)

def linkLimit : Nat := 40

def startOf (fs : FileSystem) (p : Path) : List String :=
  if p.isAbsolute then [] else fs.workingDirectory.names

def locate (fs : FileSystem) (p : Path) : Except FileFault Location :=
  if p.text.toList.contains '\x00' then .error .nulInName
  else if p.isEmpty then .error .notFound
  else fs.follow linkLimit (fs.startOf p) p.pieces

def entry? (fs : FileSystem) (p : Path) : Option Entry :=
  match fs.locate p with
  | .ok l => fs.entryAt? l
  | .error _ => none

def isPresent (fs : FileSystem) (p : Path) : Bool := (fs.locate p).isOk

def isDirectory (fs : FileSystem) (p : Path) : Bool :=
  match fs.entry? p with
  | some .directory => true
  | _ => false

def isFile (fs : FileSystem) (p : Path) : Bool :=
  match fs.entry? p with
  | some (.file _) => true
  | _ => false

def readText (fs : FileSystem) (p : Path) : Except FileFault String :=
  match fs.locate p with
  | .error fault => .error fault
  | .ok l =>
    match fs.entryAt? l with
    | some (.file (.text text)) => .ok text
    | some (.file .binary) => .error .notText
    | some .directory => .error .isADirectory
    | _ => .error .notFound

def namesIn (fs : FileSystem) (directory : Location) : List String :=
  fs.entries.keys.filterMap fun l =>
    if l.names.dropLast = directory.names then l.names.getLast? else none

def list? (fs : FileSystem) (p : Path) : Option (List String) :=
  match fs.locate p with
  | .ok l =>
    match fs.entryAt? l with
    | some .directory => some (fs.namesIn l)
    | _ => none
  | .error _ => none

end FileSystem

end WorkflowEngine
