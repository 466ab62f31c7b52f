import WorkflowEngine.FileSystem

/-! Changes to a file system.

Writing and making directories follow links and create the directories that are missing on the way;
removing and linking act on the last name itself. A change that cannot be made leaves what it has
done so far.
-/

set_option autoImplicit false

namespace WorkflowEngine.FileSystem

def put (fs : FileSystem) (l : Location) (entry : Entry) : FileSystem :=
  { fs with entries := fs.entries.insert l entry }

def dropTree (fs : FileSystem) (l : Location) : FileSystem :=
  { fs with entries := fs.entries.filterKeys fun other => !other.isUnder l }

/-- Go along pieces from a real directory and create the directories that are missing. The real
directory reached, unless something that is no directory is in the way. -/
def makeAlong (fs : FileSystem) (here : List String) : List String → FileSystem × Option (List String)
  | [] => (fs, some here)
  | piece :: rest =>
    if Path.isIdle piece then fs.makeAlong here rest
    else if piece = ".." then fs.makeAlong here.dropLast rest
    else match fs.entries.find? ⟨here ++ [piece]⟩ with
      | none => (fs.put ⟨here ++ [piece]⟩ .directory).makeAlong (here ++ [piece]) rest
      | some .directory => fs.makeAlong (here ++ [piece]) rest
      | some (.file _) => (fs, none)
      | some (.link _) =>
        match fs.follow linkLimit here [piece] with
        | .error _ => (fs, none)
        | .ok l =>
          match fs.entryAt? l with
          | some .directory => fs.makeAlong l.names rest
          | _ => (fs, none)

def makeDirectory (fs : FileSystem) (p : Path) : FileSystem :=
  (fs.makeAlong (fs.startOf p) p.pieces).1

def placeWith (fs : FileSystem) (jump : List String → List String → Option Location)
    (here : List String) : List String → Option Location
  | [] => none
  | piece :: rest =>
    if Path.isIdle piece then fs.placeWith jump here rest
    else if piece = ".." then fs.placeWith jump here.dropLast rest
    else match fs.entries.find? ⟨here ++ [piece]⟩ with
      | none => if rest.isEmpty then some ⟨here ++ [piece]⟩ else none
      | some .directory => fs.placeWith jump (here ++ [piece]) rest
      | some (.file _) => if rest.isEmpty then some ⟨here ++ [piece]⟩ else none
      | some (.link target) => jump (if target.isAbsolute then [] else here) (target.pieces ++ rest)

def place (fs : FileSystem) : Nat → List String → List String → Option Location
  | 0 => fs.placeWith fun _ _ => none
  | links + 1 => fs.placeWith (fs.place links)

/-- Make the directories above a path. The real directory that holds its last name, and the name. -/
def prepare (fs : FileSystem) (p : Path) : FileSystem × Option (List String × String) :=
  match (p.pieces.filter fun piece => !Path.isIdle piece).reverse with
  | [] => (fs, none)
  | name :: above =>
    match fs.makeAlong (fs.startOf p) above.reverse with
    | (fs, some directory) => (fs, some (directory, name))
    | (fs, none) => (fs, none)

def write (fs : FileSystem) (p : Path) (content : Content) : FileSystem :=
  match fs.prepare p with
  | (fs, some (directory, name)) =>
    match fs.place linkLimit directory [name] with
    | some l => fs.put l (.file content)
    | none => fs
  | (fs, none) => fs

/-- Put a link in the place of a file or another link; a directory is left as it is. -/
def link (fs : FileSystem) (p target : Path) : FileSystem :=
  match fs.prepare p with
  | (fs, some (directory, name)) =>
    let l : Location := ⟨directory ++ [name]⟩
    match fs.entryAt? l with
    | some .directory => fs
    | _ => fs.put l (.link target)
  | (fs, none) => fs

def remove (fs : FileSystem) (p : Path) : FileSystem :=
  match (p.pieces.filter fun piece => !Path.isIdle piece).reverse with
  | [] => fs
  | name :: above =>
    match fs.follow linkLimit (fs.startOf p) above.reverse with
    | .ok directory => fs.dropTree (directory.child name)
    | .error _ => fs

end WorkflowEngine.FileSystem
