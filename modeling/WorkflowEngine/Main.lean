import WorkflowEngine.Command.Arguments
import WorkflowEngine.Command.Execution
import WorkflowEngine.FileSystem.Edit

/-! The program.

The program looks at the files on the disk that a command asks for, carries the command out on what it
has seen, makes the pauses of the run and prints what there is to print. What has not been looked at
is missing in the file system that the command is given, so a command that misses a document is given
another chance with that document.
-/

set_option autoImplicit false

namespace WorkflowEngine.Disk

def standing? (l : Location) : IO (Option (Location × Bool)) := do
  try
    let real ← IO.FS.realPath l.text
    match (Path.mk real.toString).spelledLocation with
    | .ok found => if ← real.pathExists then return some (found, ← real.isDir) else return none
    | .error _ => return none
  catch _ => return none

def contentAt (l : Location) : IO Content := do
  try
    match String.fromUTF8? (← IO.FS.readBinFile l.text) with
    | some text => return .text text
    | none => return .binary
  catch _ => return .binary

def entryAt (l : Location) (isDirectory : Bool) : IO Entry := do
  if isDirectory then return .directory else return .file (← contentAt l)

def putReal (fs : FileSystem) (l : Location) (isDirectory : Bool) : IO FileSystem := do
  return (fs.makeDirectory l.directory.path).put l (← entryAt l isDirectory)

def lookAlong (fs : FileSystem) (here : Location) : List String → IO FileSystem
  | [] => return fs
  | piece :: rest => do
    if Path.isIdle piece then lookAlong fs here rest
    else if piece = ".." then lookAlong fs here.directory rest
    else match ← standing? (here.child piece) with
      | none => return fs
      | some (real, isDirectory) =>
        let seen ← putReal fs real isDirectory
        let linked := if real = here.child piece then seen
          else seen.put (here.child piece) (.link real.path)
        lookAlong linked real rest

def look (fs : FileSystem) (p : Path) : IO FileSystem :=
  lookAlong fs ⟨fs.startOf p⟩ p.pieces

/-- Look at what is in a directory and, to a depth, at what is below it. -/
def lookBelow (p : Path) : Nat → FileSystem → IO FileSystem
  | depth, fs => do
    match fs.locate p with
    | .error _ => return fs
    | .ok directory =>
      let entries ← try (← IO.FS.realPath directory.text).readDir catch _ => pure #[]
      let mut fs := fs
      for entry in entries do
        let path := p.join ⟨entry.fileName⟩
        fs ← look fs path
        match depth with
        | 0 => pure ()
        | depth + 1 => if fs.isDirectory path then fs ← lookBelow path depth fs
      return fs

def start : IO FileSystem := do
  match (Path.mk (← IO.currentDir).toString).spelledLocation with
  | .ok l => return { FileSystem.empty.makeDirectory l.path with workingDirectory := l }
  | .error _ => return .empty

end WorkflowEngine.Disk

namespace WorkflowEngine.Command

/-- The path that a graph failed on, if looking there may change the outcome. -/
def pathMissed? : Error → Option Path
  | .documentNotFound path => some path
  | .unresolved _ (.outsideRoot l _) => some l.path
  | _ => none

def workflow? (c : Command) : Option String :=
  match c.task with
  | .run workflow _ _ => some workflow
  | .check workflow => some workflow
  | .list => none

/-- Look at documents for as long as the graph of a workflow fails on one that was not looked at. -/
partial def lookAtGraph (e : Engine Unit) (target : Target) (looked : List String)
    (fs : FileSystem) : IO FileSystem := do
  match (e.resolveGraph fs target).1 with
  | .ok _ => return fs
  | .error failure =>
    match pathMissed? failure.error with
    | none => return fs
    | some path =>
      if looked.contains path.text then return fs
      else lookAtGraph e target (path.text :: looked) (← Disk.look fs path)

def lookAtFiles (c : Command) (environment : Overrides) : IO FileSystem := do
  let fs ← Disk.look (← Disk.start) (c.configPath.getD defaultConfigPath)
  match c.config fs environment with
  | .error _ => return fs
  | .ok config =>
    let fs ← Disk.look fs config.workflows.root
    match (Engine.build fs config : Except Error (Engine Unit)) with
    | .error _ => return fs
    | .ok e =>
      match c.workflow? with
      | some workflow =>
        let reference := e.resolveAlias workflow
        let fs ← Disk.look fs (Path.mk reference.text).parent
        lookAtGraph e (.reference reference) [] fs
      | none => Disk.lookBelow e.root.path config.workflows.discoveryDepth fs

def environment : IO Overrides := do
  return ⟨← IO.getEnv Config.rootVariable, ← IO.getEnv Config.levelVariable⟩

/-- Wait for a number of milliseconds, in parts of at most a day. -/
partial def pause (milliseconds : Nat) : IO Unit := do
  if milliseconds = 0 then return
  let part := min milliseconds 86400000
  IO.sleep part.toUInt32
  pause (milliseconds - part)

def usage : String :=
  "usage: autoflow [--config PATH] [--root PATH] [--log-level LEVEL] [--output text|json]\n" ++
    "  run WORKFLOW [--param KEY=VALUE]... [--dry-run] | check WORKFLOW | list\n"

end WorkflowEngine.Command

open WorkflowEngine in
def main (arguments : List String) : IO UInt32 := do
  let environment ← Command.environment
  match Command.ofArguments? arguments environment with
  | none =>
    (← IO.getStderr).putStr Command.usage
    return 2
  | some command =>
    let fs ← command.lookAtFiles environment
    let conclusion := command.carryOut fs environment
    for duration in conclusion.pauses do
      Command.pause duration.milliseconds
    (← IO.getStdout).putStr conclusion.output
    (← IO.getStderr).putStr conclusion.errors
    return conclusion.code.toUInt32
