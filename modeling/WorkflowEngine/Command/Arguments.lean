import WorkflowEngine.Command

/-! Reading commands from arguments.

Options stand in front of the task's name, and the task's own options behind it. An option starts with
two dashes and its value follows it as the next argument or behind an equals sign. Two dashes alone end
the options. What cannot be read is refused as a whole.
-/

set_option autoImplicit false

namespace WorkflowEngine.Command

inductive Argument where
  /-- The end of the options. -/
  | ending
  | option (name : String) (value : Option String)
  /-- A dash and something else; no such option is known. -/
  | dashed
  | plain (text : String)
  deriving DecidableEq

namespace Argument

def ofOption (cs : List Char) : Argument :=
  match Text.cutAtFirst? '=' cs with
  | some (name, value) => .option (String.ofList name) (some (String.ofList value))
  | none => .option (String.ofList cs) none

def ofText (text : String) : Argument :=
  match text.toList with
  | ['-'] => .plain text
  | ['-', '-'] => .ending
  | '-' :: '-' :: name => ofOption name
  | '-' :: _ => .dashed
  | _ => .plain text

end Argument

def isPlain (text : String) : Bool :=
  match Argument.ofText text with
  | .plain _ => true
  | _ => false

structure Options where
  configPath : Option Path
  root : Option Path
  level : Option String
  format : Option OutputFormat

/-- A path that was given for the first time and names something. -/
def firstPath? (earlier : Option Path) (text : String) : Option Path :=
  if earlier.isSome || text.toList.isEmpty then none else some ⟨text⟩

def formats : List (String × OutputFormat) := [("text", .text), ("json", .json)]

namespace Options

def start : Options := ⟨none, none, none, none⟩

/-- The options with one more, unless it is not known, was given before or has no such value. -/
def set? (o : Options) (name value : String) : Option Options :=
  match name with
  | "config" => (firstPath? o.configPath value).map fun path => { o with configPath := some path }
  | "root" => (firstPath? o.root value).map fun path => { o with root := some path }
  | "log-level" => if o.level.isSome then none else some { o with level := some value }
  | "output" =>
    if o.format.isSome then none
    else (formats.lookup value).map fun format => { o with format := some format }
  | _ => none

end Options

def readOptions (o : Options) : List String → Option (Options × String × List String)
  | [] => none
  | argument :: rest =>
    match Argument.ofText argument with
    | .plain name => some (o, name, rest)
    | .option name (some value) =>
      match o.set? name value with
      | some o => readOptions o rest
      | none => none
    | .option name none =>
      match rest with
      -- The value may be the name of a task; it is a value all the same.
      | value :: rest =>
        match if isPlain value then o.set? name value else none with
        | some o => readOptions o rest
        | none => none
      | [] => none
    | .ending => none
    | .dashed => none

structure TaskArguments where
  names : List String
  params : List String
  dry : Bool

namespace TaskArguments

def start : TaskArguments := ⟨[], [], false⟩

def withNames (a : TaskArguments) (names : List String) : TaskArguments :=
  { a with names := a.names ++ names }

def withParam (a : TaskArguments) (entry : String) : TaskArguments :=
  { a with params := a.params ++ [entry] }

end TaskArguments

def readRun (a : TaskArguments) : List String → Option TaskArguments
  | [] => some a
  | argument :: rest =>
    match Argument.ofText argument with
    | .plain name => readRun (a.withNames [name]) rest
    | .option "param" (some entry) => readRun (a.withParam entry) rest
    | .option "param" none =>
      match rest with
      | entry :: rest => if isPlain entry then readRun (a.withParam entry) rest else none
      | [] => none
    | .option "dry-run" none => if a.dry then none else readRun { a with dry := true } rest
    | .ending => some (a.withNames rest)
    | .option _ _ => none
    | .dashed => none

def readNames : List String → Option (List String)
  | [] => some []
  | argument :: rest =>
    match Argument.ofText argument with
    | .plain name => (readNames rest).map (name :: ·)
    | .ending => some rest
    | .option _ _ => none
    | .dashed => none

def readTask (name : String) (arguments : List String) : Option Task :=
  match name with
  | "run" =>
    match readRun .start arguments with
    | some ⟨[workflow], params, dry⟩ => some (.run workflow params dry)
    | _ => none
  | "check" =>
    match readNames arguments with
    | some [workflow] => some (.check workflow)
    | _ => none
  | "list" =>
    match readNames arguments with
    | some [] => some .list
    | _ => none
  | _ => none

/-- The root that replaces the configured one: the given one, or else that of the environment just as
it is written there, which may not be empty. -/
def rootOf? (given : Option Path) (environment : Option String) : Option (Option Path) :=
  match given, environment with
  | some root, _ => some (some root)
  | none, some text => (firstPath? none text).map some
  | none, none => some none

def ofArguments? (arguments : List String) (environment : Overrides) : Option Command := do
  let (o, name, rest) ← readOptions .start arguments
  let task ← readTask name rest
  let root ← rootOf? o.root environment.root
  some { configPath := o.configPath, root, level := o.level, format := o.format.getD .text, task }

end WorkflowEngine.Command
