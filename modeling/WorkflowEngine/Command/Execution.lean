import WorkflowEngine.Command
import WorkflowEngine.Report
import WorkflowEngine.Value.Json.Reading

/-! Carrying out commands.

A command is carried out on the files as they are. The configuration comes first: from the file that
was given, else from the one in the working directory if there is one, else the default. An error
before the task's own report is told in one line.
-/

set_option autoImplicit false

namespace WorkflowEngine.Command

def defaultConfigPath : Path := ⟨"autoflow.toml"⟩

def configPath? (c : Command) (fs : FileSystem) : Option Path :=
  match c.configPath with
  | some path => some path
  | none => if fs.isFile defaultConfigPath then some defaultConfigPath else none

/-- The configuration of a command. The environment replaces what the file says, and the command's
own options replace both. -/
def config (c : Command) (fs : FileSystem) (environment : Overrides) : Except Error Config := do
  let loaded ← Config.load fs (c.configPath? fs) environment
  let rooted := match c.root with
    | some root => loaded.withRoot root
    | none => loaded
  let config := { rooted with level := c.level.getD rooted.level }
  config.validate
  .ok config

def engine (c : Command) (fs : FileSystem) (environment : Overrides) :
    Except Error (Engine Unit) := do
  Engine.build fs (← c.config fs environment)

/-- The value that a text gives a parameter: the JSON value it writes, or else the text itself. -/
def paramValue (text : String) : Value := (Json.read? text).getD (.text text)

def readParam (entry : String) : Except Error (String × Value) :=
  match Text.cutAtFirst? '=' entry.toList with
  | none => .error (.validation (.paramWithoutValue entry))
  | some (key, value) =>
    let name := Text.trimChars key
    if name.isEmpty then .error (.validation (.paramWithoutName entry))
    else .ok (String.ofList name, paramValue (String.ofList value))

def readParams (entries : List String) : Except Error Params := do
  .ok (.ofList (← entries.mapM readParam))

def withRecorders (e : Engine Unit) (names : List String) : Engine Unit :=
  names.foldl (fun e name => e.register name .noop) e

/-- The actions of a run: the built-in ones, or for a dry run stand-ins for all in the graph. -/
def equip (e : Engine Unit) (fs : FileSystem) (target : Target) (dry : Bool) :
    Except GraphFailure (Engine Unit) :=
  if dry then
    match e.resolveGraph fs target with
    | (.ok graph, e) => .ok (withRecorders e graph.actionNames)
    | (.error failure, _) => .error failure
  else .ok e.withBuiltins

structure Conclusion where
  output : String
  errors : String
  pauses : List Nanoseconds
  code : Nat
  deriving DecidableEq

namespace Conclusion

def succeeded (c : Conclusion) : Bool := c.code == 0

def ofError (e : Error) : Conclusion := ⟨"", "autoflow failed: " ++ e.message ++ "\n", [], 1⟩

def reported (output : String) : Conclusion := ⟨output, "", [], 0⟩

def ofGraphFailure (format : OutputFormat) (root : Location) (f : GraphFailure) : Conclusion :=
  match format with
  | .text => ⟨"", Report.graphFailureText root f, [], 1⟩
  | .json => ⟨Report.graphFailureJson root f, "", [], 1⟩

def pausesOf (events : List RunEvent) : List Nanoseconds :=
  events.filterMap fun
    | .paused duration => some duration
    | .noted (.waited duration) => some duration
    | _ => none

def ofRun (format : OutputFormat) (root : Location) (finished : Runner.Finished Unit) : Conclusion :=
  let result := finished.result
  let output := match format with
    | .text => Report.runText root result
    | .json => Report.runJson root result
  ⟨output, "", pausesOf finished.events, if result.succeeded then 0 else 1⟩

/-- A run that needed more open documents than there can be. -/
def unfinished : Conclusion := ⟨"", "", [], 1⟩

end Conclusion

def carryOutRun (c : Command) (fs : FileSystem) (e : Engine Unit) (workflow : String)
    (entries : List String) (dry : Bool) : Conclusion :=
  -- Parameters are read first, so a fault in them is told before one in the workflow.
  match readParams entries with
  | .error error => .ofError error
  | .ok params =>
    let target : Target := .reference (e.resolveAlias workflow)
    match equip e fs target dry with
    | .error failure => .ofGraphFailure c.format e.root failure
    | .ok e =>
      match e.run (Resolver.walkBudget fs e.cache) target params ⟨fs, ()⟩ with
      | some (finished, _) => .ofRun c.format e.root finished
      | none => .unfinished

def carryOutCheck (c : Command) (fs : FileSystem) (e : Engine Unit) (workflow : String) :
    Conclusion :=
  match (e.resolveGraph fs (.reference (e.resolveAlias workflow))).1 with
  | .error failure => .ofGraphFailure c.format e.root failure
  | .ok graph => .reported (match c.format with
      | .text => Report.graphText e.root graph
      | .json => Report.graphJson e.root graph)

def carryOutList (c : Command) (fs : FileSystem) (e : Engine Unit) : Conclusion :=
  let workflows := e.listWorkflows fs
  let aliases := e.config.aliases.entries
  .reported (match c.format with
    | .text => Report.listingText e.root workflows aliases
    | .json => Report.listingJson e.root workflows aliases)

def carryOut (c : Command) (fs : FileSystem) (environment : Overrides) : Conclusion :=
  match c.engine fs environment with
  | .error error => .ofError error
  | .ok e =>
    match c.task with
    | .run workflow params dry => c.carryOutRun fs e workflow params dry
    | .check workflow => c.carryOutCheck fs e workflow
    | .list => c.carryOutList fs e

end WorkflowEngine.Command
