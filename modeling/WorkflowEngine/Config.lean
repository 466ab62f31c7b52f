import WorkflowEngine.Resolver

/-! Configuration.

A configuration says where workflows lie and how references to them are read, which log level is
wanted, and which short names stand for references. Values may be overridden from the environment, and
a configuration is checked before an engine is built from it.
-/

set_option autoImplicit false

namespace WorkflowEngine

structure WorkflowSettings where
  root : Path
  extension : String
  sandbox : Sandbox
  normalization : Normalization
  /-- Milliseconds to wait after an action whose step gives no wait. -/
  defaultWait : Nat
  /-- How many directories below the root are looked into for documents. -/
  discoveryDepth : Nat
  deriving DecidableEq

structure Config where
  workflows : WorkflowSettings
  level : String
  /-- References by short name. -/
  aliases : Dictionary String String
  deriving DecidableEq

structure Overrides where
  root : Option String
  level : Option String

namespace Config

def defaultSettings : WorkflowSettings :=
  ⟨⟨"workflows"⟩, "yml", .confineToRoot, .lexical, 0, 8⟩

def default : Config := ⟨defaultSettings, "info", ∅⟩

def rootVariable : String := "AUTOFLOW_WORKFLOWS_ROOT"

def levelVariable : String := "AUTOFLOW_LOG_LEVEL"

def withRoot (c : Config) (root : Path) : Config :=
  { c with workflows := { c.workflows with root } }

def anchor (c : Config) (base : Path) : Config := c.withRoot (base.join c.workflows.root)

/-- The text of an override without blanks at its ends; a blank one does not count. -/
def overriding? (text : Option String) : Option String :=
  (text.map Text.trim).filter fun trimmed => !trimmed.toList.isEmpty

def override (c : Config) (o : Overrides) : Config :=
  let c := match overriding? o.root with
    | some root => c.withRoot ⟨root⟩
    | none => c
  { c with level := (overriding? o.level).getD c.level }

def longestWait : Nat := 60 * 60 * 1000

def aliasFault? (name reference : String) : Option ValidationFault :=
  if name.toList.isEmpty || name.toList.any Text.isBlank then some (.aliasName name)
  else if Text.isBlankText reference then some (.aliasReference name)
  else none

def fault? (c : Config) : Option ValidationFault :=
  let extension := Resolver.bareExtension c.workflows.extension
  if c.workflows.root.isEmpty then some .emptyRoot
  else if extension.toList.isEmpty then some .emptyExtension
  else if extension.toList.any Reference.isSeparator then some (.separatorInExtension extension)
  else if longestWait < c.workflows.defaultWait then some (.longWait longestWait)
  else match LogFilter.fault? c.level with
    | some fault => some (.level fault)
    | none => c.aliases.entries.findSome? fun entry => aliasFault? entry.1 entry.2

def validate (c : Config) : Except Error Unit :=
  match c.fault? with
  | some fault => .error (.validation fault)
  | none => .ok ()

end Config

end WorkflowEngine
