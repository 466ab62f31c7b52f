import WorkflowEngine.Config
import WorkflowEngine.Toml.Reading

/-! Reading configuration files.

A file is a TOML document whose tables give the settings. What it does not give keeps its default,
and names that are not known are passed over. The settings of a table may also be given as an array,
in the order in which they are listed here.
-/

set_option autoImplicit false

namespace WorkflowEngine.Config

open Toml (Fault)

/-- The values of a table by name, or of an array by position. -/
abbrev Source := String → Nat → Option Toml.Value

def source : Option Toml.Value → Except Fault Source
  | none => .ok fun _ _ => none
  | some (.table _ fields) => .ok fun name _ => fields.lookup name
  | some (.array items) => .ok fun _ position => items[position]?
  -- A date reads as a table without any of these names.
  | some .moment => .ok fun _ _ => none
  | some _ => .error (.kind "a table")

def readText : Toml.Value → Except Fault String
  | .text text => .ok text
  | _ => .error (.kind "a string")

def readCount : Toml.Value → Except Fault Nat
  | .integer (.ofNat n) => .ok n
  | _ => .error (.kind "a natural number")

def isEmptyCollection : Toml.Value → Bool
  | .array [] => true
  | .table _ [] => true
  | _ => false

/-- The name of a choice: a text, or the name of the one field of a table, which is empty. -/
def choiceName : Toml.Value → Except Fault String
  | .text text => .ok text
  | .table _ [(name, v)] => if isEmptyCollection v then .ok name else .error (.kind "a choice")
  | _ => .error (.kind "a choice")

def readChoice {α : Type} (choices : List (String × α)) (v : Toml.Value) : Except Fault α := do
  match choices.lookup (← choiceName v) with
  | some choice => .ok choice
  | none => .error (.kind "a known choice")

def sandboxes : List (String × Sandbox) :=
  [("confine_to_root", .confineToRoot), ("unrestricted", .unrestricted)]

def normalizations : List (String × Normalization) :=
  [("lexical", .lexical), ("filesystem", .filesystem)]

def given {α : Type} (default : α) (read : Toml.Value → Except Fault α) : Option Toml.Value →
    Except Fault α
  | none => .ok default
  | some v => read v

def readSettings (v : Option Toml.Value) : Except Fault WorkflowSettings := do
  let source ← source v
  let d := defaultSettings
  .ok {
    root := ⟨← given d.root.text readText (source "root" 0)⟩
    extension := ← given d.extension readText (source "extension" 1)
    sandbox := ← given d.sandbox (readChoice sandboxes) (source "sandbox" 2)
    normalization := ← given d.normalization (readChoice normalizations) (source "normalization" 3)
    defaultWait := ← given d.defaultWait readCount (source "default_wait_after_ms" 4)
    discoveryDepth := ← given d.discoveryDepth readCount (source "max_discovery_depth" 5) }

def readLevel (v : Option Toml.Value) : Except Fault String := do
  let source ← source v
  given default.level readText (source "level" 0)

def readAliases : Option Toml.Value → Except Fault (Dictionary String String)
  | none => .ok ∅
  | some (.table _ fields) => do
    let entries ← fields.mapM fun field => (readText field.2).map fun text => (field.1, text)
    .ok (.ofList entries)
  | some _ => .error (.kind "a table")

def ofText (text : String) : Except Fault Config := do
  let fields ← Toml.ofText text
  let workflows ← readSettings (fields.lookup "workflows")
  let level ← readLevel (fields.lookup "logging")
  let aliases ← readAliases (fields.lookup "aliases")
  .ok { workflows, level, aliases }

/-- The configuration in a file. A relative root is seen from the file's directory. -/
def loadFile (fs : FileSystem) (path : Path) : Except Error Config :=
  match fs.readText path with
  | .error fault => .error (.configuration (.unreadFile path fault))
  | .ok text =>
    match ofText text with
    | .error fault => .error (.configuration (.malformedFile path fault))
    | .ok c => .ok (c.anchor path.parent)

def load (fs : FileSystem) (path : Option Path) (o : Overrides) : Except Error Config := do
  let c ← match path with
    | some path => loadFile fs path
    | none => .ok default
  .ok (c.override o)

end WorkflowEngine.Config
