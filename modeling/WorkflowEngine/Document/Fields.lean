import WorkflowEngine.Document
import WorkflowEngine.Yaml.Value

/-! The fields of a step as written.

A step is a mapping whose keys are texts. Each field has a type; a field that is null counts as
absent, and fields that are not known are passed over. No known field may come twice.
-/

set_option autoImplicit false

namespace WorkflowEngine.Document

open Yaml (Fault)

abbrev Pairs := List (Yaml.Value × Yaml.Value)

structure ActionFields where
  action : Option String
  description : Option String
  params : Option Params
  /-- The name of a parameter that is handed on. -/
  param : Option String
  optional : Bool
  waitAfter : Option Binary64

structure WorkflowFields where
  workflow : Option String
  description : Option String
  params : Option Params

namespace Fields

def named : Pairs → Except Fault (List (String × Yaml.Value))
  | [] => .ok []
  | (key, v) :: rest =>
    match key.text? with
    | none => .error (.kind "a field name")
    | some name => (named rest).map ((name, v) :: ·)

def single? (fields : List (String × Yaml.Value)) (name : String) :
    Except Fault (Option Yaml.Value) :=
  match fields.filter fun field => field.1 == name with
  | [] => .ok none
  | [field] => .ok (some field.2)
  | _ => .error .duplicateKey

def text (v : Yaml.Value) : Except Fault String :=
  match v.text? with
  | some s => .ok s
  | none => .error (.kind "a string")

def flag (v : Yaml.Value) : Except Fault Bool :=
  match v.untagged with
  | .bool b => .ok b
  | _ => .error (.kind "a boolean")

def seconds (v : Yaml.Value) : Except Fault Binary64 :=
  match v.untagged with
  | .number n => .ok n.toReal
  | _ => .error (.kind "a number")

def params (v : Yaml.Value) : Except Fault Params :=
  match v.untagged with
  | .mapping pairs => (Yaml.Value.fieldParameters pairs).map .ofList
  | .null => .ok ∅
  | _ => .error (.kind "a map")

def optional {α : Type} (read : Yaml.Value → Except Fault α) (fields : List (String × Yaml.Value))
    (name : String) : Except Fault (Option α) := do
  match ← single? fields name with
  | none => .ok none
  | some .null => .ok none
  | some v => (read v).map some

/-- A field with a default, which may be absent but not null. -/
def defaulted {α : Type} (read : Yaml.Value → Except Fault α) (default : α)
    (fields : List (String × Yaml.Value)) (name : String) : Except Fault α := do
  match ← single? fields name with
  | none => .ok default
  | some v => read v

end Fields

def ActionFields.ofPairs (pairs : Pairs) : Except Fault ActionFields := do
  let fields ← Fields.named pairs
  .ok {
    action := ← Fields.optional Fields.text fields "action"
    description := ← Fields.optional Fields.text fields "description"
    params := ← Fields.optional Fields.params fields "params"
    param := ← Fields.optional Fields.text fields "param"
    optional := ← Fields.defaulted Fields.flag false fields "optional"
    waitAfter := ← Fields.optional Fields.seconds fields "wait_after" }

def WorkflowFields.ofPairs (pairs : Pairs) : Except Fault WorkflowFields := do
  let fields ← Fields.named pairs
  .ok {
    workflow := ← Fields.optional Fields.text fields "workflow"
    description := ← Fields.optional Fields.text fields "description"
    params := ← Fields.optional Fields.params fields "params" }

end WorkflowEngine.Document
