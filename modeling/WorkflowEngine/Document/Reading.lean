import WorkflowEngine.Document.Fields
import WorkflowEngine.Yaml.Tokens
import WorkflowEngine.Number.Decimal

/-! Reading workflow documents.

A document is a YAML mapping with a description, default parameters and a list of steps. The steps
are read in order, and the first one that is not well formed is blamed.
-/

set_option autoImplicit false

namespace WorkflowEngine

inductive StepFault where
  | notAMapping
  | kindNotText
  | unknownKind (kind : String)
  | fields (fault : Yaml.Fault)
  | unnamedAction
  | unusableWait (seconds : Binary64)
  | longWait (seconds : Binary64)
  | blankParam
  | unnamedWorkflow
  deriving DecidableEq

inductive DocumentFault where
  | empty
  | malformed (fault : Yaml.Fault)
  | noSteps
  | step (index : Nat) (fault : StepFault)
  /-- A reason given from outside. -/
  | stated (reason : String)
  deriving DecidableEq

namespace Document

def longestWait : Nat := 3600

def indexText (index : Nat) : String := String.ofList (Nat.toDigits 10 index)

end Document

def StepFault.message (index : Nat) : StepFault → String
  | .notAMapping => "step " ++ Document.indexText index ++ " must be a mapping"
  | .kindNotText => "step " ++ Document.indexText index ++ " has a non-string 'type'"
  | .unknownKind kind => "step " ++ Document.indexText index ++ " has unknown type '" ++ kind ++
      "' (expected action or workflow)"
  | .fields fault => "step " ++ Document.indexText index ++ ": " ++ fault.message
  | .unnamedAction => "action step " ++ Document.indexText index ++ " must name an action"
  | .unusableWait seconds => "action step " ++ Document.indexText index ++
      " has invalid wait_after " ++ DecimalLayout.plain.render seconds
  | .longWait seconds => "action step " ++ Document.indexText index ++ " wait_after " ++
      DecimalLayout.plain.render seconds ++ " exceeds " ++ Document.indexText Document.longestWait ++
      " seconds"
  | .blankParam => "action step " ++ Document.indexText index ++ " has an empty 'param'"
  | .unnamedWorkflow => "workflow step " ++ Document.indexText index ++ " must reference a workflow"

def DocumentFault.message : DocumentFault → String
  | .empty => "document is empty"
  | .malformed fault => "malformed yaml: " ++ fault.message
  | .noSteps => "missing required 'steps' list"
  | .step index fault => fault.message index
  | .stated reason => reason

namespace ActionStep

def placeholderFor (name : String) : Value :=
  .text (String.ofList (Template.Piece.placeholder name.toList).written)

/-- Hand a parameter on under its own name, unless the step declares it. -/
def handOn (params : Params) (name : String) : Params :=
  if params.contains name then params else params.insert name (placeholderFor name)

def ofFields (fields : Document.ActionFields) : Except StepFault ActionStep := do
  let action := Text.trim (fields.action.getD "")
  if action.toList.isEmpty then .error .unnamedAction
  else do
    match fields.waitAfter with
    | some seconds =>
      if !seconds.isFinite || seconds.isBelowZero then .error (.unusableWait seconds)
      else if seconds.exceeds Document.longestWait then .error (.longWait seconds)
      else .ok ()
    | none => .ok ()
    -- The wait is checked before the parameter: of two faults it is the one to report.
    let declared := fields.params.getD ∅
    let params ← match fields.param.map Text.trim with
      | none => .ok declared
      | some name =>
        if name.toList.isEmpty then .error .blankParam else .ok (handOn declared name)
    .ok {
      action, params
      description := fields.description
      optional := fields.optional
      waitAfter := fields.waitAfter }

end ActionStep

namespace WorkflowStep

def ofFields (fields : Document.WorkflowFields) : Except StepFault WorkflowStep :=
  let workflow := Text.trim (fields.workflow.getD "")
  if workflow.toList.isEmpty then .error .unnamedWorkflow
  else .ok {
    workflow := ⟨workflow⟩
    description := fields.description
    params := fields.params.getD ∅ }

end WorkflowStep

namespace Step

inductive Kind where
  | action
  | workflow
  deriving DecidableEq

def kindValue? : Document.Pairs → Option Yaml.Value
  | [] => none
  | (.text "type", v) :: _ => some v
  | _ :: rest => kindValue? rest

def kindOf (pairs : Document.Pairs) : Except StepFault Kind :=
  match kindValue? pairs with
  | none => .ok .action
  | some (.text written) =>
    let kind := Text.trim written
    if kind == "action" then .ok .action
    else if kind == "workflow" then .ok .workflow
    else .error (.unknownKind kind)
  | some _ => .error .kindNotText

def Kind.fieldNames : Kind → List String
  | .action => ["type", "action", "description", "params", "param", "optional", "wait_after"]
  | .workflow => ["type", "workflow", "description", "params"]

def ofValue : Yaml.Value → Except StepFault Step
  | .mapping pairs => do
    match ← kindOf pairs with
    | .action =>
      match Document.ActionFields.ofPairs pairs with
      | .error fault => .error (.fields fault)
      | .ok fields => (ActionStep.ofFields fields).map .action
    | .workflow =>
      match Document.WorkflowFields.ofPairs pairs with
      | .error fault => .error (.fields fault)
      | .ok fields => (WorkflowStep.ofFields fields).map .workflow
  | _ => .error .notAMapping

/-- The names of fields that are passed over; a key that is no text has an empty name. -/
def unknownFields : Yaml.Value → List String
  | .mapping pairs =>
    match kindOf pairs with
    | .ok kind =>
      (pairs.map fun pair => pair.1.text?.getD "").filter fun name => !kind.fieldNames.contains name
    | .error _ => []
  | _ => []

end Step

namespace Document

structure Outline where
  description : Option String
  defaults : Option Params
  steps : Option (List Yaml.Value)

namespace Outline

open Yaml (Fault Tree CountingM)

/-- A plain scalar without a tag that is empty or spells null, or any scalar tagged as null. -/
def isAbsent : Tree → Except Fault Bool
  | .scalar tag plain text =>
    if !plain then .ok false
    else match tag with
      | none => .ok (text == "" || Yaml.Scalar.isNull text)
      | some tag =>
        if tag == Yaml.Scalar.standardTag "null" then
          if Yaml.Scalar.isNull text then .ok true else .error (.kind "null")
        else .ok false
  | _ => .ok false

def isEmptyPlain : Tree → Bool
  | .scalar _ plain text => plain && text == ""
  | _ => false

def readText (tree : Tree) : Except Fault String :=
  match tree.text? with
  | some text => .ok text
  | none => .error (.kind "a string")

def readParams (tree : Tree) : Except Fault Params :=
  match tree with
  | .mapping _ pairs => (Tree.fieldValues pairs).map .ofList
  | other => if isEmptyPlain other then .ok ∅ else .error (.kind "a map")

def readSteps (tree : Tree) : Except Fault (List Yaml.Value) :=
  match tree with
  | .sequence _ items => Yaml.Value.ofItems items
  | other => if isEmptyPlain other then .ok [] else .error (.kind "a sequence")

def setOnce {α : Type} (before : Option (Option α)) (read : Tree → Except Fault α) (tree : Tree) :
    Except Fault (Option (Option α)) := do
  if before.isSome then .error .duplicateKey
  else if ← isAbsent tree then .ok (some none)
  else do
    let value ← read tree
    .ok (some (some value))

/-- Fields read so far; a field that was met is some, even if it is absent. -/
structure FieldsRead where
  description : Option (Option String)
  defaults : Option (Option Params)
  steps : Option (Option (List Yaml.Value))

def FieldsRead.outline (p : FieldsRead) : Outline :=
  ⟨p.description.getD none, p.defaults.getD none, p.steps.getD none⟩

/-- Read the fields of the root in order. Those that are not known are not looked into. -/
def readFields (anchors : Yaml.Anchors) (depth : Nat) (p : FieldsRead) :
    List (Yaml.Node × Yaml.Node) → CountingM FieldsRead
  | [] => return p
  | (key, node) :: rest => do
    match (← anchors.expand depth key).text? with
    | some "description" => do
      let tree ← anchors.expand depth node
      let description ← setOnce p.description readText tree
      readFields anchors depth { p with description } rest
    | some "params" => do
      let tree ← anchors.expand depth node
      let defaults ← setOnce p.defaults readParams tree
      readFields anchors depth { p with defaults } rest
    | some "steps" => do
      let tree ← anchors.expand depth node
      let steps ← setOnce p.steps readSteps tree
      readFields anchors depth { p with steps } rest
    | some _ => readFields anchors depth p rest
    | none => throw (.kind "a field name")

def depthLimit : Nat := 127

def ofYaml (document : Yaml.Document) : Except Fault Outline :=
  match document.root with
  | none => .ok ⟨none, none, none⟩
  | some (.mapping properties pairs) => do
    let anchors := Yaml.Anchors.ofDocument (.mapping properties pairs) document.events
    let (p, _) ← (readFields anchors depthLimit ⟨none, none, none⟩ pairs).run 0
    .ok p.outline
  | some (.scalar _ true "") => .ok ⟨none, none, none⟩
  | some _ => .error (.kind "a map")

def ofText (text : String) : Except Fault Outline := do
  let tokens ← Yaml.tokens text
  let document ← Yaml.Document.ofTokens tokens
  ofYaml document

end Outline

def readSteps (index : Nat) : List Yaml.Value → Except DocumentFault (List Step)
  | [] => .ok []
  | v :: rest =>
    match Step.ofValue v with
    | .error fault => .error (.step index fault)
    | .ok step => (readSteps (index + 1) rest).map (step :: ·)

def ofOutline (location : Location) (outline : Outline) : Except DocumentFault Document :=
  match outline.steps with
  | none => .error .noSteps
  | some values =>
    (readSteps 0 values).map fun steps =>
      { location, steps, description := outline.description, defaults := outline.defaults.getD ∅ }

def ofText (location : Location) (text : String) : Except DocumentFault Document :=
  if Text.isBlankText text then .error .empty
  else match Outline.ofText text with
    | .error fault => .error (.malformed fault)
    | .ok outline => ofOutline location outline

theorem location_ofOutline {location : Location} {outline : Outline} {d : Document}
    (read : ofOutline location outline = .ok d) : d.location = location := by
  unfold ofOutline at read
  split at read
  · cases read
  · rename_i values _
    cases steps : readSteps 0 values with
    | error fault =>
      rw [steps] at read
      cases read
    | ok steps' =>
      rw [steps] at read
      cases read
      rfl

theorem location_ofText {location : Location} {text : String} {d : Document}
    (read : ofText location text = .ok d) : d.location = location := by
  unfold ofText at read
  split at read
  · cases read
  · split at read
    · cases read
    · exact location_ofOutline read

def unknownFields (outline : Outline) : List (Nat × String) :=
  (outline.steps.getD []).zipIdx.flatMap fun (v, index) =>
    (Step.unknownFields v).map fun name => (index, name)

end Document

end WorkflowEngine
