import WorkflowEngine.Location
import WorkflowEngine.Params
import WorkflowEngine.Reference

/-! Workflow documents.

A document is a list of steps with default parameters. An action step invokes an action by name; a
workflow step imports another document. Steps are known by their index.
-/

set_option autoImplicit false

namespace WorkflowEngine

structure ActionStep where
  action : String
  description : Option String
  params : Params
  /-- A failure of the action does not end the run. -/
  optional : Bool
  /-- Seconds to wait after the action has succeeded. -/
  waitAfter : Option Binary64

structure WorkflowStep where
  workflow : Reference
  description : Option String
  params : Params

inductive Step where
  | action (step : ActionStep)
  | workflow (step : WorkflowStep)

structure Document where
  location : Location
  description : Option String
  defaults : Params
  steps : List Step

namespace Document

def importsFrom (index : Nat) : List Step → List (Nat × WorkflowStep)
  | [] => []
  | .workflow step :: rest => (index, step) :: importsFrom (index + 1) rest
  | .action _ :: rest => importsFrom (index + 1) rest

def imports (d : Document) : List (Nat × WorkflowStep) := importsFrom 0 d.steps

def actionNames (d : Document) : List String :=
  d.steps.filterMap fun
    | .action step => some step.action
    | .workflow _ => none

end Document

end WorkflowEngine
