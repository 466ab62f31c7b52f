import WorkflowEngine.Engine

/-! Commands.

A command runs a workflow, checks its import graph, or lists the workflows there are. Its options say
where the configuration is and which of its values are replaced.
-/

set_option autoImplicit false

namespace WorkflowEngine

inductive OutputFormat where
  | text
  | json
  deriving DecidableEq

inductive Task where
  /-- Run a workflow with parameters written as `key=value`. A dry run replaces all its actions by one
  that always succeeds. -/
  | run (workflow : String) (params : List String) (dry : Bool)
  | check (workflow : String)
  | list
  deriving DecidableEq

structure Command where
  configPath : Option Path
  root : Option Path
  level : Option String
  format : OutputFormat
  task : Task
  deriving DecidableEq

end WorkflowEngine
