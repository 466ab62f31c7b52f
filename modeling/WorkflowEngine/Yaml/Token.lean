/-! Tokens of a YAML text. -/

set_option autoImplicit false

namespace WorkflowEngine.Yaml

inductive Token where
  | version (major minor : Nat)
  | tagHandle (handle start : String)
  | documentStart
  | documentEnd
  | blockSequence
  | blockMapping
  | blockEnd
  | openSequence
  | closeSequence
  | openMapping
  | closeMapping
  | blockEntry
  | flowEntry
  | key
  | value
  | alias (name : String)
  | anchor (name : String)
  /-- A tag as a handle and what follows it; a verbatim tag has no handle. -/
  | tag (handle suffix : String)
  | scalar (text : String) (plain : Bool)
  | streamEnd
  deriving DecidableEq

end WorkflowEngine.Yaml
