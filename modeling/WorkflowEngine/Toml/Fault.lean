/-! What can be wrong with a TOML text. -/

set_option autoImplicit false

namespace WorkflowEngine.Toml

inductive Fault where
  | key
  | value
  | text
  | number
  | date
  | lineEnd
  | duplicateKey
  | table
  | depth
  | kind (expected : String)
  deriving DecidableEq

def Fault.message : Fault → String
  | .key => "invalid key"
  | .value => "invalid value"
  | .text => "invalid string"
  | .number => "invalid number"
  | .date => "invalid datetime"
  | .lineEnd => "expected newline"
  | .duplicateKey => "duplicate key"
  | .table => "invalid table header"
  | .depth => "recursion limit exceeded"
  | .kind expected => "invalid type, expected " ++ expected

end WorkflowEngine.Toml
