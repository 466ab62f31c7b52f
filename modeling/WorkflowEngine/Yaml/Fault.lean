/-! What can be wrong with a YAML text. -/

set_option autoImplicit false

namespace WorkflowEngine.Yaml

inductive Fault where
  | character
  | strayCharacter
  | key
  | indentation
  | text
  | blockHeader
  | anchor
  | tag
  | directive
  | misplaced
  | unknownAnchor
  | documents
  | depth
  | repetition
  | duplicateKey
  | number
  | kind (expected : String)
  deriving DecidableEq

def Fault.message : Fault → String
  | .character => "control characters are not allowed"
  | .strayCharacter => "found character that cannot start any token"
  | .key => "a mapping key or value is not allowed here"
  | .indentation => "the indentation is broken"
  | .text => "a text is not closed or badly escaped"
  | .blockHeader => "the header of a block text is malformed"
  | .anchor => "an anchor or alias has no proper name"
  | .tag => "a tag is malformed or undefined"
  | .directive => "a directive is malformed or unknown"
  | .misplaced => "expected node content or the end of a collection"
  | .unknownAnchor => "unknown anchor"
  | .documents => "expected a single document"
  | .depth => "recursion limit exceeded"
  | .repetition => "repetition limit exceeded"
  | .duplicateKey => "duplicate entry"
  | .number => "number out of range"
  | .kind expected => "expected " ++ expected

end WorkflowEngine.Yaml
