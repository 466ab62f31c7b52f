import WorkflowEngine.Document.Reading
import WorkflowEngine.FileSystem.Normal
import WorkflowEngine.LogFilter
import WorkflowEngine.Number.Duration
import WorkflowEngine.Toml.Fault

/-! Errors.

An error says what went wrong and where. Its message is made from its parts, so two errors with the
same parts read the same. Actions from outside may state a reason in their own words.
-/

set_option autoImplicit false

namespace WorkflowEngine

inductive ConfigFault where
  | emptyExtension
  | unusableRoot (root : Path) (fault : NormalFault)
  | unreadFile (path : Path) (fault : FileFault)
  | malformedFile (path : Path) (fault : Toml.Fault)
  | stated (reason : String)
  deriving DecidableEq

inductive ValidationFault where
  | emptyRoot
  | emptyExtension
  | separatorInExtension (extension : String)
  | longWait (limit : Nat)
  | level (fault : LogFilterFault)
  | aliasName (name : String)
  | aliasReference (name : String)
  | paramWithoutValue (entry : String)
  | paramWithoutName (entry : String)
  | secondsNotNumeric (value : Value)
  | unusableSeconds (seconds : Binary64) (fault : DurationFault)
  | stated (reason : String)
  deriving DecidableEq

inductive ResolutionFault where
  | emptyReference
  | namesNoDocument
  | baseNotAbsolute (base : Path)
  | normal (fault : NormalFault)
  | outsideRoot (location root : Location)
  | stated (reason : String)
  deriving DecidableEq

inductive ReadFault where
  | file (fault : FileFault)
  | stated (reason : String)
  deriving DecidableEq

inductive Error where
  | configuration (fault : ConfigFault)
  | validation (fault : ValidationFault)
  | unresolved (reference : String) (fault : ResolutionFault)
  | documentNotFound (path : Path)
  | documentUnread (path : Path) (fault : ReadFault)
  | documentMalformed (path : Path) (fault : DocumentFault)
  /-- The open chain of imports, and the document on it that was imported again. -/
  | cyclicImport (chain : List Location) (repeated : Location)
  | unknownAction (name : String)
  | actionFailed (action : String) (reason : Option String)
  | nestedWorkflowFailed (workflow : Location)
  deriving DecidableEq

def ConfigFault.message : ConfigFault → String
  | .emptyExtension => "workflow document extension cannot be empty"
  | .unusableRoot root fault => "invalid workflows root '" ++ root.text ++ "': " ++ fault.message
  | .unreadFile path fault => "failed to read config '" ++ path.text ++ "': " ++ fault.message
  | .malformedFile path fault => "failed to parse config '" ++ path.text ++ "': " ++ fault.message
  | .stated reason => reason

def ValidationFault.message : ValidationFault → String
  | .emptyRoot => "workflows.root cannot be empty"
  | .emptyExtension => "workflows.extension cannot be empty"
  | .separatorInExtension extension =>
    "workflows.extension '" ++ extension ++ "' cannot contain path separators"
  | .longWait limit =>
    "workflows.default_wait_after_ms must be at most " ++ String.ofList (Nat.toDigits 10 limit)
  | .level fault => fault.message
  | .aliasName name => "alias name '" ++ name ++ "' must be a single non-empty word"
  | .aliasReference name => "alias '" ++ name ++ "' must reference a workflow"
  | .paramWithoutValue entry => "parameter '" ++ entry ++ "' must be written as key=value"
  | .paramWithoutName entry => "parameter '" ++ entry ++ "' has an empty key"
  | .secondsNotNumeric value => "sleep expects numeric 'seconds', got " ++ Json.compact value
  | .unusableSeconds seconds fault =>
    "sleep cannot wait " ++ DecimalLayout.plain.render seconds ++ " seconds: " ++ fault.message
  | .stated reason => reason

def ResolutionFault.message : ResolutionFault → String
  | .emptyReference => "reference is empty"
  | .namesNoDocument => "reference must name a workflow document"
  | .baseNotAbsolute base => "base directory '" ++ base.text ++ "' is not absolute"
  | .normal fault => fault.message
  | .outsideRoot location root =>
    "'" ++ location.text ++ "' is outside the workflows root '" ++ root.text ++ "'"
  | .stated reason => reason

def ReadFault.message : ReadFault → String
  | .file fault => fault.message
  | .stated reason => reason

namespace Error

def message : Error → String
  | .configuration fault => "configuration error: " ++ fault.message
  | .validation fault => "validation error: " ++ fault.message
  | .unresolved reference fault =>
    "cannot resolve workflow reference '" ++ reference ++ "': " ++ fault.message
  | .documentNotFound path => "workflow file not found: " ++ path.text
  | .documentUnread path fault =>
    "failed reading workflow file '" ++ path.text ++ "': " ++ fault.message
  | .documentMalformed path fault =>
    "invalid workflow document '" ++ path.text ++ "': " ++ fault.message
  | .cyclicImport chain repeated => "cyclic workflow import detected: " ++
      String.intercalate " -> " ((chain ++ [repeated]).map Location.text)
  | .unknownAction name => "action '" ++ name ++ "' is not registered"
  | .actionFailed action none => "action '" ++ action ++ "' failed"
  | .actionFailed action (some reason) => "action '" ++ action ++ "' failed: " ++ reason
  | .nestedWorkflowFailed workflow => "nested workflow '" ++ workflow.text ++ "' failed"

end Error

end WorkflowEngine
