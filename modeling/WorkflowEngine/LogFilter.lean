import WorkflowEngine.Text.Pieces
import WorkflowEngine.Number.Reading

/-! Log levels and filters.

A filter is one level, or parts between commas: a level or target, or a target and its level on the
two sides of an equals sign. A level is a word in any case or a number up to five.
-/

set_option autoImplicit false

namespace WorkflowEngine

inductive LogFilterFault where
  | empty
  | notALevel (text : String)
  | notAFilter (text : String)
  deriving DecidableEq

def LogFilterFault.message : LogFilterFault → String
  | .empty => "logging.level cannot be empty"
  | .notALevel text => "logging.level '" ++ text ++ "' is not a level: expected one of \"off\", " ++
      "\"error\", \"warn\", \"info\", \"debug\", \"trace\", or a number 0-5"
  | .notAFilter text => "logging.level '" ++ text ++ "' is not a valid filter: invalid directive"

namespace LogFilter

def levelWords : List String := ["off", "error", "warn", "info", "debug", "trace"]

def isLevelNumber (cs : List Char) : Bool :=
  let digits := match cs with
    | '+' :: rest => rest
    | _ => cs
  match natOfDigits? 10 digits with
  | some n => n ≤ 5
  | none => false

def isLevel (cs : List Char) : Bool :=
  (levelWords.map String.toList).contains (cs.map Char.toLower) || isLevelNumber cs

/-- The characters that may start a target. All beyond ASCII count as letters. -/
def isTargetChar (c : Char) : Bool :=
  c.isAlphanum || c == '_' || c == '-' || c == ':' || 0x80 ≤ c.toNat

def hasOuterBlank (cs : List Char) : Bool :=
  Text.trimChars cs != cs

/-- A part of a filter. Fields and spans between brackets are not looked into. -/
def isPart (cs : List Char) : Bool :=
  match cs with
  | [] => true
  | _ =>
    match Text.trimChars cs with
    | [] => false
    | first :: rest =>
      let part := first :: rest
      if part.contains '[' then first == '[' || isTargetChar first
      else match Text.cutAtFirst? '=' part with
        | none => isTargetChar first
        | some (_, level) =>
          isTargetChar first && !hasOuterBlank cs && (level.isEmpty || isLevel level)

def fault? (text : String) : Option LogFilterFault :=
  let cs := Text.trimChars text.toList
  let shown := String.ofList cs
  if cs.isEmpty then some .empty
  else if !(cs.contains '=' || cs.contains ',') && !isLevel cs then some (.notALevel shown)
  else if (Text.pieces (· == ',') cs).all isPart then none
  else some (.notAFilter shown)

end LogFilter

end WorkflowEngine
