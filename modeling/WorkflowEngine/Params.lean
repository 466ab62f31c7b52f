import WorkflowEngine.Value.Json
import WorkflowEngine.Template

/-! Parameters and their scopes.

Parameters are values by name. Texts in declared parameters may hold placeholders, which are filled
from a scope; the values put in their place are not looked at again. A nested workflow sees its
importer's parameters with the step's declarations laid over them; an action sees only the names its
step declares, and there the enclosing workflow's values win.
-/

set_option autoImplicit false

namespace WorkflowEngine

abbrev Params := Dictionary String Value

def Value.shown : Value → List Char
  | .text s => s.toList
  | .null => []
  | other => Json.write other

namespace Params

def named? (scope : Params) (name : List Char) : Option Value :=
  scope.find? (String.ofList (Text.trimChars name))

def fillPiece (scope : Params) (piece : Template.Piece) : List Char :=
  match piece with
  | .placeholder name => ((scope.named? name).map Value.shown).getD piece.written
  | _ => piece.written

def fillText (scope : Params) (text : List Char) : List Char :=
  (Template.pieces text).flatMap scope.fillPiece

/-- A text that is one placeholder becomes the value in scope, with its type. In any other text the
placeholders with a value in scope are replaced by its shown form. -/
def renderText (scope : Params) (s : String) : Value :=
  match Template.soleName? s.toList with
  | some name => (scope.find? (String.ofList name)).getD (.text s)
  | none => .text (String.ofList (scope.fillText s.toList))

mutual

def renderValue (scope : Params) : Value → Value
  | .text s => scope.renderText s
  | .list items => .list (renderItems scope items)
  | .record fields => .record (renderFields scope fields)
  | .null => .null
  | .bool b => .bool b
  | .number n => .number n
termination_by structural v => v

def renderItems (scope : Params) : List Value → List Value
  | [] => []
  | v :: rest => renderValue scope v :: renderItems scope rest
termination_by structural vs => vs

def renderFields (scope : Params) : List (String × Value) → List (String × Value)
  | [] => []
  | (name, v) :: rest => (name, renderValue scope v) :: renderFields scope rest
termination_by structural vs => vs

end

def render (declared scope : Params) : Params :=
  declared.mapValues fun _ v => renderValue scope v

/-- The parameters of `base` with those of `overlay` laid over them. -/
def merge (base overlay : Params) : Params := base.insertAll overlay.entries

def forWorkflow (frame declared : Params) : Params := merge frame (declared.render frame)

def forAction (frame declared : Params) : Params :=
  (declared.render frame).mapValues fun name v => (frame.find? name).getD v

end Params

end WorkflowEngine
