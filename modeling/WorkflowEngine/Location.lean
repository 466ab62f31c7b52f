import WorkflowEngine.Path
import WorkflowEngine.Dictionary.Order

/-! Locations.

A location is the chain of names that leads from the top directory to a file or directory. It is the
one identity that a document has: two locations are equal exactly when their names are. Names are
texts, so nothing is lost when a location is printed. In bytes a name may be no text, and another
one be printed like it: see `RawLocation`.
-/

set_option autoImplicit false

namespace WorkflowEngine

structure Location where
  names : List String
  deriving DecidableEq

namespace Location

instance : KeyOrder Location where
  before a b := KeyOrder.before a.names b.names
  irreflexive a := KeyOrder.irreflexive a.names
  transitive a b c := KeyOrder.transitive a.names b.names c.names
  total a b h₁ h₂ := by
    cases a
    cases b
    exact congrArg Location.mk (KeyOrder.total _ _ h₁ h₂)

def top : Location := ⟨[]⟩

def text (l : Location) : String :=
  match l.names with
  | [] => "/"
  | names => String.join (names.map ("/" ++ ·))

def path (l : Location) : Path := ⟨l.text⟩

def child (l : Location) (name : String) : Location := ⟨l.names ++ [name]⟩

def directory (l : Location) : Location := ⟨l.names.dropLast⟩

def isUnder (l root : Location) : Bool := root.names.isPrefixOf l.names

def namesBelow? : List String → List String → Option (List String)
  | [], names => some names
  | _ :: _, [] => none
  | r :: root, n :: names => if r = n then namesBelow? root names else none

/-- The spelling below a root, or the full one for a location outside it. -/
def relativeTo (root l : Location) : String :=
  match namesBelow? root.names l.names with
  | some names => String.intercalate "/" names
  | none => l.text

/-- A file name cut at its last dot, unless the dot stands first. -/
def cutExtension (name : String) : String × Option String :=
  match Text.cutAtFirst? '.' name.toList.reverse with
  | some (after, before) =>
    if before.isEmpty then (name, none)
    else (String.ofList before.reverse, some (String.ofList after.reverse))
  | none => (name, none)

def name (l : Location) : String :=
  match l.names.getLast? with
  | some last => (cutExtension last).1
  | none => l.text

end Location

end WorkflowEngine
