import WorkflowEngine.Yaml.Node
import WorkflowEngine.Yaml.Scalar

/-! Trees without aliases.

An alias stands for a copy of the node that its anchor marks. Collections may be nested 128 deep,
and aliases may be followed a hundred times as often as the document has events; so a node that
contains itself is refused.
-/

set_option autoImplicit false

namespace WorkflowEngine.Yaml

inductive Tree where
  | scalar (tag : Option String) (plain : Bool) (text : String)
  | sequence (tag : Option String) (items : List Tree)
  | mapping (tag : Option String) (pairs : List (Tree × Tree))

namespace Node

def mark (properties : Properties) (node : Node) : List (Nat × Node) :=
  match properties.anchor with
  | some id => [(id, node)]
  | Option.none => []

mutual

def anchored : Node → List (Nat × Node)
  | .scalar properties plain text => mark properties (.scalar properties plain text)
  | .sequence properties items =>
    mark properties (.sequence properties items) ++ anchoredItems items
  | .mapping properties pairs =>
    mark properties (.mapping properties pairs) ++ anchoredPairs pairs
  | .alias _ => []
termination_by structural node => node

def anchoredItems : List Node → List (Nat × Node)
  | [] => []
  | node :: rest => anchored node ++ anchoredItems rest
termination_by structural nodes => nodes

def anchoredPairs : List (Node × Node) → List (Nat × Node)
  | [] => []
  | (key, value) :: rest => anchored key ++ (anchored value ++ anchoredPairs rest)
termination_by structural nodes => nodes

end

end Node

/-- The anchored nodes of a document, the last one first, and how many aliases may be followed. -/
structure Anchors where
  nodes : List (Nat × Node)
  limit : Nat

abbrev CountingM := StateT Nat (Except Fault)

namespace Anchors

def ofDocument (root : Node) (events : Nat) : Anchors :=
  ⟨root.anchored.reverse, 100 * events⟩

def follow (anchors : Anchors) : Node → CountingM Node
  | .alias id => do
    let count ← get
    -- Every alias counts, also one that was followed before.
    if anchors.limit ≤ count then throw .repetition
    set (count + 1)
    match anchors.nodes.lookup id with
    | some node => return node
    | none => throw .unknownAnchor
  | node => return node

/-- The tree of a node, with at most so many collections inside each other. -/
def expand (anchors : Anchors) : Nat → Node → CountingM Tree
  | 0, node => do
    match ← anchors.follow node with
    | .scalar properties plain text => return .scalar properties.tag plain text
    | _ => throw .depth
  | depth + 1, node => do
    match ← anchors.follow node with
    | .scalar properties plain text => return .scalar properties.tag plain text
    | .sequence properties items =>
      return .sequence properties.tag (← items.mapM (anchors.expand depth))
    | .mapping properties pairs =>
      return .mapping properties.tag (← pairs.mapM fun pair =>
        return (← anchors.expand depth pair.1, ← anchors.expand depth pair.2))
    | .alias _ => throw .unknownAnchor

end Anchors

namespace Tree

def ownTag? (tag : Option String) : Option String :=
  match tag.map String.toList with
  | some ('!' :: name) => some (String.ofList name)
  | _ => none

def text? : Tree → Option String
  | .scalar _ _ text => some text
  | _ => none

/-- A parameter value for a scalar; a number without a decimal form becomes null. -/
def scalarValue : Scalar → WorkflowEngine.Value
  | .null => .null
  | .bool b => .bool b
  | .number (.real x) => if x.isFinite then .real x else .null
  | .number n => .number n
  | .text s => .text s

mutual

/-- The parameter value that a tree writes. Tags of the document's own are refused, the text of any
scalar serves as a field name, and the last of several fields of one name stays. -/
def toValue : Tree → Except Fault WorkflowEngine.Value
  | .scalar tag plain text =>
    if (ownTag? tag).isSome then .error (.kind "a value without a tag")
    else (Scalar.of tag plain text).map scalarValue
  | .sequence tag items =>
    if (ownTag? tag).isSome then .error (.kind "a value without a tag")
    else (itemValues items).map .list
  | .mapping tag pairs =>
    if (ownTag? tag).isSome then .error (.kind "a value without a tag")
    else (fieldValues pairs).map .ofFields
termination_by structural tree => tree

def itemValues : List Tree → Except Fault (List WorkflowEngine.Value)
  | [] => .ok []
  | tree :: rest => do
    let v ← toValue tree
    return v :: (← itemValues rest)
termination_by structural trees => trees

def fieldValues : List (Tree × Tree) → Except Fault (List (String × WorkflowEngine.Value))
  | [] => .ok []
  | (key, tree) :: rest =>
    match key.text? with
    | none => .error (.kind "a string key")
    | some name => do
      let v ← toValue tree
      return (name, v) :: (← fieldValues rest)
termination_by structural trees => trees

end

end Tree

end WorkflowEngine.Yaml
