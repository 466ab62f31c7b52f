import WorkflowEngine.Yaml.Tree

/-! Generic YAML values.

A value keeps the tags of the document's own and any values as keys; no two keys of a mapping agree.
-/

set_option autoImplicit false

namespace WorkflowEngine.Yaml

/-- Any YAML value. A tag of the document's own is kept around the value. -/
inductive Value where
  | null
  | bool (value : Bool)
  | number (value : Number)
  | text (value : String)
  | sequence (items : List Value)
  | mapping (pairs : List (Value × Value))
  | tagged (tag : String) (value : Value)

namespace Value

def sameNumber : Number → Number → Bool
  | .integer a, .integer b => a == b
  | .real .notANumber, .real .notANumber => true
  | .real a, .real b => a.sameNumber b
  | _, _ => false

mutual

/-- Equality as keys: numbers by value, mappings in any order. -/
def agrees : Value → Value → Bool
  | .null, .null => true
  | .bool a, .bool b => a == b
  | .number a, .number b => sameNumber a b
  | .text a, .text b => a == b
  | .sequence as, .sequence bs => agreesItems as bs
  | .mapping as, .mapping bs => as.length == bs.length && agreesPairs as bs
  | .tagged s a, .tagged t b => s == t && agrees a b
  | _, _ => false
termination_by structural v => v

def agreesItems : List Value → List Value → Bool
  | [], [] => true
  | a :: as, b :: bs => agrees a b && agreesItems as bs
  | _, _ => false
termination_by structural vs => vs

def agreesPairs : List (Value × Value) → List (Value × Value) → Bool
  | [], _ => true
  | (key, a) :: as, bs =>
    bs.any (fun pair => agrees key pair.1 && agrees a pair.2) && agreesPairs as bs
termination_by structural vs => vs

end

def untagged : Value → Value
  | .tagged _ v => v.untagged
  | v => v

def text? (v : Value) : Option String :=
  match v.untagged with
  | .text s => some s
  | _ => none

def ofScalar : Scalar → Value
  | .null => .null
  | .bool b => .bool b
  | .number n => .number n
  | .text s => .text s

/-- Put a value into the tag of its node. The tag needs a name. -/
def inTag (tag : Option String) (v : Value) : Except Fault Value :=
  match Tree.ownTag? tag with
  | none => .ok v
  | some "" => .error .tag
  | some name => .ok (.tagged name v)

/-- Add a pair behind those read before; a key that agrees with one of theirs is refused. -/
def addPair (key value : Value) (rest : List (Value × Value)) :
    Except Fault (List (Value × Value)) :=
  if rest.any fun pair => agrees key pair.1 then .error .duplicateKey
  else .ok ((key, value) :: rest)

mutual

/-- The value that a tree writes. Inside a mapping with a tag of the document's own, the keys' tags
do not count. -/
def ofTree (ignoreTag : Bool) : Tree → Except Fault Value
  | .scalar tag plain written =>
    if ignoreTag || (Tree.ownTag? tag).isSome then do
      let v ← Scalar.of none plain written
      if ignoreTag then .ok (ofScalar v) else inTag tag (ofScalar v)
    else (Scalar.of tag plain written).map ofScalar
  | .sequence tag items => do
    let values ← ofItems items
    if ignoreTag then .ok (.sequence values) else inTag tag (.sequence values)
  | .mapping tag pairs => do
    let values ← ofPairs (ignoreTag || (Tree.ownTag? tag).isSome) pairs
    if ignoreTag then .ok (.mapping values) else inTag tag (.mapping values)
termination_by structural tree => tree

def ofItems : List Tree → Except Fault (List Value)
  | [] => .ok []
  | tree :: rest => do
    let v ← ofTree false tree
    return v :: (← ofItems rest)
termination_by structural trees => trees

def ofPairs (ignoreTag : Bool) : List (Tree × Tree) → Except Fault (List (Value × Value))
  | [] => .ok []
  | (key, value) :: rest => do
    let k ← ofTree ignoreTag key
    let v ← ofTree false value
    addPair k v (← ofPairs ignoreTag rest)
termination_by structural trees => trees

end

mutual

/-- The value as a parameter value. Tags are refused, but not around field names, which are texts;
the last of several fields of one name stays. -/
def toParameter : Value → Except Fault WorkflowEngine.Value
  | .null => .ok .null
  | .bool b => .ok (.bool b)
  | .number n => .ok (Tree.scalarValue (.number n))
  | .text s => .ok (.text s)
  | .sequence items => (itemParameters items).map .list
  | .mapping pairs => (fieldParameters pairs).map .ofFields
  | .tagged _ _ => .error (.kind "a value without a tag")
termination_by structural v => v

def itemParameters : List Value → Except Fault (List WorkflowEngine.Value)
  | [] => .ok []
  | v :: rest => do
    let w ← toParameter v
    return w :: (← itemParameters rest)
termination_by structural vs => vs

def fieldParameters : List (Value × Value) → Except Fault (List (String × WorkflowEngine.Value))
  | [] => .ok []
  | (key, v) :: rest =>
    match key.text? with
    | none => .error (.kind "a string key")
    | some name => do
      let w ← toParameter v
      return (name, w) :: (← fieldParameters rest)
termination_by structural vs => vs

end

end Value

end WorkflowEngine.Yaml
