import WorkflowEngine.Yaml.Fault
import WorkflowEngine.Yaml.Token

/-! From tokens to nodes.

A node is a scalar, a sequence or a mapping with a tag and an anchor it may have, or an alias of an
anchor read before. A node that has nothing but a tag or an anchor, or is missing behind an
indicator, is an empty plain scalar.
-/

set_option autoImplicit false

namespace WorkflowEngine.Yaml

structure Properties where
  anchor : Option Nat
  tag : Option String

inductive Node where
  | scalar (properties : Properties) (plain : Bool) (text : String)
  | sequence (properties : Properties) (items : List Node)
  | mapping (properties : Properties) (pairs : List (Node × Node))
  | alias (anchor : Nat)

namespace Node

def none : Node := .scalar ⟨.none, .none⟩ true ""

structure Reader where
  tokens : List Token
  /-- The number that each anchor name stands for now. -/
  anchors : List (String × Nat)
  /-- How many different names there are. -/
  anchorCount : Nat
  handles : List (String × String)
  /-- Scalars, aliases, and starts and ends of collections read so far. -/
  events : Nat

abbrev ReaderM := StateT Reader (Except Fault)

namespace ReaderM

def peek : ReaderM Token := do return (← get).tokens.headD .streamEnd

def skip : ReaderM Unit := modify fun r => { r with tokens := r.tokens.drop 1 }

def count (events : Nat) : ReaderM Unit := modify fun r => { r with events := r.events + events }

/-- Number an anchor. A name that is used again is given the next number, yet does not use it up. -/
def number (name : String) : ReaderM Nat := do
  let r ← get
  let known := r.anchors.any fun entry => entry.1 == name
  set { r with
    anchors := (name, r.anchorCount) :: r.anchors
    anchorCount := if known then r.anchorCount else r.anchorCount + 1 }
  return r.anchorCount

def wholeTag (handle suffix : String) : ReaderM String := do
  if handle == "" then return suffix
  match (← get).handles.lookup handle with
  | some start => return start ++ suffix
  | .none => throw .tag

def expect (token : Token) (fault : Fault) : ReaderM Unit := do
  if (← peek) = token then skip else throw fault

end ReaderM

open ReaderM

def tag? : ReaderM (Option String) := do
  match ← peek with
  | .tag handle suffix => do
    skip
    return some (← wholeTag handle suffix)
  | _ => return .none

/-- An anchor and a tag in either order. The anchor is numbered once both are read. -/
def properties : ReaderM Properties := do
  match ← peek with
  | .anchor name => do
    skip
    let tag ← tag?
    return ⟨some (← number name), tag⟩
  | .tag handle suffix => do
    skip
    let tag ← wholeTag handle suffix
    match ← peek with
    | .anchor name => do
      skip
      return ⟨some (← number name), some tag⟩
    | _ => return ⟨.none, some tag⟩
  | _ => return ⟨.none, .none⟩

def empty (properties : Properties) : ReaderM Node := do
  count 1
  return .scalar properties true ""

def endsBlockValue : Token → Bool
  | .key | .value | .blockEnd => true
  | _ => false

def endsIndentlessItem : Token → Bool
  | .blockEntry | .key | .value | .blockEnd => true
  | _ => false

def endsBlockItem : Token → Bool
  | .blockEntry | .blockEnd => true
  | _ => false

def endsFlowKey : Token → Bool
  | .value | .flowEntry | .closeMapping => true
  | _ => false

def endsFlowValue : Token → Bool
  | .flowEntry | .closeMapping => true
  | _ => false

def endsPairKey : Token → Bool
  | .value | .flowEntry | .closeSequence => true
  | _ => false

def endsPairValue : Token → Bool
  | .flowEntry | .closeSequence => true
  | _ => false

mutual

/-- Read a node. Block collections may be allowed, and so may be a sequence whose entries are not
indented. The budget bounds the steps, each of which reads a token or ends a collection. -/
def read (budget : Nat) (block indentless : Bool) : ReaderM Node :=
  match budget with
  | 0 => throw .misplaced
  | budget + 1 => do
    match ← peek with
    | .alias name => do
      skip
      count 1
      match (← get).anchors.lookup name with
      | some id => return .alias id
      | .none => throw .unknownAnchor
    | _ => do
      let properties ← properties
      match ← peek with
      | .scalar text plain => do
        skip
        count 1
        return .scalar properties plain text
      | .openSequence => do
        skip
        count 2
        return .sequence properties (← readFlowSequence budget true)
      | .openMapping => do
        skip
        count 2
        return .mapping properties (← readFlowMapping budget true)
      | .blockEntry =>
        if indentless then do
          count 2
          return .sequence properties (← readIndentless budget)
        else unexpected properties
      | .blockSequence =>
        if block then do
          skip
          count 2
          return .sequence properties (← readBlockSequence budget)
        else unexpected properties
      | .blockMapping =>
        if block then do
          skip
          count 2
          return .mapping properties (← readBlockMapping budget)
        else unexpected properties
      | _ => unexpected properties
where
  unexpected (properties : Properties) : ReaderM Node :=
    if properties.anchor.isSome || properties.tag.isSome then empty properties
    else throw .misplaced

/-- Read a node, or an empty one in front of a token that shows that it is missing. -/
def readUnless (budget : Nat) (block indentless : Bool) (missing : Token → Bool) : ReaderM Node :=
  match budget with
  | 0 => throw .misplaced
  | budget + 1 => do
    if missing (← peek) then empty ⟨.none, .none⟩ else read budget block indentless

def readBlockSequence (budget : Nat) : ReaderM (List Node) :=
  match budget with
  | 0 => throw .misplaced
  | budget + 1 => do
    match ← peek with
    | .blockEntry => do
      skip
      let item ← readUnless budget true false endsBlockItem
      return item :: (← readBlockSequence budget)
    | .blockEnd => do
      skip
      return []
    | _ => throw .misplaced

def readIndentless (budget : Nat) : ReaderM (List Node) :=
  match budget with
  | 0 => throw .misplaced
  | budget + 1 => do
    match ← peek with
    | .blockEntry => do
      skip
      let item ← readUnless budget true false endsIndentlessItem
      return item :: (← readIndentless budget)
    | _ => return []

def readBlockMapping (budget : Nat) : ReaderM (List (Node × Node)) :=
  match budget with
  | 0 => throw .misplaced
  | budget + 1 => do
    match ← peek with
    | .key => do
      skip
      let key ← readUnless budget true true endsBlockValue
      let value ← readValue budget true endsBlockValue
      return (key, value) :: (← readBlockMapping budget)
    | .blockEnd => do
      skip
      return []
    | _ => throw .misplaced

def readValue (budget : Nat) (block : Bool) (missing : Token → Bool) : ReaderM Node :=
  match budget with
  | 0 => throw .misplaced
  | budget + 1 => do
    match ← peek with
    | .value => do
      skip
      readUnless budget block block missing
    | _ => empty ⟨.none, .none⟩

def readFlowSequence (budget : Nat) (first : Bool) : ReaderM (List Node) :=
  match budget with
  | 0 => throw .misplaced
  | budget + 1 => do
    if (← peek) = .closeSequence then do
      skip
      return []
    else do
      if !first then expect .flowEntry .misplaced
      match ← peek with
      | .closeSequence => do
        skip
        return []
      | .key => do
        skip
        count 2
        let pair ← readPair budget
        return .mapping ⟨.none, .none⟩ [pair] :: (← readFlowSequence budget false)
      | _ => do
        let item ← read budget false false
        return item :: (← readFlowSequence budget false)

/-- A mapping of one pair inside a sequence. A token in the place of a missing key is lost. -/
def readPair (budget : Nat) : ReaderM (Node × Node) :=
  match budget with
  | 0 => throw .misplaced
  | budget + 1 => do
    let token ← peek
    let key ← readUnless budget false false endsPairKey
    -- The token shows that the key is missing and is taken for it.
    if endsPairKey token then skip
    let value ← readValue budget false endsPairValue
    return (key, value)

def readFlowMapping (budget : Nat) (first : Bool) : ReaderM (List (Node × Node)) :=
  match budget with
  | 0 => throw .misplaced
  | budget + 1 => do
    if (← peek) = .closeMapping then do
      skip
      return []
    else do
      if !first then expect .flowEntry .misplaced
      match ← peek with
      | .closeMapping => do
        skip
        return []
      | .key => do
        skip
        let key ← readUnless budget false false endsFlowKey
        let value ← readValue budget false endsFlowValue
        return (key, value) :: (← readFlowMapping budget false)
      | _ => do
        let key ← read budget false false
        let value ← empty ⟨.none, .none⟩
        return (key, value) :: (← readFlowMapping budget false)

end

def readDirectives (versioned : Bool) (handles : List (String × String)) :
    List Token → Except Fault (List (String × String) × List Token)
  | .version major minor :: rest =>
    if versioned || major != 1 || (minor != 1 && minor != 2) then .error .directive
    else readDirectives true handles rest
  | .tagHandle handle start :: rest =>
    if handles.any fun entry => entry.1 == handle then .error .directive
    else readDirectives versioned ((handle, start) :: handles) rest
  | rest => .ok (handles, rest)

def defaultHandles : List (String × String) := [("!", "!"), ("!!", "tag:yaml.org,2002:")]

end Node

/-- A single document: its root, unless there is none at all, and the count of its events. -/
structure Document where
  root : Option Node
  events : Nat

namespace Document

def isFinished : List Token → Bool
  | .documentEnd :: rest => isFinished rest
  | .streamEnd :: _ => true
  | _ => false

def endsContent : Token → Bool
  | .version _ _ | .tagHandle _ _ | .documentStart | .documentEnd | .streamEnd => true
  | _ => false

def ofTokens (tokens : List Token) : Except Fault Document := do
  if tokens.head? = some .streamEnd then .ok ⟨none, 0⟩
  else do
    let (handles, rest) ← Node.readDirectives false [] tokens
    let handles := handles ++ Node.defaultHandles
    let budget := 4 * rest.length + 8
    let isExplicit := rest.head? = some .documentStart
    let needsStart := rest.length != tokens.length
    if needsStart && !isExplicit then .error .misplaced
    else do
      let content := if isExplicit then rest.drop 1 else rest
      let read : Node.ReaderM Node := do
        if isExplicit && endsContent (← Node.ReaderM.peek) then Node.empty ⟨none, none⟩
        else Node.read budget true false
      let (root, left) ← read.run ⟨content, [], 0, handles, 0⟩
      if isFinished left.tokens then .ok ⟨some root, left.events⟩ else .error .documents

end Document

end WorkflowEngine.Yaml
