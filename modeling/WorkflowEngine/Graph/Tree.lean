import WorkflowEngine.Graph

/-! Graphs shown as trees.

The tree of a graph has its entry at the top and below each document the documents that it imports,
in step order. A document is expanded where it first comes up; wherever it comes up again it stands
without what is below it.
-/

set_option autoImplicit false

namespace WorkflowEngine

structure TreeEntry where
  /-- The number of entries above this one. -/
  depth : Nat
  /-- The step of the entry above that imports this one. -/
  stepIndex : Option Nat
  location : Location
  /-- The location came up before and is not expanded again. -/
  again : Bool
  deriving DecidableEq

structure TreePart where
  entries : List TreeEntry
  expanded : List Location

namespace TreePart

def ofEdges (part : ImportEdge → List Location → TreePart) :
    List ImportEdge → List Location → TreePart
  | [], expanded => ⟨[], expanded⟩
  | edge :: rest, expanded =>
    let first := part edge expanded
    let later := ofEdges part rest first.expanded
    ⟨first.entries ++ later.entries, later.expanded⟩

end TreePart

namespace ImportGraph

def treeFrom (g : ImportGraph) :
    Nat → Nat → Option Nat → Location → List Location → TreePart
  | 0, _, _, _, expanded => ⟨[], expanded⟩
  | budget + 1, depth, stepIndex, l, expanded =>
    if expanded.contains l then ⟨[⟨depth, stepIndex, l, true⟩], expanded⟩
    else
      let below := TreePart.ofEdges
        (fun edge => g.treeFrom budget (depth + 1) (some edge.site.stepIndex) edge.target)
        (g.importsOf l) (l :: expanded)
      { below with entries := ⟨depth, stepIndex, l, false⟩ :: below.entries }

/-- The tree of a graph. Locations above an entry differ and have an edge each, so there are no more
levels below the first than there are edges. -/
def tree (g : ImportGraph) : List TreeEntry :=
  (g.treeFrom (g.edges.length + 1) 0 none g.entry []).entries

end ImportGraph

end WorkflowEngine
