import WorkflowEngine.Proofs.Graph.Representation
import WorkflowEngine.Report
import Mathlib.Data.List.Dedup
import Mathlib.Data.List.Forall2

/-! How trees are printed.

An entry of a tree is one printed line: two spaces for each level above it, the step index in brackets unless it
stands for the entry document, the location as it is called below the root, and last either that the document stands
above or its description. What is printed is told here in its characters, and is shown to be what a report writes.
-/

set_option autoImplicit false

namespace WorkflowEngine

namespace Location

inductive Called (root : Location) : Location → String → Prop
  | below (names : List String) : Called root ⟨root.names ++ names⟩ (String.intercalate "/" names)
  | outside {l : Location} : ¬ root.names <+: l.names → Called root l l.text

theorem namesBelow?_append (root names : List String) : namesBelow? root (root ++ names) = some names := by
  induction root with
  | nil => rfl
  | cons first rest ih => simp [namesBelow?, ih]

theorem append_of_namesBelow? {root names below : List String} (found : namesBelow? root names = some below) :
    names = root ++ below := by
  induction root generalizing names with
  | nil => exact Option.some.inj found
  | cons first rest ih =>
    cases names with
    | nil => cases found
    | cons name names =>
      rw [namesBelow?] at found
      split at found
      · rename_i same
        rw [same, ih found, List.cons_append]
      · cases found

theorem called_relativeTo (root l : Location) : Called root l (relativeTo root l) := by
  unfold relativeTo
  split
  · rename_i names found
    obtain rfl : l = ⟨root.names ++ names⟩ := congrArg mk (append_of_namesBelow? found)
    exact .below names
  · rename_i found
    refine .outside ?_
    rintro ⟨names, whole⟩
    rw [← whole, namesBelow?_append] at found
    cases found

end Location

namespace ImportGraph

inductive Remark (g : ImportGraph) (e : TreeEntry) : String → Prop
  | again : e.again = true → Remark g e " (see above)"
  | described {d : Document} {text : String} : e.again = false → d ∈ g.documents → d.location = e.location →
      d.description = some text → Remark g e ("  # " ++ text)
  | plain {d : Document} : e.again = false → d ∈ g.documents → d.location = e.location →
      d.description = none → Remark g e ""

inductive Line (root : Location) (g : ImportGraph) (e : TreeEntry) : String → Prop
  | top {called remark : String} : e.stepIndex = none → root.Called e.location called → g.Remark e remark →
      Line root g e (String.ofList (List.replicate (2 * e.depth) ' ') ++ called ++ remark)
  | step {stepIndex : Nat} {called remark : String} : e.stepIndex = some stepIndex →
      root.Called e.location called → g.Remark e remark →
      Line root g e (String.ofList (List.replicate (2 * e.depth) ' ') ++ "[" ++ toString stepIndex ++ "] " ++
        called ++ remark)

/-- The last line: how many documents, imports and different actions there are. -/
def closingLine (g : ImportGraph) : String :=
  toString g.documents.length ++ " documents, " ++ toString g.edges.length ++ " imports, " ++
    toString (g.documents.flatMap Document.actionNames).dedup.length ++ " distinct actions"

/-- A text prints a tree: the lines of its entries in order and a last one, and nothing else. -/
def Printed (root : Location) (g : ImportGraph) (tree : List TreeEntry) (text : String) : Prop :=
  ∃ printed, List.Forall₂ (g.Line root) tree printed ∧
    text = String.join ((printed ++ [g.closingLine]).map (· ++ "\n"))

variable {g : ImportGraph}

theorem length_actionNames (g : ImportGraph) :
    g.actionNames.length = (g.documents.flatMap Document.actionNames).dedup.length := by
  refine ((List.perm_ext_iff_of_nodup (Dictionary.nodup_keys _) (List.nodup_dedup _)).2 fun name => ?_).length_eq
  rw [Dictionary.mem_keys_ofList, List.mem_dedup, List.map_map]
  simp

end ImportGraph

namespace Report

open ImportGraph

variable {g : ImportGraph} {S : Sources} {entry : Location} {e : TreeEntry}

theorem count_eq_toString (n : Nat) : count n = toString n := rfl

theorem indent_eq (depth : Nat) : indent depth = String.ofList (List.replicate (2 * depth) ' ') := by
  induction depth with
  | zero => rfl
  | succ depth ih =>
    have step : indent (depth + 1) = "  " ++ indent depth := by
      simp [indent, Text.repeated, List.replicate_succ]
    rw [step, ih, Nat.mul_succ, Nat.add_comm, List.replicate_add, String.ofList_append]
    rfl

theorem remark_descriptionOf (represents : g.Represents S entry) (opened : e.again = false)
    (inside : e.location ∈ g.locations) : g.Remark e (descriptionOf g e.location) := by
  obtain ⟨d, found⟩ := represents.exists_document? inside
  obtain ⟨member, located⟩ := mem_of_document? found
  rw [descriptionOf, found, Option.bind_some]
  cases described : d.description with
  | none => exact .plain opened member located described
  | some text => exact .described opened member located described

theorem line_treeLine (root : Location) (represents : g.Represents S entry)
    (inside : e.again = false → e.location ∈ g.locations) : g.Line root e (treeLine root g e) := by
  have called := Location.called_relativeTo root e.location
  have remark : g.Remark e (if e.again then " (see above)" else descriptionOf g e.location) := by
    cases again : e.again with
    | true => exact .again again
    | false => exact remark_descriptionOf represents again (inside again)
  rw [treeLine, indent_eq]
  cases index : e.stepIndex with
  | none =>
    dsimp only
    rw [String.append_empty]
    exact .top index called remark
  | some stepIndex =>
    dsimp only
    rw [count_eq_toString, ← String.append_assoc, ← String.append_assoc]
    exact .step index called remark

theorem printed_graphText (root : Location) (represents : g.Represents S entry)
    (inside : ∀ e ∈ g.tree, e.again = false → e.location ∈ g.locations) :
    g.Printed root g.tree (graphText root g) := by
  refine ⟨g.tree.map (treeLine root g), ?_, ?_⟩
  · rw [List.forall₂_map_right_iff, List.forall₂_same]
    exact fun e member => line_treeLine root represents (inside e member)
  · rw [graphText, lines, length_actionNames]
    rfl

end Report

end WorkflowEngine
