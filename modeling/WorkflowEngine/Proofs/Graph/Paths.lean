import WorkflowEngine.Proofs.Cache.Accesses

/-! Paths that come up in a graph.

All documents of a graph but its entry are targets of imports, and no others are loaded on the way to it or
named by the failure that there is instead. What holds of the path of the entry and of every target that a
resolver gives, holds of all paths that come up.
-/

set_option autoImplicit false

namespace WorkflowEngine

/-- The paths of the documents that an error is about. The place that a refused reference leads to is none of
them, it is only told in words. -/
def Error.paths : Error → List Path
  | .documentNotFound path => [path]
  | .documentUnread path _ => [path]
  | .documentMalformed path _ => [path]
  | .cyclicImport chain repeated => (chain ++ [repeated]).map Location.path
  | .nestedWorkflowFailed workflow => [workflow.path]
  | _ => []

def ImportEdge.paths (e : ImportEdge) : List Path := [e.site.workflow.path, e.target.path]

def ImportGraph.paths (g : ImportGraph) : List Path :=
  g.entry.path :: (g.documents.map fun d => d.location.path) ++ g.edges.flatMap ImportEdge.paths

def GraphFailure.paths (f : GraphFailure) : List Path :=
  (f.site.toList.map fun site => site.workflow.path) ++ f.chain.map Location.path ++ f.error.paths

theorem Cache.paths_of_document_error {c : Cache} {fs : FileSystem} {l : Location} {e : Error}
    (unread : c.document fs l = .error e) : e.paths = [l.path] := by
  unfold document at unread
  split at unread
  · cases unread
  unfold FileSystem.readDocument at unread
  split at unread
  · cases unread
    rfl
  · cases unread
    rfl
  · split at unread
    · cases unread
    · cases unread
      rfl

namespace Resolver

variable {r : Resolver} {fs : FileSystem} {e : Error}

theorem paths_of_confine_error {reference : String} {l : Location}
    (outside : r.confine reference l = .error e) : e.paths = [] := by
  unfold confine at outside
  split at outside
  · cases outside
    rfl
  · cases outside

theorem paths_of_resolve_error {reference : Reference} {directory : Path}
    (unresolved : r.resolve fs reference directory = .error e) : e.paths = [] := by
  unfold resolve at unresolved
  split at unresolved
  · cases unresolved
    rfl
  split at unresolved
  · cases unresolved
    rfl
  split at unresolved
  · cases unresolved
    rfl
  dsimp only at unresolved
  split at unresolved
  · exact paths_of_confine_error unresolved
  · cases unresolved
    rfl

theorem paths_of_resolveTarget_error {target : Target}
    (unresolved : r.resolveTarget fs target = .error e) : e.paths = [] := by
  unfold resolveTarget at unresolved
  split at unresolved
  · exact paths_of_confine_error unresolved
  · split at unresolved
    · exact paths_of_confine_error unresolved
    · exact paths_of_resolve_error unresolved

end Resolver

variable {Q : Path → Prop}

def Resolver.Gives (r : Resolver) (Q : Path → Prop) : Prop :=
  ∀ fs workflow step l, r.importTarget fs workflow step = .ok l → Q l.path

structure Sources.Within (S : Sources) (Q : Path → Prop) : Prop where
  means : ∀ w step l, S.target w step = .ok l → Q l.path
  refused : ∀ w step e, S.target w step = .error e → e.paths = []
  unread : ∀ l e, S.document l = .error e → e.paths = [l.path]

theorem Resolver.Gives.within {r : Resolver} (gives : r.Gives Q) (fs : FileSystem) (cache : Cache) :
    (r.sources fs cache).Within Q where
  means w step l given := gives fs w step l (by rwa [r.sources_target] at given)
  refused w step e failed := paths_of_resolve_error (by rwa [r.sources_target] at failed)
  unread l e failed := Cache.paths_of_document_error (by rwa [r.sources_document] at failed)

section Walk

variable {S : Sources} {fs : FileSystem} {chain : List Location} {w : Location}
  {imports : List (Nat × WorkflowStep)} {settled : List Location} {cache : Cache}

theorem Explores.paths {f : Findings} (explored : Explores S fs chain w imports settled cache f)
    (within : S.Within Q) (inside : Q w.path) :
    (∀ d ∈ f.documents, Q d.location.path) ∧ ∀ edge ∈ f.edges, ∀ path ∈ edge.paths, Q path := by
  induction explored with
  | done => exact ⟨by simp [Findings.nothing], by simp [Findings.nothing]⟩
  | again means _ _ _ ih =>
    obtain ⟨documents, edges⟩ := ih inside
    refine ⟨documents, List.forall_mem_cons.2 ⟨?_, edges⟩⟩
    simp [ImportEdge.paths, inside, within.means _ _ _ means]
  | entered means _ _ stands _ _ ihInner ihLater =>
    have target := within.means _ _ _ means
    obtain ⟨below, edgesBelow⟩ := ihInner target
    obtain ⟨behind, edgesBehind⟩ := ihLater inside
    constructor
    · refine List.forall_mem_cons.2 ⟨?_, List.forall_mem_append.2 ⟨below, behind⟩⟩
      rwa [S.located _ _ stands]
    · refine List.forall_mem_cons.2 ⟨?_, List.forall_mem_append.2 ⟨edgesBelow, edgesBehind⟩⟩
      simp [ImportEdge.paths, inside, target]

theorem Rejects.paths {failure : GraphFailure} (rejected : Rejects S fs chain w imports settled cache failure)
    (within : S.Within Q) (inside : Q w.path) (above : ∀ l ∈ chain, Q l.path) :
    ∀ path ∈ failure.paths, Q path := by
  -- A failure at the document that is gone through names it, its chain and what its error names.
  have here : ∀ {w chain stepIndex error}, Q w.path → (∀ l ∈ chain, Q l.path) →
      (∀ path ∈ error.paths, Q path) →
      ∀ path ∈ GraphFailure.paths ⟨some ⟨w, stepIndex⟩, chain, error⟩, Q path := by
    intro w chain stepIndex error inside above named path member
    simp only [GraphFailure.paths, Option.toList_some, List.map_cons, List.map_nil, List.cons_append,
      List.nil_append, List.mem_cons, List.mem_append, List.mem_map] at member
    rcases member with rfl | ⟨l, member, rfl⟩ | member
    · exact inside
    · exact above l member
    · exact named path member
  induction rejected with
  | unresolved failed => exact here inside above (by simp [within.refused _ _ _ failed])
  | cyclic means again =>
    have whole := List.forall_mem_append.2 ⟨above, List.forall_mem_singleton.2 (above _ again)⟩
    exact here inside above (List.forall_mem_map.2 whole)
  | unloaded means _ _ failed =>
    exact here inside above (by simp [within.unread _ _ failed, within.means _ _ _ means])
  | inside means _ _ _ _ ih =>
    have target := within.means _ _ _ means
    exact ih target (List.forall_mem_append.2 ⟨above, List.forall_mem_singleton.2 target⟩)
  | behindEdge _ _ _ _ ih => exact ih inside above
  | behindImport _ _ _ _ _ _ ih => exact ih inside above

end Walk

namespace Resolver

variable {r : Resolver} {fs : FileSystem} {cache : Cache}

theorem Gives.paths_graph (gives : r.Gives Q) {entry : Location} (given : Q entry.path) {g : ImportGraph}
    (resolved : (r.resolveGraph fs cache entry).1 = .ok g) : ∀ path ∈ g.paths, Q path := by
  cases read : cache.document fs entry with
  | error e =>
    rw [resolveGraph, Cache.load_of_document_error read] at resolved
    cases resolved
  | ok d =>
    rcases explores_or_rejects (r := r) read with ⟨f, explored, found⟩ | ⟨failure, _, _, failed⟩
    · rw [found] at resolved
      cases resolved
      obtain ⟨documents, edges⟩ := explored.paths (gives.within fs cache) given
      intro path member
      simp only [ImportGraph.paths, ImportGraph.documents, List.map_cons, List.cons_append, List.mem_cons,
        List.mem_append, List.mem_map, List.mem_flatMap] at member
      rcases member with rfl | rfl | ⟨d, member, rfl⟩ | ⟨edge, member, inner⟩
      · exact given
      · rwa [Cache.location_of_document read]
      · exact documents d member
      · exact edges edge member path inner
    · rw [failed] at resolved
      cases resolved

theorem Gives.paths_failure (gives : r.Gives Q) {entry : Location} (given : Q entry.path)
    {failure : GraphFailure} (rejected : (r.resolveGraph fs cache entry).1 = .error failure) :
    ∀ path ∈ failure.paths, Q path := by
  cases read : cache.document fs entry with
  | error e =>
    rw [resolveGraph, Cache.load_of_document_error read] at rejected
    cases rejected
    simpa [GraphFailure.paths, Cache.paths_of_document_error read] using given
  | ok d =>
    rcases explores_or_rejects (r := r) read with ⟨f, _, found⟩ | ⟨failure, _, rejects, failed⟩
    · rw [found] at rejected
      cases rejected
    · rw [failed] at rejected
      cases rejected
      exact rejects.paths (gives.within fs cache) given (by simpa using given)

section Targets

variable (gives : r.Gives Q) {target : Target} (given : ∀ l, r.resolveTarget fs target = .ok l → Q l.path)

include gives given

theorem Gives.paths_targetGraph {g : ImportGraph}
    (resolved : (r.resolveTargetGraph fs cache target).1 = .ok g) : ∀ path ∈ g.paths, Q path := by
  unfold resolveTargetGraph at resolved
  cases means : r.resolveTarget fs target with
  | error e =>
    rw [means] at resolved
    cases resolved
  | ok entry =>
    rw [means] at resolved
    exact gives.paths_graph (given entry means) resolved

theorem Gives.paths_targetFailure {failure : GraphFailure}
    (rejected : (r.resolveTargetGraph fs cache target).1 = .error failure) :
    ∀ path ∈ failure.paths, Q path := by
  unfold resolveTargetGraph at rejected
  cases means : r.resolveTarget fs target with
  | error e =>
    rw [means] at rejected
    cases rejected
    simp [GraphFailure.paths, paths_of_resolveTarget_error means]
  | ok entry =>
    rw [means] at rejected
    exact gives.paths_failure (given entry means) rejected

end Targets

section Loads

variable (gives : r.Gives Q)

include gives

theorem Gives.importLoads {enter : Document → List Location → Cache → WalkResult}
    {enters : Document → List Location → Cache → List Location}
    (entered : ∀ d settled cache, ∀ l ∈ enters d settled cache, Q l.path)
    (chain : List Location) (workflow : Location) (imports : List (Nat × WorkflowStep))
    (settled : List Location) (cache : Cache) :
    ∀ l ∈ r.importLoads fs enter enters chain workflow imports settled cache, Q l.path := by
  induction imports generalizing settled cache with
  | nil => simp [Resolver.importLoads]
  | cons first rest ih =>
    rw [Resolver.importLoads]
    split
    · simp
    rename_i target means
    split
    · simp
    split
    · exact ih settled cache
    refine List.forall_mem_cons.2 ⟨gives _ _ _ _ means, ?_⟩
    split
    · simp
    · refine List.forall_mem_append.2 ⟨entered _ _ _, ?_⟩
      split
      · exact ih _ _
      · simp

theorem Gives.walkLoads (budget : Nat) (above : List Location) (d : Document) (settled : List Location)
    (cache : Cache) : ∀ l ∈ r.walkLoads fs budget above d settled cache, Q l.path := by
  induction budget generalizing above d settled cache with
  | zero => simp [Resolver.walkLoads]
  | succ budget ih => exact gives.importLoads (ih _) _ _ _ _ _

theorem Gives.graphLoads {entry : Location} (given : Q entry.path) :
    ∀ l ∈ r.graphLoads fs cache entry, Q l.path := by
  refine List.forall_mem_cons.2 ⟨given, ?_⟩
  split
  · simp
  · exact gives.walkLoads _ _ _ _ _

end Loads

end Resolver

end WorkflowEngine
