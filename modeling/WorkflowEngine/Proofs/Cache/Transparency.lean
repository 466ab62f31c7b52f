import WorkflowEngine.Proofs.Cache.Accesses
import WorkflowEngine.Proofs.Graph.Unshared
import Mathlib.Data.Option.Basic

/-! What a cache cannot change.

While files stay as they are, a document from the cache is the one that would be read. A search or a run then
comes to the same end on any two caches, step by step, though one of them may load what the other one has.
-/

set_option autoImplicit false

namespace WorkflowEngine

/-- Whether a document comes from the cache or from its file makes no difference. -/
def Cache.Mirrors (c : Cache) (fs : FileSystem) : Prop := c.document fs = fs.readDocument

theorem Cache.mirrors_empty (fs : FileSystem) : Cache.empty.Mirrors fs := rfl

theorem Cache.mirrors_load {c : Cache} {fs : FileSystem} (mirrors : c.Mirrors fs) (l : Location) :
    (c.load fs l).2.Mirrors fs := by
  rw [Mirrors, document_load]
  exact mirrors

theorem Cache.load_of_mirrors {c : Cache} {fs : FileSystem} (mirrors : c.Mirrors fs) (l : Location) :
    ∃ after, after.Mirrors fs ∧ c.load fs l = (fs.readDocument l, after) := by
  refine ⟨(c.load fs l).2, mirrors_load mirrors l, Prod.ext ?_ rfl⟩
  rw [load_fst, mirrors]

theorem Cache.document_replay (c : Cache) (fs : FileSystem) (loads : List Location) :
    (c.replay (loads.map (.load fs))).document fs = c.document fs := by
  induction loads generalizing c with
  | nil => rfl
  | cons l later ih =>
    rw [List.map_cons, replay_cons, after, ih, document_load]

/-- What is found below an open document depends on the cache in nothing but the cache that is left. -/
theorem Explores.unique {S : Sources} {fs : FileSystem} {chain : List Location} {w : Location}
    {imports : List (Nat × WorkflowStep)} {settled : List Location} {cache other : Cache}
    {f g : Findings} (explored : Explores S fs chain w imports settled cache f)
    (again : Explores S fs chain w imports settled other g) :
    f.documents = g.documents ∧ f.edges = g.edges ∧ f.settled = g.settled := by
  induction explored generalizing other g with
  | done =>
    cases again
    exact ⟨rfl, rfl, rfl⟩
  | again means _ known _ ih =>
    cases again with
    | again same _ _ behind =>
      obtain rfl := Except.ok.inj (means.symm.trans same)
      obtain ⟨documents, edges, settled⟩ := ih behind
      exact ⟨documents, congrArg (List.cons _) edges, settled⟩
    | entered same _ new =>
      obtain rfl := Except.ok.inj (means.symm.trans same)
      exact absurd known new
  | entered means _ new loaded _ _ ihInner ihLater =>
    cases again with
    | again same _ known =>
      obtain rfl := Except.ok.inj (means.symm.trans same)
      exact absurd known new
    | entered same _ _ stands inside behind =>
      obtain rfl := Except.ok.inj (means.symm.trans same)
      obtain rfl := Except.ok.inj (loaded.symm.trans stands)
      obtain ⟨documents, edges, settled⟩ := ihInner inside
      -- The later imports skip the same documents, for the same ones are settled.
      rw [← settled] at behind
      obtain ⟨laterDocuments, laterEdges, laterSettled⟩ := ihLater behind
      simp only [Findings.behindImport, documents, edges, laterDocuments, laterEdges, laterSettled,
        and_self]

namespace Resolver

variable {r : Resolver} {fs : FileSystem} {cache other : Cache}

/-- A search comes to the same end on any two caches from which the same documents are had. -/
theorem resolveGraph_fst_eq (same : cache.document fs = other.document fs) (entry : Location) :
    (r.resolveGraph fs cache entry).1 = (r.resolveGraph fs other entry).1 := by
  have sources : r.sources fs cache = r.sources fs other := Sources.ext same rfl
  -- Both come to the end of a check, which knows nothing of caches.
  obtain ⟨first, checked⟩ := r.exists_checkFrom fs cache entry
  obtain ⟨second, again⟩ := r.exists_checkFrom fs other entry
  rw [sources] at checked
  have verdict := (Sources.checkFrom_mono (Nat.le_max_left first second) checked).symm.trans
    (Sources.checkFrom_mono (Nat.le_max_right first second) again)
  rcases found : r.resolveGraph fs cache entry with ⟨failure | g, after⟩
  · rcases more : r.resolveGraph fs other entry with ⟨twin | h, behind⟩
    · simpa [found, more, Except.map] using verdict
    · simp [found, more, Except.map] at verdict
  · rcases more : r.resolveGraph fs other entry with ⟨twin | h, behind⟩
    · simp [found, more, Except.map] at verdict
    · obtain ⟨d, f, read, explored, rfl, _⟩ := explores_of_resolveGraph found
      obtain ⟨e, k, stands, repeated, rfl, _⟩ := explores_of_resolveGraph more
      obtain rfl := Except.ok.inj (read.symm.trans ((congrFun same entry).trans stands))
      rw [sources] at explored
      obtain ⟨documents, edges, _⟩ := explored.unique repeated
      simp only [documents, edges]

theorem resolveTargetGraph_fst_eq (same : cache.document fs = other.document fs) (target : Target) :
    (r.resolveTargetGraph fs cache target).1 = (r.resolveTargetGraph fs other target).1 := by
  unfold resolveTargetGraph
  cases r.resolveTarget fs target with
  | error e => rfl
  | ok entry => exact resolveGraph_fst_eq same entry

theorem document_resolveTargetGraph (r : Resolver) (fs : FileSystem) (cache : Cache) (target : Target) :
    (r.resolveTargetGraph fs cache target).2.document fs = cache.document fs := by
  unfold resolveTargetGraph
  cases r.resolveTarget fs target with
  | error e => rfl
  | ok entry =>
    dsimp only
    rw [← replay_graphAccesses, graphAccesses, Cache.document_replay]

theorem resolveTargetGraph_of_mirrors (mirrors : cache.Mirrors fs) (target : Target) :
    ∃ after, after.Mirrors fs ∧
      r.resolveTargetGraph fs cache target = ((r.resolveTargetGraph fs .empty target).1, after) :=
  ⟨_, (r.document_resolveTargetGraph fs cache target).trans mirrors,
    Prod.ext (resolveTargetGraph_fst_eq (mirrors.trans (Cache.mirrors_empty fs).symm) target) rfl⟩

end Resolver

end WorkflowEngine
