import WorkflowEngine.Proofs.FileSystem.Readable
import WorkflowEngine.Proofs.Graph.Representation

/-! When an import graph resolves.

Where everything that comes up loads, each workflow step means a location and no document leads back to
itself, a walk has nothing to reject. It does not use up its budget either, since the documents that are
open at a time differ, and all but the entry stand at proper locations.
-/

set_option autoImplicit false

namespace WorkflowEngine

open Relation

/-- Nothing is rejected below an open document of complete and acyclic sources. -/
theorem Rejects.absurd {S : Sources} {fs : FileSystem} {entry w : Location} {chain : List Location}
    {imports : List (Nat × WorkflowStep)} {settled : List Location} {cache : Cache}
    {failure : GraphFailure} (rejected : Rejects S fs chain w imports settled cache failure)
    (complete : S.Complete entry) (acyclic : S.Acyclic entry) {d : Document}
    (path : S.Reaches entry w) (loaded : S.document w = .ok d) (inside : ∀ i ∈ imports, i ∈ d.imports)
    (above : ∀ l ∈ chain, S.Reaches l w) : False := by
  -- The induction carries a way from the entry to the open document, and to it from each one above.
  induction rejected generalizing d with
  | unresolved failed =>
    obtain ⟨e, again, means⟩ := complete _ path
    obtain rfl : d = e := Except.ok.inj (loaded.symm.trans again)
    obtain ⟨m, resolved⟩ := means _ _ (inside _ List.mem_cons_self)
    cases failed.symm.trans resolved
  | cyclic means again =>
    have imported := (⟨d, loaded, _, _, inside _ List.mem_cons_self, means⟩ : S.Imports _ _)
    exact acyclic _ path (TransGen.head'_iff.2 ⟨_, imported, above _ again⟩)
  | unloaded means _ _ failed =>
    have imported := (⟨d, loaded, _, _, inside _ List.mem_cons_self, means⟩ : S.Imports _ _)
    obtain ⟨e, stands, _⟩ := complete _ (path.tail imported)
    cases failed.symm.trans stands
  | inside means _ _ stands _ ih =>
    have imported := (⟨d, loaded, _, _, inside _ List.mem_cons_self, means⟩ : S.Imports _ _)
    refine ih (path.tail imported) stands (fun _ => id) fun l member => ?_
    rcases List.mem_append.1 member with member | member
    · exact (above l member).tail imported
    · obtain rfl := List.mem_singleton.1 member
      exact .refl
  | behindEdge _ _ _ _ ih =>
    exact ih path loaded (fun i member => inside i (List.mem_cons_of_mem _ member)) above
  | behindImport _ _ _ _ _ _ ih =>
    exact ih path loaded (fun i member => inside i (List.mem_cons_of_mem _ member)) above

namespace Resolver

/-- No more documents can be open at a time than are readable or in the cache, and one for the entry. -/
theorem length_le_of_opened {r : Resolver} {fs : FileSystem} {cache : Cache} {entry : Location}
    {chain : List Location} (opened : (r.sources fs cache).Opened entry chain) :
    chain.length ≤ fs.readableBound + cache.size + 1 := by
  cases chain with
  | nil => exact Nat.zero_le _
  | cons first later =>
    have proper : ∀ l ∈ later, l.Proper := fun l member => by
      obtain ⟨_, _, _, _, _, _, means⟩ := exists_rel_of_isChain opened.linked l member
      rw [sources_target] at means
      exact proper_of_importTarget means
    have short := Cache.length_le_of_document (List.nodup_cons.1 opened.nodup).2 proper
      fun l member => opened.loaded l (List.mem_cons_of_mem _ member)
    rw [List.length_cons]
    omega

theorem Accounted.not_exhausted {r : Resolver} {fs : FileSystem} {cache : Cache} {entry : Location}
    {imports : List (Nat × WorkflowStep)} :
    ¬ Accounted (r.sources fs cache) fs entry (walkBudget fs (cache.load fs entry).2 + 1) [entry] entry
      imports [] (cache.load fs entry).2 .exhausted := by
  -- A chain as long as the budget would have more documents than can be open.
  rintro ⟨deep, opened, length⟩
  rw [← r.sources_load fs cache entry] at opened
  have short := length_le_of_opened opened
  simp only [walkBudget] at length
  omega

theorem walk_ne_exhausted {r : Resolver} {fs : FileSystem} {cache : Cache} {entry : Location} {d : Document}
    (read : cache.document fs entry = .ok d) :
    r.walk fs (walkBudget fs (cache.load fs entry).2) [] d [] (cache.load fs entry).2 ≠ .exhausted := by
  obtain rfl : d.location = entry := Cache.location_of_document read
  obtain ⟨result, walked, accounted⟩ := walk_accounted
    (walkBudget fs (cache.load fs d.location).2) [] d [] (cache.load fs d.location).2
    (r.sources_load fs cache d.location) read (Sources.opened_entry read)
  rw [walked]
  cases result with
  | found | rejected => exact nofun
  | exhausted => exact (Accounted.not_exhausted (by simpa using accounted)).elim

theorem explores_or_rejects {r : Resolver} {fs : FileSystem} {cache : Cache} {entry : Location}
    {d : Document} (read : cache.document fs entry = .ok d) :
    (∃ f, Explores (r.sources fs cache) fs [entry] entry d.imports [] (cache.load fs entry).2 f ∧
        r.resolveGraph fs cache entry = (.ok ⟨entry, d, f.documents, f.edges⟩, f.cache)) ∨
      ∃ failure after,
        Rejects (r.sources fs cache) fs [entry] entry d.imports [] (cache.load fs entry).2 failure ∧
          r.resolveGraph fs cache entry = (.error failure, after) := by
  obtain ⟨result, accounted, concluded⟩ := resolveGraph_of_document (r := r) read
  cases result with
  | found f => exact .inl ⟨f, accounted, concluded⟩
  | rejected failure after => exact .inr ⟨failure, after, accounted, concluded⟩
  | exhausted => exact (Accounted.not_exhausted accounted).elim

theorem exists_resolveGraph {r : Resolver} {fs : FileSystem} {cache : Cache} {entry : Location}
    (complete : (r.sources fs cache).Complete entry) (acyclic : (r.sources fs cache).Acyclic entry) :
    ∃ g, (r.resolveGraph fs cache entry).1 = .ok g := by
  obtain ⟨d, loaded, _⟩ := complete entry .refl
  rcases explores_or_rejects (r := r) loaded with ⟨f, _, found⟩ | ⟨failure, after, rejected, _⟩
  · exact ⟨_, congrArg Prod.fst found⟩
  · refine (Rejects.absurd rejected complete acyclic .refl loaded (fun _ => id) fun l member => ?_).elim
    obtain rfl := List.mem_singleton.1 member
    exact .refl

/-- The import graph of an entry resolves exactly when everything below it loads, means something and
does not come up below itself. It then represents what is below the entry. -/
theorem resolveGraph_iff_complete_acyclic (r : Resolver) (fs : FileSystem) (cache : Cache)
    (entry : Location) :
    ((∃ g, (r.resolveGraph fs cache entry).1 = .ok g) ↔
      (r.sources fs cache).Complete entry ∧ (r.sources fs cache).Acyclic entry) ∧
    ∀ g, (r.resolveGraph fs cache entry).1 = .ok g → g.Represents (r.sources fs cache) entry := by
  have represents : ∀ g, (r.resolveGraph fs cache entry).1 = .ok g →
      g.Represents (r.sources fs cache) entry := by
    intro g resolved
    have whole : r.resolveGraph fs cache entry = (.ok g, (r.resolveGraph fs cache entry).2) :=
      Prod.ext resolved rfl
    exact represents_of_resolveGraph whole
  refine ⟨⟨?_, ?_⟩, represents⟩
  · rintro ⟨g, resolved⟩
    exact ⟨(represents g resolved).complete, (represents g resolved).acyclic⟩
  · rintro ⟨complete, acyclic⟩
    exact exists_resolveGraph complete acyclic

/-- A document that is imported twice is in the graph once, and each import has its edge. -/
theorem resolveGraph_sample :
    (Sample.resolver.sources .empty Sample.cache).Complete Sample.entry.location ∧
      (Sample.resolver.sources .empty Sample.cache).Acyclic Sample.entry.location ∧
      Sample.graph.Represents (Sample.resolver.sources .empty Sample.cache) Sample.entry.location := by
  obtain ⟨succeeds, represents⟩ := resolveGraph_iff_complete_acyclic Sample.resolver .empty Sample.cache
    Sample.entry.location
  obtain ⟨complete, acyclic⟩ := succeeds.1 ⟨Sample.graph, rfl⟩
  exact ⟨complete, acyclic, represents Sample.graph rfl⟩

end Resolver

end WorkflowEngine
