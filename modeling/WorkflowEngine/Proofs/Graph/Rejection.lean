import WorkflowEngine.Proofs.Graph.Resolution

/-! What a rejected graph shows.

A rejection names a workflow step and the documents that were open around it, from the entry on, each
importing the next. What it reports is what became of that step: it means no location, its document does
not load, or its document is open already and so comes up below itself.
-/

set_option autoImplicit false

namespace WorkflowEngine

open Relation

def Error.ConcernsDocument (l : Location) : Error → Prop
  | .documentNotFound path => path = l.path
  | .documentUnread path _ => path = l.path
  | .documentMalformed path _ => path = l.path
  | _ => False

theorem FileSystem.concernsDocument_of_readDocument {fs : FileSystem} {l : Location} {e : Error}
    (unread : fs.readDocument l = .error e) : e.ConcernsDocument l := by
  unfold readDocument at unread
  split at unread
  · cases unread
    rfl
  · cases unread
    rfl
  · split at unread
    · cases unread
    · cases unread
      rfl

theorem Cache.concernsDocument_of_document {c : Cache} {fs : FileSystem} {l : Location} {e : Error}
    (unread : c.document fs l = .error e) : e.ConcernsDocument l := by
  unfold document at unread
  split at unread
  · cases unread
  · exact FileSystem.concernsDocument_of_readDocument unread

theorem Resolver.unresolved_of_resolve {r : Resolver} {fs : FileSystem} {reference : Reference}
    {directory : Path} {e : Error} (failed : r.resolve fs reference directory = .error e) :
    ∃ fault, e = .unresolved reference.text fault := by
  unfold resolve at failed
  split at failed
  · cases failed
    exact ⟨_, rfl⟩
  split at failed
  · cases failed
    exact ⟨_, rfl⟩
  split at failed
  · cases failed
    exact ⟨_, rfl⟩
  dsimp only at failed
  split at failed
  · unfold confine at failed
    split at failed
    · cases failed
      exact ⟨_, rfl⟩
    · cases failed
  · cases failed
    exact ⟨_, rfl⟩

namespace Sources

structure Explained (S : Sources) : Prop where
  target : ∀ w step e, S.target w step = .error e → ∃ fault, e = .unresolved step.workflow.text fault
  document : ∀ l e, S.document l = .error e → e.ConcernsDocument l

/-- What a workflow step of the innermost open document can be rejected with. -/
inductive Blames (S : Sources) (chain : List Location) (w : Location) (step : WorkflowStep) :
    Error → Prop
  | unresolved {fault : ResolutionFault} :
      S.target w step = .error (.unresolved step.workflow.text fault) →
      Blames S chain w step (.unresolved step.workflow.text fault)
  | unloaded {target : Location} {e : Error} :
      S.target w step = .ok target → S.document target = .error e → e.ConcernsDocument target →
      Blames S chain w step e
  | cyclic {target : Location} :
      S.target w step = .ok target → target ∈ chain →
      Blames S chain w step (.cyclicImport chain target)

theorem Opened.reaches_last {S : Sources} {entry last : Location} {chain : List Location}
    (opened : S.Opened entry chain) (ends : chain.getLast? = some last) :
    ∀ l ∈ chain, S.Reaches l last := by
  -- The induction is on the ends of the chain, which are linked as it is.
  have along : ∀ later : List Location, later.IsChain S.Imports → later.getLast? = some last →
      ∀ l ∈ later, S.Reaches l last := by
    intro later
    induction later with
    | nil => simp
    | cons first rest ih =>
      intro linked ends l member
      cases rest with
      | nil =>
        obtain rfl : first = last := by simpa using ends
        obtain rfl := List.mem_singleton.1 member
        exact .refl
      | cons second rest =>
        obtain ⟨imported, linked⟩ := List.isChain_cons_cons.1 linked
        have behind := ih linked (by simpa using ends)
        rcases List.mem_cons.1 member with rfl | member
        · exact .head imported (behind second List.mem_cons_self)
        · exact behind l member
  exact along chain opened.linked ends

theorem Blames.transGen {S : Sources} {entry w repeated : Location} {chain open' : List Location}
    {step : WorkflowStep} {stepIndex : Nat} {d : Document}
    (blames : S.Blames chain w step (.cyclicImport open' repeated)) (opened : S.Opened entry chain)
    (ends : chain.getLast? = some w) (loaded : S.document w = .ok d)
    (found : (stepIndex, step) ∈ d.imports) :
    open' = chain ∧ repeated ∈ chain ∧ TransGen S.Imports repeated repeated := by
  cases blames with
  | unloaded _ _ concerns => exact concerns.elim
  | cyclic means again =>
    have imported : S.Imports w repeated := ⟨d, loaded, stepIndex, step, found, means⟩
    exact ⟨rfl, again, TransGen.tail'_iff.2 ⟨w, opened.reaches_last ends repeated again, imported⟩⟩

end Sources

theorem Resolver.explained_sources (r : Resolver) (fs : FileSystem) (cache : Cache) :
    (r.sources fs cache).Explained where
  target w step e failed := by
    rw [sources_target] at failed
    exact unresolved_of_resolve failed
  document l e unread := by
    rw [sources_document] at unread
    exact Cache.concernsDocument_of_document unread

/-- A failure shows the documents that were open around a site, and what became of the workflow step
there. -/
structure GraphFailure.Witnesses (f : GraphFailure) (S : Sources) (entry : Location)
    (site : ImportSite) : Prop where
  opened : S.Opened entry f.chain
  ends : f.chain.getLast? = some site.workflow
  blames : ∃ d step, S.document site.workflow = .ok d ∧
    d.steps[site.stepIndex]? = some (.workflow step) ∧
    S.Blames f.chain site.workflow step f.error
  cycle : ∀ chain repeated, f.error = .cyclicImport chain repeated →
    chain = f.chain ∧ repeated ∈ f.chain ∧ TransGen S.Imports repeated repeated

section Rejected

variable {S : Sources} {fs : FileSystem} {entry w : Location} {chain settled : List Location}
  {imports : List (Nat × WorkflowStep)} {cache : Cache} {failure : GraphFailure}

theorem Sources.Blames.witnesses {stepIndex : Nat} {step : WorkflowStep} {d : Document} {e : Error}
    (blames : S.Blames chain w step e) (opened : S.Opened entry chain)
    (ends : chain.getLast? = some w) (loaded : S.document w = .ok d)
    (found : (stepIndex, step) ∈ d.imports) :
    (⟨some ⟨w, stepIndex⟩, chain, e⟩ : GraphFailure).Witnesses S entry ⟨w, stepIndex⟩ where
  opened := opened
  ends := ends
  blames := ⟨d, step, loaded, Document.mem_imports.1 found, blames⟩
  cycle := by
    rintro open' repeated rfl
    exact blames.transGen opened ends loaded found

theorem Rejects.witnesses (rejected : Rejects S fs chain w imports settled cache failure)
    (explained : S.Explained) {d : Document} (opened : S.Opened entry chain)
    (ends : chain.getLast? = some w) (loaded : S.document w = .ok d)
    (inside : ∀ i ∈ imports, i ∈ d.imports) :
    ∃ site, failure.site = some site ∧ failure.Witnesses S entry site := by
  -- A rejection blames a step of the open document, or it comes from one below or behind.
  induction rejected generalizing d with
  | @unresolved chain w _ step _ _ _ _ failed =>
    obtain ⟨fault, rfl⟩ := explained.target _ _ _ failed
    have blames : S.Blames chain w step _ := .unresolved failed
    exact ⟨_, rfl, blames.witnesses opened ends loaded (inside _ List.mem_cons_self)⟩
  | @cyclic chain w _ step _ _ _ _ means again =>
    have blames : S.Blames chain w step _ := .cyclic means again
    exact ⟨_, rfl, blames.witnesses opened ends loaded (inside _ List.mem_cons_self)⟩
  | @unloaded chain w _ step _ _ _ _ _ means _ _ unread =>
    have blames : S.Blames chain w step _ := .unloaded means unread (explained.document _ _ unread)
    exact ⟨_, rfl, blames.witnesses opened ends loaded (inside _ List.mem_cons_self)⟩
  | inside means fresh _ stands _ ih =>
    have imported : S.Imports _ _ := ⟨d, loaded, _, _, inside _ List.mem_cons_self, means⟩
    exact ih (opened.extend ends imported fresh stands) (by simp) stands fun _ => id
  | behindEdge _ _ _ _ ih =>
    exact ih opened ends loaded fun i member => inside i (List.mem_cons_of_mem _ member)
  | behindImport _ _ _ _ _ _ ih =>
    exact ih opened ends loaded fun i member => inside i (List.mem_cons_of_mem _ member)

end Rejected

namespace Sample

def outward : Document where
  location := ⟨["w", "a.y"]⟩
  description := none
  defaults := ∅
  steps := [.action ⟨"wipe", none, ∅, false, none⟩, .workflow ⟨⟨"n/b"⟩, none, ∅⟩]

def backward : Document where
  location := ⟨["w", "n", "b.y"]⟩
  description := none
  defaults := ∅
  steps := [.workflow ⟨⟨"../a"⟩, none, ∅⟩]

def loop : Cache := (Cache.empty.insert outward).insert backward

end Sample

namespace Resolver

/-- A graph is rejected without a site only where the entry itself does not load. Any other rejection
witnesses the step that it names, and a cyclic import a cycle. -/
theorem resolveGraph_rejected (r : Resolver) (fs : FileSystem) (cache : Cache) (entry : Location)
    (f : GraphFailure) (rejected : (r.resolveGraph fs cache entry).1 = .error f) :
    (f.site = none ↔ ∃ e, cache.document fs entry = .error e) ∧
    (∀ e, cache.document fs entry = .error e →
      f = ⟨none, [], e⟩ ∧ e.ConcernsDocument entry) ∧
    ∀ site, f.site = some site → f.Witnesses (r.sources fs cache) entry site := by
  cases read : cache.document fs entry with
  | error e =>
    have unread : r.resolveGraph fs cache entry = (.error ⟨none, [], e⟩, cache) := by
      simp [resolveGraph, Cache.load_of_document_error read]
    rw [unread] at rejected
    cases rejected
    refine ⟨by simp, fun other same => ?_, by simp⟩
    cases same
    exact ⟨rfl, Cache.concernsDocument_of_document read⟩
  | ok d =>
    rcases explores_or_rejects (r := r) read with ⟨g, _, found⟩ | ⟨failure, after, rejects, failed⟩
    · rw [found] at rejected
      cases rejected
    · rw [failed] at rejected
      cases rejected
      obtain ⟨site, named, witnesses⟩ := rejects.witnesses (r.explained_sources fs cache)
        (Sources.opened_entry read) rfl read fun _ => id
      refine ⟨by simp [named], by simp, fun other same => ?_⟩
      obtain rfl : site = other := Option.some.inj (named.symm.trans same)
      exact witnesses

/-- Two documents that import each other are rejected at the import that leads back. -/
theorem resolveGraph_rejected_sample : ∃ f after,
    Sample.resolver.resolveGraph .empty Sample.loop Sample.outward.location = (.error f, after) ∧
      f.chain = [Sample.outward.location, Sample.backward.location] ∧
      f.error = .cyclicImport f.chain Sample.outward.location ∧
      f.Witnesses (Sample.resolver.sources .empty Sample.loop) Sample.outward.location
        ⟨Sample.backward.location, 0⟩ := by
  obtain ⟨_, _, witnesses⟩ := resolveGraph_rejected Sample.resolver .empty Sample.loop
    Sample.outward.location _ rfl
  exact ⟨_, _, rfl, rfl, rfl, witnesses _ rfl⟩

end Resolver

end WorkflowEngine
