import WorkflowEngine.Proofs.Graph.Sources

/-! What a walk does.

A walk through the imports of a document takes them in order. It passes over those that are settled and
goes through the others, and it ends at the first one that means nothing, cannot be loaded or is open
already. The budget of a walk is used up only below a chain of as many documents that are open.
-/

set_option autoImplicit false

namespace WorkflowEngine

/-- The imports of an open document are gone through to their end, with what was settled before. -/
inductive Explores (S : Sources) (fs : FileSystem) :
    List Location → Location → List (Nat × WorkflowStep) → List Location → Cache → Findings → Prop
  | done {chain : List Location} {w : Location} {settled : List Location} {cache : Cache} :
      Explores S fs chain w [] settled cache (.nothing settled cache)
  | again {chain : List Location} {w : Location} {stepIndex : Nat} {step : WorkflowStep}
      {rest : List (Nat × WorkflowStep)} {settled : List Location} {cache : Cache}
      {target : Location} {later : Findings} :
      S.target w step = .ok target → target ∉ chain → target ∈ settled →
      Explores S fs chain w rest settled cache later →
      Explores S fs chain w ((stepIndex, step) :: rest) settled cache
        (later.behindEdge ⟨⟨w, stepIndex⟩, target⟩)
  | entered {chain : List Location} {w : Location} {stepIndex : Nat} {step : WorkflowStep}
      {rest : List (Nat × WorkflowStep)} {settled : List Location} {cache : Cache}
      {target : Location} {child : Document} {inner later : Findings} :
      S.target w step = .ok target → target ∉ chain → target ∉ settled →
      S.document target = .ok child →
      Explores S fs (chain ++ [target]) target child.imports settled (cache.load fs target).2 inner →
      Explores S fs chain w rest (target :: inner.settled) inner.cache later →
      Explores S fs chain w ((stepIndex, step) :: rest) settled cache
        (.behindImport ⟨⟨w, stepIndex⟩, target⟩ child inner later)

inductive Rejects (S : Sources) (fs : FileSystem) :
    List Location → Location → List (Nat × WorkflowStep) → List Location → Cache →
      GraphFailure → Prop
  | unresolved {chain : List Location} {w : Location} {stepIndex : Nat} {step : WorkflowStep}
      {rest : List (Nat × WorkflowStep)} {settled : List Location} {cache : Cache} {e : Error} :
      S.target w step = .error e →
      Rejects S fs chain w ((stepIndex, step) :: rest) settled cache ⟨some ⟨w, stepIndex⟩, chain, e⟩
  | cyclic {chain : List Location} {w : Location} {stepIndex : Nat} {step : WorkflowStep}
      {rest : List (Nat × WorkflowStep)} {settled : List Location} {cache : Cache}
      {target : Location} :
      S.target w step = .ok target → target ∈ chain →
      Rejects S fs chain w ((stepIndex, step) :: rest) settled cache
        ⟨some ⟨w, stepIndex⟩, chain, .cyclicImport chain target⟩
  | unloaded {chain : List Location} {w : Location} {stepIndex : Nat} {step : WorkflowStep}
      {rest : List (Nat × WorkflowStep)} {settled : List Location} {cache : Cache}
      {target : Location} {e : Error} :
      S.target w step = .ok target → target ∉ chain → target ∉ settled →
      S.document target = .error e →
      Rejects S fs chain w ((stepIndex, step) :: rest) settled cache ⟨some ⟨w, stepIndex⟩, chain, e⟩
  | inside {chain : List Location} {w : Location} {stepIndex : Nat} {step : WorkflowStep}
      {rest : List (Nat × WorkflowStep)} {settled : List Location} {cache : Cache}
      {target : Location} {child : Document} {failure : GraphFailure} :
      S.target w step = .ok target → target ∉ chain → target ∉ settled →
      S.document target = .ok child →
      Rejects S fs (chain ++ [target]) target child.imports settled (cache.load fs target).2 failure →
      Rejects S fs chain w ((stepIndex, step) :: rest) settled cache failure
  | behindEdge {chain : List Location} {w : Location} {stepIndex : Nat} {step : WorkflowStep}
      {rest : List (Nat × WorkflowStep)} {settled : List Location} {cache : Cache}
      {target : Location} {failure : GraphFailure} :
      S.target w step = .ok target → target ∉ chain → target ∈ settled →
      Rejects S fs chain w rest settled cache failure →
      Rejects S fs chain w ((stepIndex, step) :: rest) settled cache failure
  | behindImport {chain : List Location} {w : Location} {stepIndex : Nat} {step : WorkflowStep}
      {rest : List (Nat × WorkflowStep)} {settled : List Location} {cache : Cache}
      {target : Location} {child : Document} {inner : Findings} {failure : GraphFailure} :
      S.target w step = .ok target → target ∉ chain → target ∉ settled →
      S.document target = .ok child →
      Explores S fs (chain ++ [target]) target child.imports settled (cache.load fs target).2 inner →
      Rejects S fs chain w rest (target :: inner.settled) inner.cache failure →
      Rejects S fs chain w ((stepIndex, step) :: rest) settled cache failure

/-- Different documents, each but the first imported by the one before it. -/
structure Sources.Opened (S : Sources) (entry : Location) (chain : List Location) : Prop where
  nodup : chain.Nodup
  starts : chain.head? = some entry
  linked : chain.IsChain S.Imports
  loaded : ∀ l ∈ chain, ∃ d, S.document l = .ok d

theorem Sources.opened_entry {S : Sources} {entry : Location} {d : Document}
    (loaded : S.document entry = .ok d) : S.Opened entry [entry] where
  nodup := by simp
  starts := rfl
  linked := .singleton _
  loaded l member := by
    obtain rfl := List.mem_singleton.1 member
    exact ⟨d, loaded⟩

theorem Sources.Opened.extend {S : Sources} {entry last target : Location} {chain : List Location}
    {child : Document} (opened : S.Opened entry chain) (ends : chain.getLast? = some last)
    (imported : S.Imports last target) (fresh : target ∉ chain)
    (loaded : S.document target = .ok child) : S.Opened entry (chain ++ [target]) where
  nodup := List.nodup_append.2 ⟨opened.nodup, by simp, by
    rintro l member m same rfl
    exact fresh (List.mem_singleton.1 same ▸ member)⟩
  starts := by simp [opened.starts]
  linked := by
    refine List.isChain_append.2 ⟨opened.linked, .singleton _, fun l first m second => ?_⟩
    obtain rfl : last = l := Option.some.inj (ends.symm.trans first)
    obtain rfl : target = m := Option.some.inj second
    exact imported
  loaded l member := by
    rcases List.mem_append.1 member with member | member
    · exact opened.loaded l member
    · obtain rfl := List.mem_singleton.1 member
      exact ⟨child, loaded⟩

theorem Explores.sources_eq {S : Sources} {fs : FileSystem} {chain : List Location} {w : Location}
    {imports : List (Nat × WorkflowStep)} {settled : List Location} {cache : Cache} {f : Findings}
    (r : Resolver) (explored : Explores S fs chain w imports settled cache f) :
    r.sources fs f.cache = r.sources fs cache := by
  induction explored with
  | done => rfl
  | again _ _ _ _ ih => exact ih
  | entered _ _ _ _ _ _ inner later => exact (later.trans inner).trans (r.sources_load fs _ _)

/-- What a walk through imports may come to, if its budget lets chains grow to a length. -/
def Accounted (S : Sources) (fs : FileSystem) (entry : Location) (bound : Nat)
    (chain : List Location) (w : Location) (imports : List (Nat × WorkflowStep))
    (settled : List Location) (cache : Cache) : WalkResult → Prop
  | .found f => Explores S fs chain w imports settled cache f
  | .rejected failure _ => Rejects S fs chain w imports settled cache failure
  | .exhausted => ∃ deep, S.Opened entry deep ∧ deep.length = bound

namespace Accounted

variable {S : Sources} {fs : FileSystem} {entry w target : Location} {bound stepIndex : Nat}
  {chain settled : List Location} {step : WorkflowStep} {rest : List (Nat × WorkflowStep)}
  {cache : Cache} {result : WalkResult}

theorem behindEdge (means : S.target w step = .ok target) (closed : target ∉ chain)
    (known : target ∈ settled)
    (accounted : Accounted S fs entry bound chain w rest settled cache result) :
    Accounted S fs entry bound chain w ((stepIndex, step) :: rest) settled cache
      (result.map (.behindEdge ⟨⟨w, stepIndex⟩, target⟩)) := by
  cases result with
  | found f => exact .again means closed known accounted
  | rejected failure _ => exact .behindEdge means closed known accounted
  | exhausted => exact accounted

theorem behindImport {child : Document} {inner : Findings} (means : S.target w step = .ok target)
    (closed : target ∉ chain) (new : target ∉ settled) (loaded : S.document target = .ok child)
    (explored : Explores S fs (chain ++ [target]) target child.imports settled
      (cache.load fs target).2 inner)
    (accounted : Accounted S fs entry bound chain w rest (target :: inner.settled) inner.cache result) :
    Accounted S fs entry bound chain w ((stepIndex, step) :: rest) settled cache
      (result.map (.behindImport ⟨⟨w, stepIndex⟩, target⟩ child (inner.settle target))) := by
  cases result with
  | found f =>
    -- Findings behind an import do not look at what is settled below it.
    have whole : Explores S fs chain w ((stepIndex, step) :: rest) settled cache
        (.behindImport ⟨⟨w, stepIndex⟩, target⟩ child inner f) :=
      .entered means closed new loaded explored accounted
    exact whole
  | rejected failure _ => exact .behindImport means closed new loaded explored accounted
  | exhausted => exact accounted

end Accounted

namespace Resolver

variable {r : Resolver} {fs : FileSystem} {S : Sources} {entry : Location} {bound : Nat}

theorem walkImports_accounted {enter : Document → List Location → Cache → WalkResult}
    {chain : List Location} {d : Document} (loaded : S.document d.location = .ok d)
    (opened : S.Opened entry chain) (ends : chain.getLast? = some d.location)
    (entering : ∀ child settled cache, r.sources fs cache = S →
      S.document child.location = .ok child → S.Opened entry (chain ++ [child.location]) →
      ∃ result, enter child settled cache = result.map (.settle child.location) ∧
        Accounted S fs entry bound (chain ++ [child.location]) child.location child.imports settled
          cache result)
    (imports : List (Nat × WorkflowStep)) (settled : List Location) (cache : Cache)
    (unchanged : r.sources fs cache = S) (inside : ∀ i ∈ imports, i ∈ d.imports) :
    Accounted S fs entry bound chain d.location imports settled cache
      (r.walkImports fs enter chain d.location imports settled cache) := by
  -- The sources stay what they were, since loading changes no document.
  induction imports generalizing settled cache with
  | nil => exact .done
  | cons first rest ih =>
    obtain ⟨stepIndex, step⟩ := first
    have later := fun settled cache unchanged =>
      ih settled cache unchanged fun i member => inside i (List.mem_cons_of_mem _ member)
    have means : S.target d.location step = r.importTarget fs d.location step := by
      rw [← unchanged, sources_target]
    rw [walkImports]
    cases resolved : r.importTarget fs d.location step with
    | error e => exact .unresolved (means.trans resolved)
    | ok target =>
      rw [resolved] at means
      by_cases cyclic : target ∈ chain
      · simp only [List.contains_eq_mem, cyclic, decide_true, if_true]
        exact .cyclic means cyclic
      by_cases before : target ∈ settled
      · simp only [List.contains_eq_mem, cyclic, before, decide_true, decide_false, if_true,
          Bool.false_eq_true, if_false]
        exact .behindEdge means cyclic before (later settled cache unchanged)
      simp only [List.contains_eq_mem, cyclic, before, decide_false, Bool.false_eq_true, if_false]
      have stands : S.document target = cache.document fs target := by
        rw [← unchanged, sources_document]
      cases read : cache.document fs target with
      | error e =>
        rw [Cache.load_of_document_error read]
        exact .unloaded means cyclic before (stands.trans read)
      | ok child =>
        rw [Cache.load_of_document read]
        obtain rfl : child.location = target := Cache.location_of_document read
        have imported : S.Imports d.location child.location :=
          ⟨d, loaded, stepIndex, step, inside _ List.mem_cons_self, means⟩
        have loading := (r.sources_load fs cache child.location).trans unchanged
        rw [read] at stands
        obtain ⟨below, entered, accounted⟩ := entering child settled _ loading stands
          (opened.extend ends imported cyclic stands)
        simp only [entered]
        cases below with
        | rejected failure _ => exact .inside means cyclic before stands accounted
        | exhausted => exact accounted
        | found inner =>
          have kept := (accounted.sources_eq r).trans loading
          exact .behindImport means cyclic before stands accounted
            (later (child.location :: inner.settled) inner.cache kept)

/-- A walk is accounted for; its budget is used up only below as many documents that are open. -/
theorem walk_accounted (budget : Nat) (above : List Location) (d : Document)
    (settled : List Location) (cache : Cache) (unchanged : r.sources fs cache = S)
    (loaded : S.document d.location = .ok d) (opened : S.Opened entry (above ++ [d.location])) :
    ∃ result, r.walk fs budget above d settled cache = result.map (.settle d.location) ∧
      Accounted S fs entry (above.length + budget + 1) (above ++ [d.location]) d.location d.imports
        settled cache result := by
  induction budget generalizing above d settled cache with
  | zero => exact ⟨.exhausted, rfl, _, opened, by simp⟩
  | succ budget ih =>
    refine ⟨_, rfl, walkImports_accounted loaded opened (by simp) ?_ _ _ _ unchanged fun _ => id⟩
    intro child settled cache unchanged loaded opened
    have deeper := ih (above ++ [d.location]) child settled cache unchanged loaded opened
    rwa [List.length_append, List.length_singleton, Nat.add_assoc above.length,
      Nat.add_comm 1 budget] at deeper

end Resolver

end WorkflowEngine
