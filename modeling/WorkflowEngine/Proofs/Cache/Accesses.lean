import WorkflowEngine.Proofs.Cache.History
import WorkflowEngine.Proofs.Graph.Resolution
import WorkflowEngine.Proofs.Run.Execution

/-! What is done with a cache.

A walk loads each document that it enters, and a run each one that a workflow step opens; an action may have
all of them forgotten. The accesses are told in their order, those of walks and runs that fail included, and
also those of a run that is cut short by its budget. The cache that is left is theirs.
-/

set_option autoImplicit false

namespace WorkflowEngine

def WalkResult.cache? : WalkResult → Option Cache
  | .found f => some f.cache
  | .rejected _ cache => some cache
  | .exhausted => none

theorem WalkResult.cache?_map (change : Findings → Findings)
    (same : ∀ f, (change f).cache = f.cache) (result : WalkResult) :
    (result.map change).cache? = result.cache? := by
  cases result <;> simp [map, cache?, same]

namespace Resolver

/-- The locations that are loaded on the way through imports, in order; `enters` gives those that are loaded
below a document. -/
def importLoads (r : Resolver) (fs : FileSystem)
    (enter : Document → List Location → Cache → WalkResult)
    (enters : Document → List Location → Cache → List Location) (chain : List Location)
    (workflow : Location) : List (Nat × WorkflowStep) → List Location → Cache → List Location
  | [], _, _ => []
  | (_, step) :: rest, settled, cache =>
    match r.importTarget fs workflow step with
    | .error _ => []
    | .ok target =>
      if chain.contains target then []
      else if settled.contains target then
        r.importLoads fs enter enters chain workflow rest settled cache
      else target :: match cache.load fs target with
        | (.error _, _) => []
        | (.ok child, cache) =>
          enters child settled cache ++ match enter child settled cache with
            | .found inner =>
              r.importLoads fs enter enters chain workflow rest inner.settled inner.cache
            | _ => []

def walkLoads (r : Resolver) (fs : FileSystem) :
    Nat → List Location → Document → List Location → Cache → List Location
  | 0, _, _, _, _ => []
  | budget + 1, above, d, settled, cache =>
    let chain := above ++ [d.location]
    r.importLoads fs (r.walk fs budget chain) (r.walkLoads fs budget chain) chain d.location d.imports
      settled cache

def graphLoads (r : Resolver) (fs : FileSystem) (cache : Cache) (entry : Location) : List Location :=
  entry :: match cache.load fs entry with
    | (.error _, _) => []
    | (.ok d, cache) => r.walkLoads fs (walkBudget fs cache) [] d [] cache

def graphAccesses (r : Resolver) (fs : FileSystem) (cache : Cache) (entry : Location) : List Access :=
  (r.graphLoads fs cache entry).map (.load fs)

variable {r : Resolver} {fs : FileSystem}

theorem replay_importLoads {enter : Document → List Location → Cache → WalkResult}
    {enters : Document → List Location → Cache → List Location}
    (entered : ∀ d settled cache after, (enter d settled cache).cache? = some after →
      cache.replay ((enters d settled cache).map (.load fs)) = after)
    {chain : List Location} {workflow : Location} {imports : List (Nat × WorkflowStep)}
    {settled : List Location} {cache after : Cache}
    (left : (r.walkImports fs enter chain workflow imports settled cache).cache? = some after) :
    cache.replay ((r.importLoads fs enter enters chain workflow imports settled cache).map (.load fs)) =
      after := by
  induction imports generalizing settled cache with
  | nil => exact Option.some.inj left
  | cons first rest ih =>
    obtain ⟨stepIndex, step⟩ := first
    rw [walkImports] at left
    rw [importLoads]
    cases means : r.importTarget fs workflow step with
    | error e =>
      simp only [means] at left
      exact Option.some.inj left
    | ok target =>
      simp only [means] at left ⊢
      by_cases again : target ∈ chain
      · simp only [List.contains_eq_mem, again, decide_true, if_true] at left ⊢
        exact Option.some.inj left
      by_cases known : target ∈ settled
      · simp only [List.contains_eq_mem, again, known, decide_true, decide_false, if_true,
          Bool.false_eq_true, if_false] at left ⊢
        rw [WalkResult.cache?_map (.behindEdge _) fun _ => rfl] at left
        exact ih left
      simp only [List.contains_eq_mem, again, known, decide_false, Bool.false_eq_true, if_false] at left ⊢
      rw [List.map_cons, Cache.replay_cons, Cache.after]
      rcases loading : cache.load fs target with ⟨e | child, loaded⟩
      · simp only [loading] at left
        exact Option.some.inj left
      simp only [loading] at left ⊢
      rw [List.map_append, Cache.replay_append]
      have inside := entered child settled loaded
      cases walked : enter child settled loaded with
      | found inner =>
        simp only [walked, WalkResult.andThen] at left ⊢
        rw [WalkResult.cache?_map (.behindImport _ child inner) fun _ => rfl] at left
        rw [inside inner.cache (by rw [walked]; rfl)]
        exact ih left
      | rejected failure _ =>
        simp only [walked, WalkResult.andThen] at left
        exact inside after (by rw [walked]; exact left)
      | exhausted => simp [walked, WalkResult.andThen, WalkResult.cache?] at left

theorem replay_walkLoads {budget : Nat} {above : List Location} {d : Document}
    {settled : List Location} {cache after : Cache}
    (left : (r.walk fs budget above d settled cache).cache? = some after) :
    cache.replay ((r.walkLoads fs budget above d settled cache).map (.load fs)) = after := by
  induction budget generalizing above d settled cache after with
  | zero => cases left
  | succ budget ih =>
    rw [walk, WalkResult.cache?_map (.settle _) fun _ => rfl] at left
    exact replay_importLoads (fun _ _ _ _ => ih) left

theorem replay_graphAccesses (r : Resolver) (fs : FileSystem) (cache : Cache) (entry : Location) :
    cache.replay (r.graphAccesses fs cache entry) = (r.resolveGraph fs cache entry).2 := by
  rw [graphAccesses, graphLoads, List.map_cons, Cache.replay_cons, Cache.after]
  cases read : cache.document fs entry with
  | error e =>
    rw [resolveGraph, Cache.load_of_document_error read]
    rfl
  | ok d =>
    rw [resolveGraph, Cache.load_of_document read]
    dsimp only
    cases walked : r.walk fs (walkBudget fs (cache.load fs entry).2) [] d [] (cache.load fs entry).2 with
    | found | rejected => exact replay_walkLoads (by rw [walked]; rfl)
    | exhausted => exact absurd walked (walk_ne_exhausted read)

end Resolver

def RunEvent.cache? : RunEvent → Option Cache
  | .importing _ _ _ _ cache => some cache
  | _ => none

def RunEvent.caches (events : List RunEvent) : List Cache := events.filterMap cache?

@[simp]
theorem RunEvent.caches_nil : caches [] = [] := rfl

@[simp]
theorem RunEvent.caches_append (first second : List RunEvent) :
    caches (first ++ second) = caches first ++ caches second := List.filterMap_append

@[simp]
theorem RunEvent.caches_logged (o : StepOutcome) (events : List RunEvent) :
    caches (.logged o :: events) = caches events := rfl

namespace Runner

variable {σ : Type}

def Opening.cache : Opening → Cache
  | .opened _ _ cache => cache
  | .refused _ _ cache => cache

def actionAccesses (r : Runner σ) (frame : Frame) (step : ActionStep) (s : Session σ) : List Access :=
  match r.registry.find? step.action with
  | none => []
  | some action => if (action (frame.params.forAction step.params) s.host).resets then [.clear] else []

def importAccesses (r : Runner σ) (frame : Frame) (step : WorkflowStep) (s : Session σ) : List Access :=
  match r.resolver.importTarget s.host.files frame.location step with
  | .error _ => []
  | .ok target => if frame.chain.contains target then [] else [.load s.host.files target]

def stepAccesses (r : Runner σ)
    (enters : List Location → Document → Params → Session σ → List Access) (frame : Frame)
    (step : Step) (s : Session σ) : List Access :=
  match step with
  | .action step => r.actionAccesses frame step s
  | .workflow step =>
    r.importAccesses frame step s ++ match r.openImport frame step s with
      | .refused _ _ _ => []
      | .opened _ d cache => enters frame.chain d (frame.params.forWorkflow step.params) { s with cache }

/-- The accesses of steps, in order; `enters` gives those of a document that is run. -/
def stepsAccesses (r : Runner σ)
    (enter : List Location → Document → Params → Session σ → Option (Progress σ))
    (enters : List Location → Document → Params → Session σ → List Access) (frame : Frame) :
    Nat → List Step → Session σ → List Access
  | _, [], _ => []
  | stepIndex, step :: rest, s =>
    r.stepAccesses enters frame step s ++ match r.runStep enter frame stepIndex step s with
      | some ⟨_, session, none⟩ => r.stepsAccesses enter enters frame (stepIndex + 1) rest session
      | _ => []

/-- The accesses of a document that is run, up to where the budget is used up. -/
def documentAccesses (r : Runner σ) :
    Nat → List Location → Document → Params → Session σ → List Access
  | 0, _, _, _, _ => []
  | budget + 1, above, d, called, s =>
    r.stepsAccesses (r.runDocument budget) (r.documentAccesses budget) (.enter above d called) 0 d.steps s

def runAccesses (r : Runner σ) (budget : Nat) (target : Target) (params : Params) (s : Session σ) :
    List Access :=
  match r.resolver.resolveTarget s.host.files target with
  | .error _ => []
  | .ok entry =>
    r.resolver.graphAccesses s.host.files s.cache entry ++
      match r.resolver.resolveGraph s.host.files s.cache entry with
      | (.error _, _) => []
      | (.ok graph, cache) =>
        r.documentAccesses budget [] graph.entryDocument params { s with cache }

/-- Accesses leave the cache that a part of a run leaves, and each cache that is seen in it is the one
after some of them. -/
structure Tracks (accesses : List Access) (s : Session σ) (p : Progress σ) : Prop where
  left : s.cache.replay accesses = p.session.cache
  seen : ∀ cache ∈ RunEvent.caches p.events,
    ∃ now, now <+: accesses ∧ cache = s.cache.replay now

variable {r : Runner σ} {frame : Frame} {stepIndex : Nat} {s : Session σ} {p : Progress σ}

theorem Tracks.append {first second : List Access} {later : Progress σ} (tracks : Tracks first s p)
    (behind : Tracks second p.session later) : Tracks (first ++ second) s (p.append later) where
  left := by rw [Cache.replay_append, tracks.left, behind.left, Progress.append]
  seen cache member := by
    rw [Progress.append, RunEvent.caches_append] at member
    rcases List.mem_append.1 member with member | member
    · obtain ⟨now, before, rfl⟩ := tracks.seen cache member
      exact ⟨now, before.trans (List.prefix_append _ _), rfl⟩
    · obtain ⟨now, before, rfl⟩ := behind.seen cache member
      refine ⟨first ++ now, (List.prefix_append_right_inj first).2 before, ?_⟩
      rw [Cache.replay_append, tracks.left]

theorem caches_invocationEvents (action : String) (params : Params) (reply : Reply σ) :
    RunEvent.caches (invocationEvents action params reply) = [] := by
  simp [RunEvent.caches, invocationEvents, RunEvent.cache?]

theorem caches_answeredPause (step : ActionStep) (answer : Except Error Bool) :
    RunEvent.caches (answeredPause r step answer) = [] := by
  unfold answeredPause pauseEvents
  split
  · split <;> rfl
  · rfl

theorem Acts.tracks {step : ActionStep} (acts : Acts r frame stepIndex step s p) :
    Tracks (r.actionAccesses frame step s) s p := by
  cases acts with
  | unregistered missing =>
    rw [actionAccesses, missing]
    exact ⟨rfl, by simp⟩
  | @answered action reply registered replied =>
    subst replied
    rw [actionAccesses, registered]
    constructor
    case left =>
      dsimp only [afterReply]
      split <;> rfl
    case seen =>
      rw [RunEvent.caches_append, RunEvent.caches_logged, caches_invocationEvents, caches_answeredPause]
      simp

theorem caches_closeNested (step : WorkflowStep) (target : Location) (inner : Progress σ) :
    RunEvent.caches (closeNested frame stepIndex step s target inner).events =
      s.cache :: RunEvent.caches inner.events := by
  have seen : RunEvent.caches (closeNested frame stepIndex step s target inner).events =
      s.cache :: RunEvent.caches (inner.events ++
        [.logged (nestedOutcome frame stepIndex step target inner.failure)]) := rfl
  rw [seen, RunEvent.caches_append, RunEvent.caches_logged, RunEvent.caches_nil, List.append_nil]

theorem replay_importAccesses (r : Runner σ) (frame : Frame) (step : WorkflowStep) (s : Session σ) :
    s.cache.replay (r.importAccesses frame step s) = (r.openImport frame step s).cache := by
  unfold importAccesses openImport
  cases r.resolver.importTarget s.host.files frame.location step with
  | error e => rfl
  | ok target =>
    dsimp only
    split
    · rfl
    · rw [Cache.replay_cons, Cache.replay_nil, Cache.after]
      rcases s.cache.load s.host.files target with ⟨e | d, cache⟩ <;> rfl

section Steps

variable {enter : List Location → Document → Params → Session σ → Option (Progress σ)}
  {enters : List Location → Document → Params → Session σ → List Access}

theorem tracks_runStep
    (entered : ∀ above d called s p, enter above d called s = some p →
      Tracks (enters above d called s) s p)
    {step : Step} (ran : r.runStep enter frame stepIndex step s = some p) :
    Tracks (r.stepAccesses enters frame step s) s p := by
  cases step with
  | action step =>
    obtain rfl := Option.some.inj ran
    exact (acts_runAction frame stepIndex step s).tracks
  | workflow step =>
    have opens := r.replay_importAccesses frame step s
    unfold runStep runNested at ran
    unfold stepAccesses
    cases opening : r.openImport frame step s with
    | refused target error cache =>
      simp only [opening] at ran opens ⊢
      obtain rfl := Option.some.inj ran
      rw [List.append_nil]
      -- The one cache that is seen is that of the moment before the import is opened.
      refine ⟨opens, fun seen member => ⟨[], List.nil_prefix, ?_⟩⟩
      exact List.mem_singleton.1 member
    | opened target d cache =>
      simp only [opening] at ran opens ⊢
      obtain ⟨inner, below, rfl⟩ := Option.map_eq_some_iff.1 ran
      have tracks := entered _ _ _ _ _ below
      constructor
      case left =>
        rw [Cache.replay_append, opens]
        exact tracks.left
      case seen =>
        intro seen member
        rw [caches_closeNested] at member
        rcases List.mem_cons.1 member with rfl | member
        · exact ⟨[], List.nil_prefix, rfl⟩
        · obtain ⟨now, before, rfl⟩ := tracks.seen seen member
          refine ⟨_, (List.prefix_append_right_inj _).2 before, ?_⟩
          rw [Cache.replay_append, opens]
          rfl

theorem tracks_runSteps
    (entered : ∀ above d called s p, enter above d called s = some p →
      Tracks (enters above d called s) s p)
    {steps : List Step} (ran : r.runSteps enter frame stepIndex steps s = some p) :
    Tracks (r.stepsAccesses enter enters frame stepIndex steps s) s p := by
  induction steps generalizing stepIndex s p with
  | nil =>
    cases ran
    exact ⟨rfl, by simp [Progress.start]⟩
  | cons step rest ih =>
    unfold runSteps at ran
    unfold stepsAccesses
    cases stepped : r.runStep enter frame stepIndex step s with
    | none => simp [stepped] at ran
    | some first =>
      simp only [stepped] at ran ⊢
      have tracks : Tracks (r.stepAccesses enters frame step s) s first :=
        tracks_runStep entered stepped
      rcases Progress.andThen_eq_some.1 ran with ⟨failure, failed, rfl⟩ | ⟨passed, later, behind, rfl⟩
      · obtain ⟨events, session, _⟩ := p
        obtain rfl := failed
        simpa using tracks
      · obtain ⟨events, session, _⟩ := first
        obtain rfl := passed
        exact tracks.append (ih behind)

end Steps

theorem tracks_runDocument {budget : Nat} {above : List Location} {d : Document} {called : Params}
    (ran : r.runDocument budget above d called s = some p) :
    Tracks (r.documentAccesses budget above d called s) s p := by
  induction budget generalizing above d called s p with
  | zero => cases ran
  | succ budget ih =>
    obtain ⟨inner, stepped, rfl⟩ := Option.map_eq_some_iff.1 ran
    have tracks := tracks_runSteps (fun _ _ _ _ _ => ih) stepped
    exact ⟨tracks.left, tracks.seen⟩

theorem tracks_run {budget : Nat} {target : Target} {params : Params} {finished : Finished σ}
    (ran : r.run budget target params s = some finished) :
    s.cache.replay (r.runAccesses budget target params s) = finished.session.cache ∧
      ∀ cache ∈ RunEvent.caches finished.events,
        ∃ now, now <+: r.runAccesses budget target params s ∧ cache = s.cache.replay now := by
  unfold run at ran
  unfold runAccesses
  cases means : r.resolver.resolveTarget s.host.files target with
  | error e =>
    simp only [means] at ran
    cases ran
    exact ⟨rfl, by simp [Finished.refused, RunEvent.caches]⟩
  | ok entry =>
    simp only [means] at ran ⊢
    have walked := r.resolver.replay_graphAccesses s.host.files s.cache entry
    rcases resolved : r.resolver.resolveGraph s.host.files s.cache entry with ⟨failure | graph, cache⟩
    · simp only [resolved] at ran walked ⊢
      cases ran
      rw [List.append_nil]
      exact ⟨walked, by simp [Finished.refused, RunEvent.caches]⟩
    · simp only [resolved] at ran walked ⊢
      obtain ⟨p, began, rfl⟩ := Option.map_eq_some_iff.1 ran
      have tracks := tracks_runDocument began
      rw [Cache.replay_append, walked]
      refine ⟨tracks.left, fun seen member => ?_⟩
      obtain ⟨now, before, rfl⟩ := tracks.seen seen member
      refine ⟨_, (List.prefix_append_right_inj _).2 before, ?_⟩
      rw [Cache.replay_append, walked]

end Runner

end WorkflowEngine
