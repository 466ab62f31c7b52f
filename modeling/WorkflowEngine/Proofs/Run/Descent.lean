import WorkflowEngine.FileSystem.Edit
import WorkflowEngine.Proofs.Run.Moments
import Mathlib.Data.List.Dedup

/-! How deep a run goes.

Actions may replace the documents of a graph while they are run, so the graph does not bound the depth of a
run. The check of the chain does: the open documents differ, and each was loaded for a workflow step of the
one before it. A run that does not come to an end therefore opens more and more different documents.
-/

set_option autoImplicit false

namespace WorkflowEngine

open Runner

variable {σ : Type}

/-- The location that is loaded when a workflow step is taken up: what its reference means at that moment,
unless that is open already or does not load. -/
def RunEvent.loaded? (r : Resolver) : RunEvent → Option Location
  | .importing frame _ step files cache =>
    match r.importTarget files frame.location step with
    | .error _ => none
    | .ok target =>
      if target ∈ frame.chain then none else (cache.document files target).toOption.map fun _ => target
  | _ => none

/-- The locations loaded so far in a run along a graph, those of the graph first. -/
def ImportGraph.loads (g : ImportGraph) (r : Resolver) (events : List RunEvent) : List Location :=
  g.locations ++ events.filterMap (RunEvent.loaded? r)

theorem ImportGraph.loads_append (g : ImportGraph) (r : Resolver) (first second : List RunEvent) :
    g.loads r (first ++ second) = g.loads r first ++ second.filterMap (RunEvent.loaded? r) := by
  rw [loads, loads, List.filterMap_append, List.append_assoc]

theorem Progress.andThen_eq_none {first : Progress σ} {next : Session σ → Option (Progress σ)} :
    first.andThen next = none ↔ first.failure = none ∧ next first.session = none := by
  unfold andThen
  cases first.failure <;> simp

theorem Document.drop_eq_cons {d : Document} {stepIndex : Nat} {step : Step}
    (found : d.steps[stepIndex]? = some step) :
    d.steps.drop stepIndex = step :: d.steps.drop (stepIndex + 1) := by
  obtain ⟨inside, rfl⟩ := List.getElem?_eq_some_iff.1 found
  exact List.drop_eq_getElem_cons inside

namespace Runner

/-- A run has got to a step of its innermost open document, with all steps before it done. Nothing is said about what
comes later, so runs that never end get to steps, too. -/
inductive Arrives (r : Runner σ) (entry : Document) (called : Params) (start : Session σ) :
    List RunEvent → List OpenFrame → OpenFrame → Nat → Session σ → Prop
  | entry :
      Arrives r entry called start [.entered (.enter [] entry called) entry] []
        ⟨none, .enter [] entry called, entry⟩ 0 start
  | acted {events : List RunEvent} {outer : List OpenFrame} {here : OpenFrame} {stepIndex : Nat}
      {s : Session σ} {step : ActionStep} {first : Progress σ} :
      Arrives r entry called start events outer here stepIndex s →
      here.document.steps[stepIndex]? = some (.action step) →
      Acts r here.frame stepIndex step s first → first.failure = none →
      Arrives r entry called start (events ++ first.events) outer here (stepIndex + 1) first.session
  | returned {events : List RunEvent} {outer : List OpenFrame} {here : OpenFrame} {stepIndex : Nat}
      {s : Session σ} {step : WorkflowStep} {child : Document} {cache : Cache} {inner : Progress σ} :
      Arrives r entry called start events outer here stepIndex s →
      here.document.steps[stepIndex]? = some (.workflow step) →
      r.openImport here.frame step s = .opened child.location child cache →
      Executes r (here.frame.inside step child) 0 child.steps { s with cache } inner →
      inner.failure = none →
      Arrives r entry called start
        (events ++ (nestedProgress here.frame stepIndex step s child inner).events) outer here
        (stepIndex + 1) inner.session
  | inner {events : List RunEvent} {outer : List OpenFrame} {here : OpenFrame} {stepIndex : Nat}
      {s : Session σ} {step : WorkflowStep} {child : Document} {cache : Cache} :
      Arrives r entry called start events outer here stepIndex s →
      here.document.steps[stepIndex]? = some (.workflow step) →
      r.openImport here.frame step s = .opened child.location child cache →
      Arrives r entry called start
        (events ++ [.importing here.frame stepIndex step s.host.files s.cache,
          .entered (here.frame.inside step child) child])
        (outer ++ [here]) ⟨some step, here.frame.inside step child, child⟩ 0 { s with cache }

/-- A frame was entered from the one around it: over a workflow step of the document that is run there,
which meant the location of the inner frame and loaded the document that is run in it. -/
structure Links (r : Runner σ) (events : List RunEvent) (outer inner : OpenFrame) : Prop where
  entered : .entered outer.frame outer.document ∈ events ∧ .entered inner.frame inner.document ∈ events
  imported : ∃ stepIndex step files cache, inner.via = some step ∧
    outer.document.steps[stepIndex]? = some (.workflow step) ∧
    .importing outer.frame stepIndex step files cache ∈ events ∧
    r.resolver.importTarget files outer.frame.location step = .ok inner.frame.location ∧
    (cache.load files inner.frame.location).1 = .ok inner.document

/-- The open frames of a run along a graph: different documents, from the entry on, each of them loaded
for a workflow step of the one before it. -/
structure Descends (r : Runner σ) (g : ImportGraph) (events : List RunEvent) (outer : List OpenFrame)
    (here : OpenFrame) : Prop where
  chain : here.frame.chain = (outer ++ [here]).map fun o => o.frame.location
  distinct : here.frame.chain.Nodup
  starts : here.frame.chain.head? = some g.entry
  loaded : here.frame.chain ⊆ g.loads r.resolver events
  entered : .entered here.frame here.document ∈ events
  located : here.document.location = here.frame.location
  linked : (outer ++ [here]).IsChain (r.Links events)

variable {r : Runner σ} {entry : Document} {called : Params} {start : Session σ} {g : ImportGraph}
  {events : List RunEvent} {outer : List OpenFrame} {here : OpenFrame} {stepIndex : Nat} {s : Session σ}

theorem Links.mono {more : List RunEvent} {inner : OpenFrame} (links : r.Links events here inner)
    (subset : events ⊆ more) : r.Links more here inner where
  entered := ⟨subset links.entered.1, subset links.entered.2⟩
  imported := by
    obtain ⟨stepIndex, step, files, cache, via, found, importing, means, loaded⟩ := links.imported
    exact ⟨stepIndex, step, files, cache, via, found, subset importing, means, loaded⟩

theorem descends_entry (located : g.entryDocument.location = g.entry) (called : Params) :
    r.Descends g [.entered (.enter [] g.entryDocument called) g.entryDocument] []
      ⟨none, .enter [] g.entryDocument called, g.entryDocument⟩ where
  chain := rfl
  distinct := List.nodup_singleton _
  starts := congrArg some located
  loaded := by
    intro l member
    obtain rfl := List.mem_singleton.1 member
    exact List.mem_append_left _ (List.mem_map_of_mem List.mem_cons_self)
  entered := List.mem_singleton_self _
  located := rfl
  linked := .singleton _

namespace Descends

theorem append (descends : r.Descends g events outer here) (later : List RunEvent) :
    r.Descends g (events ++ later) outer here where
  chain := descends.chain
  distinct := descends.distinct
  starts := descends.starts
  loaded l member := by
    rw [ImportGraph.loads_append]
    exact List.mem_append_left _ (descends.loaded member)
  entered := List.mem_append_left _ descends.entered
  located := descends.located
  linked := descends.linked.imp fun _ _ links => links.mono (List.subset_append_left _ _)

theorem inside {step : WorkflowStep} {child : Document} {cache : Cache}
    (descends : r.Descends g events outer here)
    (found : here.document.steps[stepIndex]? = some (.workflow step))
    (opening : r.openImport here.frame step s = .opened child.location child cache) :
    r.Descends g
      (events ++ [.importing here.frame stepIndex step s.host.files s.cache,
        .entered (here.frame.inside step child) child])
      (outer ++ [here]) ⟨some step, here.frame.inside step child, child⟩ := by
  obtain ⟨means, fresh, loaded, _⟩ := openImport_eq_opened opening
  have read : s.cache.document s.host.files child.location = .ok child := by
    rw [← Cache.load_fst, loaded]
  have behind := descends.append [.importing here.frame stepIndex step s.host.files s.cache,
    .entered (here.frame.inside step child) child]
  constructor
  case chain =>
    rw [List.map_append, ← descends.chain]
    rfl
  case distinct =>
    -- The location was not on the chain when the step was taken up.
    refine List.nodup_append.2 ⟨descends.distinct, List.nodup_singleton _, fun l member m same => ?_⟩
    obtain rfl := List.mem_singleton.1 same
    rintro rfl
    exact fresh member
  case starts =>
    have opened : here.frame.chain ≠ [] := by
      intro none
      simpa [none] using descends.starts
    exact (List.head?_append_of_ne_nil _ opened).trans descends.starts
  case loaded =>
    -- The load for the new frame is the one that the import made.
    refine List.append_subset.2 ⟨behind.loaded, fun l member => ?_⟩
    obtain rfl := List.mem_singleton.1 member
    rw [ImportGraph.loads_append]
    refine List.mem_append_right _ ?_
    simp [RunEvent.loaded?, means, fresh, read, Except.toOption]
  case entered => simp
  case located => rfl
  case linked =>
    refine List.isChain_append.2 ⟨behind.linked, .singleton _, fun o last m first => ?_⟩
    obtain rfl : here = o := by simpa using last
    obtain rfl := Option.some.inj first
    exact ⟨⟨behind.entered, by simp⟩, stepIndex, step, s.host.files, s.cache, rfl, found, by simp, means,
      congrArg Prod.fst loaded⟩

theorem length_chain (descends : r.Descends g events outer here) :
    here.frame.chain.length = outer.length + 1 := by
  rw [descends.chain, List.length_map, List.length_append, List.length_singleton]

theorem depth_lt (descends : r.Descends g events outer here) :
    here.frame.depth < (g.loads r.resolver events).dedup.length := by
  have inside : here.frame.chain ⊆ (g.loads r.resolver events).dedup := fun l member =>
    List.mem_dedup.2 (descends.loaded member)
  have short := descends.distinct.length_le_of_subset inside
  have length := descends.length_chain
  rw [Frame.depth]
  omega

end Descends

theorem Arrives.descends (entered : g.entryDocument.location = g.entry)
    (arrives : r.Arrives g.entryDocument called start events outer here stepIndex s) :
    r.Descends g events outer here := by
  induction arrives with
  | entry => exact descends_entry entered called
  | acted _ _ _ _ ih => exact ih.append _
  | returned _ _ _ _ _ ih => exact ih.append _
  | inner _ found opening ih => exact ih.inside found opening

/-- Every open document is the innermost one at some moment, so what holds of the innermost holds of all. -/
theorem Arrives.forall_chain {known : List Location}
    (inside : ∀ events outer here s, r.Arrives entry called start events outer here 0 s →
      here.frame.location ∈ known)
    (arrives : r.Arrives entry called start events outer here stepIndex s) :
    here.frame.chain ⊆ known := by
  have own : ∀ {events outer here s}, r.Arrives entry called start events outer here 0 s →
      [here.frame.location] ⊆ known := fun arrives l member => by
    obtain rfl := List.mem_singleton.1 member
    exact inside _ _ _ _ arrives
  induction arrives with
  | entry => exact own .entry
  | acted _ _ _ _ ih => exact ih
  | returned _ _ _ _ _ ih => exact ih
  | inner before found opening ih => exact List.append_subset.2 ⟨ih, own (.inner before found opening)⟩

def Enters (r : Runner σ) (entry : Document) (called : Params) (start : Session σ)
    (done events : List RunEvent) : Prop :=
  ∀ before later frame d, events = before ++ .entered frame d :: later →
    ∃ outer via s, r.Arrives entry called start (done ++ before ++ [.entered frame d]) outer
      ⟨via, frame, d⟩ 0 s

section Enters

variable {done first second : List RunEvent}

theorem Enters.of_silent (silent : ∀ e ∈ first, ∀ frame d, e ≠ .entered frame d) :
    r.Enters entry called start done first := by
  rintro before later frame d rfl
  exact absurd rfl (silent _ (by simp) frame d)

theorem Enters.append (enters : r.Enters entry called start done first)
    (behind : r.Enters entry called start (done ++ first) second) :
    r.Enters entry called start done (first ++ second) := by
  intro before later frame d split
  rcases List.append_eq_append_iff.1 split with ⟨more, rfl, rest⟩ | ⟨more, inside, rest⟩
  · rw [← List.append_assoc done]
    exact behind more later frame d rest
  · rcases List.cons_eq_append_iff.1 rest with ⟨rfl, rest⟩ | ⟨last, rfl, _⟩
    · -- The document is entered by the first event of the second part.
      rw [List.append_nil] at inside
      subst inside
      have here := behind [] later frame d rest.symm
      rwa [List.append_nil] at here
    · exact enters before last frame d inside

theorem Enters.single {via : Option WorkflowStep} {frame : Frame} {d : Document}
    (arrives : r.Arrives entry called start (done ++ [.entered frame d]) outer ⟨via, frame, d⟩ 0 s) :
    r.Enters entry called start done [.entered frame d] := by
  intro before later other e split
  rcases List.cons_eq_append_iff.1 split with ⟨rfl, same⟩ | ⟨_, _, nothing⟩
  · obtain ⟨same, rfl⟩ := List.cons.inj same
    cases same
    rw [List.append_nil]
    exact ⟨outer, via, s, arrives⟩
  · simp at nothing

end Enters

section Executed

variable {steps : List Step} {p : Progress σ}

theorem Acts.enters {frame : Frame} {step : ActionStep} (acts : Acts r frame stepIndex step s p)
    (done : List RunEvent) : r.Enters entry called start done p.events := by
  refine .of_silent fun e member inner d => ?_
  cases acts with
  | unregistered =>
    obtain rfl := List.mem_singleton.1 member
    simp
  | answered =>
    rcases List.mem_append.1 member with member | member
    · rcases List.mem_cons.1 member with rfl | member
      · simp
      · obtain ⟨_, _, rfl⟩ := List.mem_map.1 member
        simp
    · rcases List.mem_cons.1 member with rfl | member
      · simp
      · rintro rfl
        exact quiet_answeredPause _ _ _ member

theorem enters_nestedProgress {frame : Frame} {via : Option WorkflowStep} {d child : Document}
    {step : WorkflowStep} {cache : Cache} {inner : Progress σ}
    (arrives : r.Arrives entry called start events outer ⟨via, frame, d⟩ stepIndex s)
    (found : d.steps[stepIndex]? = some (.workflow step))
    (opening : r.openImport frame step s = .opened child.location child cache)
    (inside : ∀ events, r.Arrives entry called start events (outer ++ [⟨via, frame, d⟩])
      ⟨some step, frame.inside step child, child⟩ 0 { s with cache } →
        r.Enters entry called start events inner.events) :
    r.Enters entry called start events (nestedProgress frame stepIndex step s child inner).events := by
  have below := arrives.inner found opening
  have deeper := inside _ below
  rw [List.append_cons] at below
  rw [nestedProgress_events]
  have opened : r.Enters entry called start events
      ([.importing frame stepIndex step s.host.files s.cache] ++
        [.entered (frame.inside step child) child]) :=
    (Enters.of_silent (by simp)).append (.single below)
  exact opened.append (deeper.append (.of_silent (by simp)))

theorem Executes.enters {frame : Frame} (executed : Executes r frame stepIndex steps s p)
    {via : Option WorkflowStep} {d : Document}
    (arrives : r.Arrives entry called start events outer ⟨via, frame, d⟩ stepIndex s)
    (ahead : d.steps.drop stepIndex = steps) : r.Enters entry called start events p.events := by
  induction executed generalizing events outer via d with
  | done => exact .of_silent (by simp [Progress.start])
  | action acts passed _ ih =>
    have next := arrives.acted (Document.getElem?_of_drop ahead) acts passed
    exact (acts.enters events).append (ih next (Document.drop_succ ahead))
  | actionFailed acts => exact acts.enters events
  | refused => exact .of_silent (by simp [refuseNested])
  | @nested frame stepIndex step _ s child _ inner _ opening executed passed _ ihInner ihLater =>
    have found := Document.getElem?_of_drop ahead
    have first := enters_nestedProgress arrives found opening fun _ below => ihInner below rfl
    have next := arrives.returned found opening executed passed
    exact first.append (ihLater next (Document.drop_succ ahead))
  | nestedFailed opening _ _ ih =>
    exact enters_nestedProgress arrives (Document.getElem?_of_drop ahead) opening fun _ below => ih below rfl

end Executed

theorem isPrefix_nestedProgress (events : List RunEvent) (frame : Frame) (stepIndex : Nat)
    (step : WorkflowStep) (s : Session σ) (child : Document) (inner : Progress σ) :
    events ++ [.importing frame stepIndex step s.host.files s.cache,
        .entered (frame.inside step child) child] ++ inner.events <+:
      events ++ (nestedProgress frame stepIndex step s child inner).events :=
  ⟨[.logged (nestedOutcome frame stepIndex step child.location inner.failure)], by
    simp only [nestedProgress_events, List.append_assoc]⟩

/-- A moment that a run gets to has its steps ahead of it, and its events are the first ones of the run. -/
theorem Arrives.remains {whole : Progress σ}
    (arrives : r.Arrives entry called start events outer here stepIndex s)
    (executed : Executes r (.enter [] entry called) 0 entry.steps start whole) :
    ∃ p, Executes r here.frame stepIndex (here.document.steps.drop stepIndex) s p ∧
      events ++ p.events <+: .entered (.enter [] entry called) entry :: whole.events := by
  induction arrives with
  | entry => exact ⟨whole, executed, List.prefix_rfl⟩
  | acted _ found acts passed ih =>
    obtain ⟨p, runs, known⟩ := ih
    rw [Document.drop_eq_cons found] at runs
    -- A step is done in one way only, so the whole run does it as it was done on the way here.
    cases runs with
    | action same _ behind =>
      obtain rfl := acts.unique same
      exact ⟨_, behind, by rwa [List.append_assoc]⟩
    | actionFailed same failed =>
      obtain rfl := acts.unique same
      cases passed.symm.trans failed
  | returned _ found opening inside passed ih =>
    obtain ⟨p, runs, known⟩ := ih
    rw [Document.drop_eq_cons found] at runs
    cases runs with
    | refused refused => cases opening.symm.trans refused
    | nested same again _ behind =>
      obtain ⟨_, rfl, rfl⟩ := Opening.opened.inj (opening.symm.trans same)
      obtain rfl := inside.unique again
      exact ⟨_, behind, by rwa [List.append_assoc]⟩
    | nestedFailed same again failed =>
      obtain ⟨_, rfl, rfl⟩ := Opening.opened.inj (opening.symm.trans same)
      obtain rfl := inside.unique again
      cases passed.symm.trans failed
  | inner _ found opening ih =>
    obtain ⟨p, runs, known⟩ := ih
    rw [Document.drop_eq_cons found] at runs
    -- Whether or not the inner document succeeds, its own run is ahead of the moment it is entered.
    cases runs with
    | refused refused => cases opening.symm.trans refused
    | nested same inside _ _ =>
      obtain ⟨_, rfl, rfl⟩ := Opening.opened.inj (opening.symm.trans same)
      refine ⟨_, inside, (isPrefix_nestedProgress _ _ _ _ _ _ _).trans ?_⟩
      refine List.IsPrefix.trans ?_ known
      rw [Progress.append, ← List.append_assoc]
      exact List.prefix_append _ _
    | nestedFailed same inside _ =>
      obtain ⟨_, rfl, rfl⟩ := Opening.opened.inj (opening.symm.trans same)
      exact ⟨_, inside, (isPrefix_nestedProgress _ _ _ _ _ _ _).trans known⟩

section Exhausted

variable {via : Option WorkflowStep} {d : Document}

/-- A run that does not come to an end among the steps of a document goes on inside one of them. -/
theorem exists_arrives_of_runSteps
    {enter : List Location → Document → Params → Session σ → Option (Progress σ)} {depth : Nat}
    {frame : Frame}
    (enters : ∀ above d called s p, enter above d called s = some p →
      ∃ inner, Executes r (.enter above d called) 0 d.steps s inner ∧
        p = inner.behindEvent (.entered (.enter above d called) d))
    (inside : ∀ events step child s, r.Arrives entry called start events (outer ++ [⟨via, frame, d⟩])
        ⟨some step, frame.inside step child, child⟩ 0 s →
      enter frame.chain child (frame.params.forWorkflow step.params) s = none →
        ∃ events outer here s, r.Arrives entry called start events outer here 0 s ∧ outer.length = depth)
    {steps : List Step} (arrives : r.Arrives entry called start events outer ⟨via, frame, d⟩ stepIndex s)
    (ahead : d.steps.drop stepIndex = steps) (lost : r.runSteps enter frame stepIndex steps s = none) :
    ∃ events outer here s, r.Arrives entry called start events outer here 0 s ∧ outer.length = depth := by
  induction steps generalizing stepIndex s events with
  | nil => cases lost
  | cons step rest ih =>
    have found := Document.getElem?_of_drop ahead
    have later := Document.drop_succ ahead
    rw [runSteps] at lost
    cases step with
    | action step =>
      have acts := acts_runAction (r := r) frame stepIndex step s
      obtain ⟨passed, lost⟩ := Progress.andThen_eq_none.1 lost
      exact ih (arrives.acted found acts passed) later lost
    | workflow step =>
      cases opening : r.openImport frame step s with
      | refused target error cache =>
        simp only [runStep, runNested, opening, Progress.andThen_eq_none] at lost
        cases lost.1
      | opened target child cache =>
        obtain ⟨_, _, _, rfl⟩ := openImport_eq_opened opening
        -- What does not end is either this document or a step behind it.
        cases entered : enter frame.chain child (frame.params.forWorkflow step.params)
            { s with cache } with
        | none => exact inside _ _ _ _ (arrives.inner found opening) entered
        | some below =>
          obtain ⟨inner, executed, rfl⟩ := enters _ _ _ _ _ entered
          simp only [runStep, runNested, opening, entered, Option.map_some,
            Progress.andThen_eq_none] at lost
          obtain ⟨passed, lost⟩ := lost
          exact ih (arrives.returned found opening executed passed) later lost

theorem Arrives.exists_deep {budget : Nat} {above : List Location} {given : Params}
    (arrives : r.Arrives entry called start events outer ⟨via, .enter above d given, d⟩ 0 s)
    (lost : r.runDocument budget above d given s = none) :
    ∃ events inner here s, r.Arrives entry called start events inner here 0 s ∧
      inner.length = outer.length + budget := by
  induction budget generalizing events outer via above d given s with
  | zero => exact ⟨_, _, _, _, arrives, rfl⟩
  | succ budget ih =>
    rw [runDocument, Option.map_eq_none_iff] at lost
    refine exists_arrives_of_runSteps (fun _ _ _ _ _ => executes_of_runDocument) ?_ arrives rfl lost
    intro events step child s below lost
    obtain ⟨events, inner, here, s, deep, length⟩ := ih below lost
    refine ⟨events, inner, here, s, deep, ?_⟩
    rw [length, List.length_append, List.length_singleton]
    omega

end Exhausted

theorem Arrives.isPrefix_events {budget : Nat} {target : Target} {cache : Cache} {finished : Finished σ}
    (arrives : r.Arrives g.entryDocument called { s with cache } events outer here stepIndex start)
    (resolved : r.resolver.resolveTargetGraph s.host.files s.cache target = (.ok g, cache))
    (ran : r.run budget target called s = some finished) : events <+: finished.events := by
  rw [run_eq, resolved] at ran
  obtain ⟨p, began, rfl⟩ := Option.map_eq_some_iff.1 ran
  obtain ⟨inner, executed, rfl⟩ := executes_of_runDocument began
  obtain ⟨_, _, whole⟩ := arrives.remains executed
  exact (List.prefix_append _ _).trans whole

/-- Whatever actions do, a run descends through different documents, each loaded for a step of the one before it, and
never as deep as it has loaded locations. -/
theorem run_descends (r : Runner σ) (target : Target) (called : Params) (s : Session σ)
    (graph : ImportGraph) (cache : Cache)
    (resolved : r.resolver.resolveTargetGraph s.host.files s.cache target = (.ok graph, cache)) :
    (∀ events outer here stepIndex now,
      r.Arrives graph.entryDocument called { s with cache } events outer here stepIndex now →
        r.Descends graph events outer here ∧
          here.frame.depth < (graph.loads r.resolver events).dedup.length) ∧
    (∀ budget finished, r.run budget target called s = some finished → ∀ before frame d,
      (∃ later, finished.events = before ++ .entered frame d :: later) ↔
        ∃ outer via now, r.Arrives graph.entryDocument called { s with cache }
          (before ++ [.entered frame d]) outer ⟨via, frame, d⟩ 0 now) ∧
    (∀ budget, r.run budget target called s = none → ∃ events outer here now,
      r.Arrives graph.entryDocument called { s with cache } events outer here 0 now ∧
        outer.length = budget) ∧
    ∀ known : List Location,
      (∀ events outer here now,
        r.Arrives graph.entryDocument called { s with cache } events outer here 0 now →
          here.frame.location ∈ known) →
      ∀ budget, known.length ≤ budget → ∃ finished, r.run budget target called s = some finished := by
  have located : graph.entryDocument.location = graph.entry :=
    (Resolver.represents_of_resolveGraph (Resolver.resolveGraph_of_resolveTargetGraph resolved)).entered
  have deep : ∀ budget, r.run budget target called s = none → ∃ events outer here now,
      r.Arrives graph.entryDocument called { s with cache } events outer here 0 now ∧
        outer.length = budget := by
    intro budget lost
    rw [run_eq, resolved, Option.map_eq_none_iff] at lost
    obtain ⟨events, outer, here, now, arrives, length⟩ := Arrives.exists_deep .entry lost
    exact ⟨events, outer, here, now, arrives, by simpa using length⟩
  refine ⟨fun events outer here stepIndex now arrives => ?_, ?_, deep, ?_⟩
  · have descends := arrives.descends located
    exact ⟨descends, descends.depth_lt⟩
  · intro budget finished ran before frame d
    constructor
    · rintro ⟨later, split⟩
      rw [run_eq, resolved] at ran
      obtain ⟨p, began, rfl⟩ := Option.map_eq_some_iff.1 ran
      obtain ⟨inner, executed, rfl⟩ := executes_of_runDocument began
      have first : r.Enters graph.entryDocument called { s with cache } []
          [.entered (.enter [] graph.entryDocument called) graph.entryDocument] := .single .entry
      have enters := first.append (executed.enters .entry rfl)
      exact enters before later frame d split
    · rintro ⟨outer, via, now, arrives⟩
      obtain ⟨later, whole⟩ := arrives.isPrefix_events resolved ran
      exact ⟨later, by rw [← whole, List.append_assoc, List.singleton_append]⟩
  · intro known inside budget enough
    cases ran : r.run budget target called s with
    | some finished => exact ⟨finished, rfl⟩
    | none =>
      -- Frames as many as the budget allows would run more different documents than are known.
      obtain ⟨events, outer, here, now, arrives, length⟩ := deep budget ran
      have descends := arrives.descends located
      have short := descends.distinct.length_le_of_subset (arrives.forall_chain inside)
      rw [descends.length_chain] at short
      omega

end Runner

namespace Sample

/-- A document that imports the one with the switch. -/
def porch : Document where
  location := ⟨["w", "a.y"]⟩
  description := none
  defaults := ∅
  steps := [.workflow ⟨⟨"b"⟩, none, ∅⟩]

/-- A document that imports over a link, behind an action that turns it round. -/
def switchyard : Document where
  location := ⟨["w", "b.y"]⟩
  description := none
  defaults := ∅
  steps := [.action ⟨"turn", none, ∅, false, none⟩, .workflow ⟨⟨"c"⟩, none, ∅⟩]

def siding : Document where
  location := ⟨["w", "d.y"]⟩
  description := none
  defaults := ∅
  steps := []

def turn : Action Unit := fun _ host =>
  ⟨.ok true, { host with files := host.files.put ⟨["w", "c.y"]⟩ (.link ⟨"a.y"⟩) }, true, []⟩

def turning : Runner Unit where
  resolver := ⟨⟨["w"]⟩, "y", .unrestricted, .filesystem⟩
  registry := Registry.empty.register "turn" turn
  defaultPause := 0

def yard : FileSystem where
  entries := (((((∅ : Dictionary Location Entry).insert ⟨["w"]⟩ .directory).insert porch.location
    (.file .binary)).insert switchyard.location (.file .binary)).insert siding.location
    (.file .binary)).insert ⟨["w", "c.y"]⟩ (.link ⟨"d.y"⟩)
  workingDirectory := .top

def yardSession : Session Unit where
  host := ⟨yard, ()⟩
  cache := ((Cache.empty.insert porch).insert switchyard).insert siding

def entered? : RunEvent → Option Location
  | .entered frame _ => some frame.location
  | _ => none

end Sample

namespace Runner

/-- A link that is turned round while its graph is run leads back to an open document. The run goes no
deeper, and of the three documents of the graph it gets to two only. -/
theorem run_descends_sample : ∃ graph cache finished f,
    Sample.turning.resolver.resolveTargetGraph Sample.yardSession.host.files Sample.yardSession.cache
      (.location Sample.porch.location) = (.ok graph, cache) ∧
    Sample.turning.run 2 (.location Sample.porch.location) ∅ Sample.yardSession = some finished ∧
    finished.result.failure = some f ∧
    f.error = .cyclicImport [Sample.porch.location, Sample.switchyard.location] Sample.porch.location ∧
    (∃ before later frame d outer via, finished.events = before ++ .entered frame d :: later ∧
      frame.location = Sample.switchyard.location ∧
      Sample.turning.Descends graph (before ++ [.entered frame d]) outer ⟨via, frame, d⟩) ∧
    ∀ budget, 2 ≤ budget → ∃ finished,
      Sample.turning.run budget (.location Sample.porch.location) ∅ Sample.yardSession = some finished := by
  have resolves : ((Sample.turning.resolver.resolveTargetGraph Sample.yardSession.host.files
      Sample.yardSession.cache (.location Sample.porch.location)).1.map ImportGraph.locations).toOption =
        some [Sample.porch.location, Sample.switchyard.location, Sample.siding.location] := by
    decide +kernel
  have ends : (Sample.turning.run 2 (.location Sample.porch.location) ∅ Sample.yardSession).map
      (fun f => (f.result.failure.map RunFailure.error, f.events.filterMap Sample.entered?)) =
        some (some (.cyclicImport [Sample.porch.location, Sample.switchyard.location]
          Sample.porch.location), [Sample.porch.location, Sample.switchyard.location]) := by
    decide +kernel
  obtain ⟨finished, ran, same⟩ := Option.map_eq_some_iff.1 ends
  obtain ⟨failed, entered⟩ := Prod.mk.inj same
  obtain ⟨f, failure, error⟩ := Option.map_eq_some_iff.1 failed
  rcases resolved : Sample.turning.resolver.resolveTargetGraph Sample.yardSession.host.files
    Sample.yardSession.cache (.location Sample.porch.location) with ⟨failure | graph, cache⟩
  · simp [resolved, Except.map, Except.toOption] at resolves
  · obtain ⟨descends, gets, _, bounded⟩ := run_descends Sample.turning (.location Sample.porch.location)
      ∅ Sample.yardSession graph cache resolved
    refine ⟨graph, cache, finished, f, rfl, ran, failure, error, ?_, ?_⟩
    · have inside : Sample.switchyard.location ∈ finished.events.filterMap Sample.entered? := by
        rw [entered]
        decide
      obtain ⟨e, member, located⟩ := List.mem_filterMap.1 inside
      obtain ⟨before, later, split⟩ := List.append_of_mem member
      cases e with
      | entered frame d =>
        obtain ⟨outer, via, now, arrives⟩ := (gets 2 finished ran before frame d).1 ⟨later, split⟩
        exact ⟨before, later, frame, d, outer, via, split, Option.some.inj located,
          (descends _ _ _ _ _ arrives).1⟩
      | _ => cases located
    · refine bounded [Sample.porch.location, Sample.switchyard.location] fun events outer here now arrives => ?_
      have inside := (descends _ _ _ _ _ arrives).1.entered
      have happened := (arrives.isPrefix_events resolved ran).subset inside
      rw [← entered]
      exact List.mem_filterMap.2 ⟨_, happened, rfl⟩

end Runner

end WorkflowEngine
