import WorkflowEngine.Proofs.Run.Expansion

/-! When a run succeeds.

A graph names the actions of its documents. If a registry has all of them, and they succeed and do nothing
else, then nothing is left on which a run along the graph could fail: the files and the documents stay as the
graph has found them, so every workflow step opens the document that its edge leads to.
-/

set_option autoImplicit false

namespace WorkflowEngine

variable {σ : Type}

/-- An action that always succeeds, and changes nothing. It may say something. -/
structure Action.Succeeds (action : Action σ) : Prop where
  verdict : ∀ params host, (action params host).verdict = .ok true
  host : ∀ params host, (action params host).host = host
  keeps : ∀ params host, (action params host).resets = false

def Registry.Carries (r : Registry σ) (names : List String) : Prop :=
  ∀ name ∈ names, ∃ action, r.find? name = some action ∧ action.Succeeds

theorem ImportGraph.mem_actionNames {g : ImportGraph} {name : String} :
    name ∈ g.actionNames ↔ ∃ d ∈ g.documents, ∃ step, .action step ∈ d.steps ∧ step.action = name := by
  have own : ∀ d : Document, name ∈ d.actionNames ↔ ∃ step, .action step ∈ d.steps ∧ step.action = name := by
    intro d
    rw [Document.actionNames, List.mem_filterMap]
    constructor
    · rintro ⟨step, member, same⟩
      cases step with
      | action step => exact ⟨step, member, Option.some.inj same⟩
      | workflow step => cases same
    · rintro ⟨step, member, rfl⟩
      exact ⟨_, member, rfl⟩
  rw [actionNames, Dictionary.ofList, Dictionary.mem_keys_insertAll]
  simp [Dictionary.keys, Dictionary.empty, own]

namespace Progress

/-- A part of a run that logs a plan, with every step of it successful, and changes nothing. -/
structure Completes (p : Progress σ) (s : Session σ) (plan : List PlannedStep) : Prop where
  passed : p.failure = none
  kept : p.session = s
  planned : p.log.map StepOutcome.planned = plan
  succeeded : ∀ o ∈ p.log, o.succeeded = true

theorem Completes.append {first later : Progress σ} {s : Session σ} {done plan : List PlannedStep}
    (completes : first.Completes s done) (behind : later.Completes s plan) :
    (first.append later).Completes s (done ++ plan) where
  passed := behind.passed
  kept := behind.kept
  planned := by rw [log_append, List.map_append, completes.planned, behind.planned]
  succeeded o member := by
    rw [log_append] at member
    rcases List.mem_append.1 member with member | member
    · exact completes.succeeded o member
    · exact behind.succeeded o member

end Progress

namespace Runner

variable {r : Runner σ} {S : Sources} {g : ImportGraph} {s : Session σ}

theorem completes_runAction {step : ActionStep} {action : Action σ}
    (registered : r.registry.find? step.action = some action) (succeeds : action.Succeeds) (frame : Frame)
    (stepIndex : Nat) (s : Session σ) :
    (r.runAction frame stepIndex step s).Completes s
      [⟨frame.location, stepIndex, frame.depth, .action step.action⟩] := by
  have acts := acts_runAction (r := r) frame stepIndex step s
  have planned := acts.planned_log
  generalize r.runAction frame stepIndex step s = p at acts planned ⊢
  cases acts with
  | unregistered missing => cases missing.symm.trans registered
  | answered same replied =>
    obtain rfl := Option.some.inj (registered.symm.trans same)
    subst replied
    have verdict := succeeds.verdict (frame.params.forAction step.params) s.host
    refine ⟨?_, ?_, planned, fun o member => ?_⟩
    · simp [answeredFailure, actionError, verdict]
    · simp [afterReply, succeeds.host, succeeds.keeps]
    · simp only [Progress.log, RunEvent.log_append, log_invocationEvents, RunEvent.log_cons_logged,
        log_answeredPause, List.nil_append] at member
      obtain rfl := List.mem_singleton.1 member
      simp [answeredOutcome, actionError, verdict, Frame.outcome]

theorem completes_nestedProgress {inner : Progress σ} {plan : List PlannedStep}
    (completes : inner.Completes s plan) (frame : Frame) (stepIndex : Nat) (step : WorkflowStep)
    (child : Document) :
    (nestedProgress frame stepIndex step s child inner).Completes s
      (plan ++ [⟨frame.location, stepIndex, frame.depth, .workflow step.workflow (some child.location)⟩]) where
  passed := completes.passed
  kept := completes.kept
  planned := by rw [planned_log_nestedProgress, completes.planned]
  succeeded o member := by
    rw [log_nestedProgress] at member
    rcases List.mem_append.1 member with member | member
    · exact completes.succeeded o member
    · obtain rfl := List.mem_singleton.1 member
      simp [nestedOutcome, completes.passed, Frame.outcome]

theorem exists_completes_cons
    {enter : List Location → Document → Params → Session σ → Option (Progress σ)} {frame : Frame}
    {stepIndex : Nat} {step : Step} {rest : List Step} {first later : Progress σ}
    {done plan : List PlannedStep} (stepped : r.runStep enter frame stepIndex step s = some first)
    (completes : first.Completes s done)
    (ran : r.runSteps enter frame (stepIndex + 1) rest s = some later) (behind : later.Completes s plan) :
    ∃ p, r.runSteps enter frame stepIndex (step :: rest) s = some p ∧ p.Completes s (done ++ plan) := by
  refine ⟨_, ?_, completes.append behind⟩
  unfold runSteps
  simp only [stepped]
  refine Progress.andThen_eq_some.2 (.inr ⟨completes.passed, later, ?_, rfl⟩)
  rw [completes.kept]
  exact ran

/-- A session has all that a graph needs: references mean what they do in the graph, its documents are in the
cache, and the actions that it names succeed. -/
structure Stocked (r : Runner σ) (S : Sources) (g : ImportGraph) (s : Session σ) : Prop where
  represents : g.Represents S g.entry
  means : r.resolver.importTarget s.host.files = S.target
  cached : ∀ d ∈ g.documents, s.cache.find? d.location = some d
  carries : r.registry.Carries g.actionNames

theorem Stocked.exists_completes (stocked : Stocked r S g s) {depth : Nat} {l : Location} {stepIndex : Nat}
    {steps : List Step} {plan : List PlannedStep} (expands : g.Expands depth l stepIndex steps plan)
    {frame : Frame} {d : Document} {budget : Nat} (holds : g.Holds S frame d)
    (located : frame.location = l) (deep : frame.depth = depth) (opened : frame.chain ≠ [])
    (ahead : d.steps.drop stepIndex = steps)
    (enough : g.documents.length ≤ frame.chain.length + budget) :
    ∃ p, r.runSteps (r.runDocument budget) frame stepIndex steps s = some p ∧ p.Completes s plan := by
  induction expands generalizing frame d budget with
  | done => exact ⟨_, rfl, rfl, rfl, rfl, by simp [Progress.log, Progress.start, RunEvent.log]⟩
  | @action depth l stepIndex step rest later behind ih =>
    -- The frame runs a document of the graph, so the graph names the action.
    obtain ⟨member, _⟩ := ImportGraph.mem_of_document? holds.document
    have inside : .action step ∈ d.steps := List.mem_of_getElem? (Document.getElem?_of_drop ahead)
    obtain ⟨action, registered, succeeds⟩ :=
      stocked.carries step.action (ImportGraph.mem_actionNames.2 ⟨d, member, step, inside, rfl⟩)
    obtain ⟨p, ran, completes⟩ := ih holds located deep opened (Document.drop_succ ahead) enough
    have first := completes_runAction registered succeeds frame stepIndex s
    rw [located, deep] at first
    exact exists_completes_cons rfl first ran completes
  | @workflow depth l stepIndex step rest target child inner later recorded document _ _ ihInner ihLater =>
    obtain ⟨twin, opening, leads, _, inside⟩ :=
      holds.opens stocked.represents stocked.means stocked.cached (Document.getElem?_of_drop ahead)
    rw [located] at leads
    obtain ⟨rfl, rfl⟩ := leads.unique recorded document
    have deeper : (frame.inside step twin).depth = depth + 1 :=
      deep ▸ Frame.depth_of_chain rfl opened
    have length : (frame.inside step twin).chain.length = frame.chain.length + 1 := by
      simp [Frame.inside, Frame.enter]
    have short := inside.length_chain_le
    -- The open documents are different ones of the graph, so the budget is not used up here.
    cases budget with
    | zero => omega
    | succ budget =>
      have less : g.documents.length ≤ (frame.inside step twin).chain.length + budget := by omega
      obtain ⟨p, ran, completes⟩ :=
        ihInner inside rfl deeper (List.ne_nil_of_length_eq_add_one length) rfl less
      obtain ⟨q, behind, further⟩ := ihLater holds located deep opened (Document.drop_succ ahead) enough
      have entered : r.runDocument (budget + 1) frame.chain twin (frame.params.forWorkflow step.params) s =
          some (p.behindEvent (.entered (frame.inside step twin) twin)) :=
        Option.map_eq_some_iff.2 ⟨p, ran, rfl⟩
      have stepped : r.runStep (r.runDocument (budget + 1)) frame stepIndex (.workflow step) s =
          some (nestedProgress frame stepIndex step s twin p) := by
        simp only [runStep, runNested, opening, entered, Option.map_some]
        rfl
      have first := completes_nestedProgress completes frame stepIndex step twin
      rw [located, deep] at first
      rw [List.append_cons]
      exact exists_completes_cons stepped first behind further

/-- A run went through a whole graph, and every step succeeded: its log is the expansion of the graph. -/
structure Finished.Completes (f : Finished σ) (g : ImportGraph) : Prop where
  succeeded : f.result.succeeded = true
  expands : g.Expands 0 g.entry 0 g.entryDocument.steps (f.result.steps.map StepOutcome.planned)
  only : ∀ plan, g.Expands 0 g.entry 0 g.entryDocument.steps plan →
    plan = f.result.steps.map StepOutcome.planned
  each : ∀ o ∈ f.result.steps, o.succeeded = true

/-- A run whose graph is resolved succeeds, if every action that the graph names does and changes nothing. -/
theorem exists_completes_of_resolved {cache : Cache} {target : Target} (params : Params)
    (resolved : r.resolver.resolveTargetGraph s.host.files s.cache target = (.ok g, cache))
    (carries : r.registry.Carries g.actionNames) :
    ∃ finished, Ends r g target params s finished ∧ finished.session = { s with cache } ∧
      finished.Completes g := by
  have walked := Resolver.resolveGraph_of_resolveTargetGraph resolved
  have represents := Resolver.represents_of_resolveGraph walked
  have entered := represents.entered
  obtain ⟨plan, expands⟩ := represents.exists_expands
  have stocked : Stocked r (r.resolver.sources s.host.files s.cache) g { s with cache } :=
    ⟨represents, (r.resolver.sources_target _ _).symm, Resolver.find?_of_resolveGraph walked, carries⟩
  -- No more documents can be open than the graph has, so its size is a budget.
  have enough : g.documents.length ≤
      (Frame.enter [] g.entryDocument params).chain.length + g.imported.length := by
    simp only [ImportGraph.documents, Frame.enter, List.length_cons, List.length_append, List.length_nil]
    omega
  obtain ⟨p, stepped, completes⟩ := stocked.exists_completes expands (represents.holds params) entered rfl
    (by simp [Frame.enter]) rfl enough
  have began : r.runDocument g.documents.length [] g.entryDocument params { s with cache } =
      some (p.behindEvent (.entered (.enter [] g.entryDocument params) g.entryDocument)) :=
    Option.map_eq_some_iff.2 ⟨p, stepped, rfl⟩
  have logged : (Finished.ofProgress (p.behindEvent
      (.entered (.enter [] g.entryDocument params) g.entryDocument))).result.steps = p.log := by
    rw [Finished.ofProgress_steps, Progress.log_behindEvent_entered]
  refine ⟨_, ends_of_runDocument resolved began, completes.kept, ?_⟩
  constructor
  case succeeded => exact (Finished.ofProgress_succeeded _).2 completes.passed
  case expands =>
    rw [logged, completes.planned]
    exact expands
  case only =>
    intro other again
    rw [← entered] at expands again
    rw [logged, completes.planned]
    exact represents.expands_unique List.mem_cons_self rfl again expands
  case each =>
    rw [logged]
    exact completes.succeeded

end Runner

end WorkflowEngine
