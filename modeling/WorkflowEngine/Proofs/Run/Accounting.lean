import WorkflowEngine.Proofs.Graph.Representation
import WorkflowEngine.Proofs.Run.Execution

/-! How a run accounts for itself.

A failure is logged where it happens, and again by each workflow step around it while the frames are left.
Nothing is invoked behind it, and what failed before it was an optional action.
-/

set_option autoImplicit false

namespace WorkflowEngine.Runner

variable {σ : Type}

/-- An unsuccessful entry does not end a run: it is that of an optional step with a registered action. -/
def Tolerates (r : Runner σ) (o : StepOutcome) : Prop :=
  o.optional = true ∧ ∃ name action, o.target = .action name ∧ r.registry.find? name = some action

structure Encloses (r : Runner σ) (events : List RunEvent) (inner outer : StepOutcome) : Prop where
  depth : inner.depth = outer.depth + 1
  unsuccessful : outer.succeeded = false
  error : outer.error = some (.nestedWorkflowFailed inner.workflow)
  imports : ∃ frame d step files cache,
    .entered frame d ∈ events ∧ frame.location = outer.workflow ∧ frame.depth = outer.depth ∧
    d.steps[outer.stepIndex]? = some (.workflow step) ∧
    .importing frame outer.stepIndex step files cache ∈ events ∧
    r.resolver.importTarget files outer.workflow step = .ok inner.workflow ∧
    outer.target = .workflow step.workflow (some inner.workflow)

/-- A failure in a frame, with the events before and behind its entry and the documents below the frame
that were open. -/
structure Reports (r : Runner σ) (events : List RunEvent) (frame : Frame) (f : RunFailure)
    (before : List RunEvent) (fatal : StepOutcome) (behind : List RunEvent)
    (below : List Location) : Prop where
  tolerated : ∀ o ∈ RunEvent.log before, o.succeeded = false → r.Tolerates o
  unsuccessful : fatal.succeeded = false
  workflow : f.workflow = some fatal.workflow
  stepIndex : f.stepIndex = some fatal.stepIndex
  error : fatal.error = some f.error
  chain : f.callChain = frame.chain ++ below
  workflows : (fatal :: RunEvent.log behind).map StepOutcome.workflow =
    (frame.location :: below).reverse
  depths : (fatal :: RunEvent.log behind).map StepOutcome.depth =
    (List.range' frame.depth (below.length + 1)).reverse
  enclosed : (fatal :: RunEvent.log behind).IsChain (r.Encloses events)
  idle : ∀ e ∈ behind, e.invocation? = none

variable {r : Runner σ}

theorem Reports.own {events before : List RunEvent} {frame : Frame} {stepIndex : Nat}
    {target : StepTarget} {optional : Bool} {error : Error} (silent : RunEvent.log before = []) :
    Reports r events frame (frame.failure stepIndex error) before
      ((frame.outcome stepIndex target optional).failed error) [] [] where
  tolerated := by simp [silent]
  unsuccessful := rfl
  workflow := rfl
  stepIndex := rfl
  error := rfl
  chain := (List.append_nil _).symm
  workflows := rfl
  depths := rfl
  enclosed := .singleton _
  idle := by simp

theorem Reports.prepend {events before behind : List RunEvent} {frame : Frame} {f : RunFailure}
    {fatal : StepOutcome} {below : List Location}
    (reports : Reports r events frame f before fatal behind below) (first : List RunEvent)
    (tolerated : ∀ o ∈ RunEvent.log first, o.succeeded = false → r.Tolerates o) :
    Reports r events frame f (first ++ before) fatal behind below where
  tolerated o member := by
    rw [RunEvent.log_append] at member
    rcases List.mem_append.1 member with member | member
    · exact tolerated o member
    · exact reports.tolerated o member
  unsuccessful := reports.unsuccessful
  workflow := reports.workflow
  stepIndex := reports.stepIndex
  error := reports.error
  chain := reports.chain
  workflows := reports.workflows
  depths := reports.depths
  enclosed := reports.enclosed
  idle := reports.idle

theorem Reports.around {events before behind : List RunEvent} {frame inner : Frame}
    {f : RunFailure} {fatal outer : StepOutcome} {below : List Location}
    (reports : Reports r events inner f before fatal behind below)
    (chain : inner.chain = frame.chain ++ [inner.location]) (opened : frame.chain ≠ [])
    (workflow : outer.workflow = frame.location) (depth : outer.depth = frame.depth)
    (encloses : ∀ o, o.workflow = inner.location → o.depth = frame.depth + 1 →
      r.Encloses events o outer) :
    Reports r events frame f before fatal (behind ++ [.logged outer]) (inner.location :: below) := by
  have deeper : inner.depth = frame.depth + 1 := Frame.depth_of_chain chain opened
  have longer : fatal :: RunEvent.log (behind ++ [.logged outer]) =
      (fatal :: RunEvent.log behind) ++ [outer] := by
    rw [RunEvent.log_append]
    rfl
  constructor
  case tolerated => exact reports.tolerated
  case unsuccessful => exact reports.unsuccessful
  case workflow => exact reports.workflow
  case stepIndex => exact reports.stepIndex
  case error => exact reports.error
  case chain => rw [reports.chain, chain, List.append_assoc, List.singleton_append]
  case workflows =>
    rw [longer, List.map_append, reports.workflows, List.map_singleton, workflow]
    exact List.reverse_cons.symm
  case depths =>
    have outermost : List.range' frame.depth (below.length + 1 + 1) =
        frame.depth :: List.range' (frame.depth + 1) (below.length + 1) := List.range'_succ
    rw [longer, List.map_append, reports.depths, List.map_singleton, depth, deeper,
      List.length_cons, outermost]
    exact List.reverse_cons.symm
  case enclosed =>
    rw [longer]
    refine List.isChain_append.2 ⟨reports.enclosed, .singleton _, fun o last other same => ?_⟩
    -- The last entry so far is the one of the inner frame, which this step imports.
    obtain rfl : outer = other := Option.some.inj same
    have at_location := congrArg List.getLast? reports.workflows
    have at_depth := congrArg List.getLast? reports.depths
    rw [List.getLast?_map, last] at at_location at_depth
    rw [List.getLast?_reverse] at at_location at_depth
    exact encloses o (Option.some.inj at_location) (deeper ▸ Option.some.inj at_depth)
  case idle =>
    intro e member
    rcases List.mem_append.1 member with member | member
    · exact reports.idle e member
    · obtain rfl := List.mem_singleton.1 member
      rfl

namespace Acts

variable {frame : Frame} {stepIndex : Nat} {step : ActionStep} {s : Session σ} {p : Progress σ}

theorem tolerates (acts : Acts r frame stepIndex step s p) (passed : p.failure = none) :
    ∀ o ∈ p.log, o.succeeded = false → r.Tolerates o := by
  cases acts with
  | unregistered => cases passed
  | answered registered _ =>
    simp only [Progress.log, RunEvent.log_append, log_invocationEvents, RunEvent.log_cons_logged,
      log_answeredPause, List.nil_append]
    intro o member failed
    obtain rfl := List.mem_singleton.1 member
    refine ⟨?_, step.action, _, ?_, registered⟩
    · have optional := optional_of_answeredFailure passed failed
      unfold answeredOutcome
      split <;> exact optional
    · unfold answeredOutcome
      split <;> rfl

theorem reports {events : List RunEvent} {f : RunFailure} (acts : Acts r frame stepIndex step s p)
    (failed : p.failure = some f) :
    ∃ before fatal, p.events = before ++ [.logged fatal] ∧
      Reports r events frame f before fatal [] [] := by
  cases acts with
  | unregistered =>
    cases failed
    exact ⟨[], _, rfl, .own rfl⟩
  | answered =>
    obtain ⟨error, _, outcome, pause, rfl⟩ := answeredFailure_eq_some failed
    rw [outcome, pause]
    exact ⟨_, _, rfl, .own (log_invocationEvents _ _ _)⟩

end Acts

theorem tolerates_nestedProgress (frame : Frame) (stepIndex : Nat) (step : WorkflowStep)
    (s : Session σ) (child : Document) {inner : Progress σ} (passed : inner.failure = none)
    (tolerated : ∀ o ∈ inner.log, o.succeeded = false → r.Tolerates o) :
    ∀ o ∈ (nestedProgress frame stepIndex step s child inner).log,
      o.succeeded = false → r.Tolerates o := by
  intro o member
  rw [log_nestedProgress] at member
  rcases List.mem_append.1 member with member | member
  · exact tolerated o member
  · obtain rfl := List.mem_singleton.1 member
    simp [passed, nestedOutcome, Frame.outcome]

namespace Executes

variable {frame : Frame} {stepIndex : Nat} {steps : List Step} {s : Session σ} {p : Progress σ}

theorem tolerates (executed : Executes r frame stepIndex steps s p) (passed : p.failure = none) :
    ∀ o ∈ p.log, o.succeeded = false → r.Tolerates o := by
  induction executed with
  | done => simp [Progress.log, Progress.start, RunEvent.log]
  | action acts clean _ ih =>
    intro o member
    rw [Progress.log_append] at member
    rcases List.mem_append.1 member with member | member
    · exact acts.tolerates clean o member
    · exact ih passed o member
  | actionFailed acts failed => cases failed.symm.trans passed
  | refused => cases passed
  | @nested frame stepIndex step _ s child _ _ _ _ _ clean _ ihInner ihLater =>
    have first := tolerates_nestedProgress frame stepIndex step s child clean (ihInner clean)
    intro o member
    rw [Progress.log_append] at member
    rcases List.mem_append.1 member with member | member
    · exact first o member
    · exact ihLater passed o member
  | nestedFailed _ _ failed => cases failed.symm.trans passed

/-- A failure is reported by the step that failed and by the workflow steps around it, up to the frame in
which the steps are run. -/
theorem reports (executed : Executes r frame stepIndex steps s p) {f : RunFailure}
    (failed : p.failure = some f) {events : List RunEvent} {d : Document}
    (entered : .entered frame d ∈ events) (ahead : d.steps.drop stepIndex = steps)
    (inside : p.events ⊆ events) (opened : frame.chain ≠ []) :
    ∃ before fatal behind below, p.events = before ++ .logged fatal :: behind ∧
      Reports r events frame f before fatal behind below := by
  induction executed generalizing d with
  | done => cases failed
  | action acts clean _ ih =>
    obtain ⟨before, fatal, behind, below, split, reports⟩ := ih failed entered
      (Document.drop_succ ahead) (List.append_subset.1 inside).2 opened
    refine ⟨_, fatal, behind, below, ?_, reports.prepend _ (acts.tolerates clean)⟩
    simp only [Progress.append, split, List.append_assoc]
  | actionFailed acts first =>
    obtain rfl := Option.some.inj (failed.symm.trans first)
    obtain ⟨before, fatal, split, reports⟩ := acts.reports failed
    exact ⟨before, fatal, [], [], split, reports⟩
  | refused =>
    obtain rfl := Option.some.inj failed
    exact ⟨[_], _, [], [], rfl, .own rfl⟩
  | @nested frame stepIndex step _ s child _ _ _ _ executed clean _ _ ih =>
    obtain ⟨before, fatal, behind, below, split, reports⟩ := ih failed entered
      (Document.drop_succ ahead) (List.append_subset.1 inside).2 opened
    have first := tolerates_nestedProgress frame stepIndex step s child clean
      (executed.tolerates clean)
    refine ⟨_, fatal, behind, below, ?_, reports.prepend _ first⟩
    simp only [Progress.append, split, List.append_assoc]
  | @nestedFailed frame stepIndex step rest s child cache inner f opening executed first ih =>
    obtain rfl := Option.some.inj (failed.symm.trans first)
    obtain ⟨means, _, _, _⟩ := openImport_eq_opened opening
    rw [nestedProgress_events] at inside
    obtain ⟨outside, within⟩ := List.append_subset.1 inside
    obtain ⟨importing, below_entered⟩ := List.cons_subset.1 outside
    obtain ⟨before, fatal, behind, below, split, reports⟩ :=
      ih failed (below_entered List.mem_cons_self) rfl (List.append_subset.1 within).1
        (by simp [Frame.inside, Frame.enter])
    let outer := nestedOutcome frame stepIndex step child.location (some f)
    have encloses : ∀ o, o.workflow = child.location → o.depth = frame.depth + 1 →
        r.Encloses events o outer := fun o workflow depth =>
      { depth := depth
        unsuccessful := rfl
        error := by rw [workflow]; rfl
        imports := ⟨frame, d, step, _, _, entered, rfl, rfl, Document.getElem?_of_drop ahead, importing,
          by rw [workflow]; exact means, by rw [workflow]; rfl⟩ }
    -- What is logged behind the failure inside is logged before the entry of this step.
    have whole : Reports r events frame f _ fatal (behind ++ [.logged outer]) _ :=
      (reports.prepend [.importing frame stepIndex step s.host.files s.cache,
        .entered (frame.inside step child) child] (by simp [RunEvent.log, RunEvent.outcome?])).around
          rfl opened rfl rfl encloses
    refine ⟨_, fatal, _, _, ?_, whole⟩
    simp [nestedProgress_events, split, first, outer]

end Executes

structure Finished.Fails (r : Runner σ) (entry : Location) (finished : Finished σ) (f : RunFailure)
    (before : List RunEvent) (fatal : StepOutcome) (behind : List RunEvent) : Prop where
  events : finished.events = before ++ .logged fatal :: behind
  steps : finished.result.steps = RunEvent.log before ++ fatal :: RunEvent.log behind
  workflow : f.workflow = some fatal.workflow
  stepIndex : f.stepIndex = some fatal.stepIndex
  error : fatal.error = some f.error
  starts : f.callChain.head? = some entry
  ends : f.callChain.getLast? = f.workflow
  unsuccessful : ∀ o ∈ fatal :: RunEvent.log behind, o.succeeded = false
  workflows : (fatal :: RunEvent.log behind).map StepOutcome.workflow = f.callChain.reverse
  depths : (fatal :: RunEvent.log behind).map StepOutcome.depth =
    (List.range f.callChain.length).reverse
  enclosed : (fatal :: RunEvent.log behind).IsChain (r.Encloses finished.events)
  tolerated : ∀ o ∈ RunEvent.log before, o.succeeded = false → r.Tolerates o
  idle : ∀ e ∈ behind, e.invocation? = none

theorem Finished.fails_of_executes {d : Document} {params : Params} {s : Session σ}
    {inner : Progress σ} {f : RunFailure}
    (executed : Executes r (.enter [] d params) 0 d.steps s inner) (failed : inner.failure = some f) :
    ∃ before fatal behind, (ofProgress (inner.behindEvent (.entered (.enter [] d params) d))).Fails r
      d.location f before fatal behind := by
  have first : RunEvent.entered (.enter [] d params) d ∈
      .entered (.enter [] d params) d :: inner.events := List.mem_cons_self
  obtain ⟨before, fatal, behind, below, split, reports⟩ := executed.reports failed first rfl
    (List.subset_cons_self _ _) (by simp [Frame.enter])
  have chain : f.callChain = d.location :: below := reports.chain
  have workflows : (fatal :: RunEvent.log behind).map StepOutcome.workflow = f.callChain.reverse :=
    chain ▸ reports.workflows
  have ends := congrArg List.head? workflows
  rw [List.head?_reverse] at ends
  refine ⟨.entered (.enter [] d params) d :: before, fatal, behind, ?_⟩
  constructor
  case events => exact congrArg _ split
  case steps =>
    rw [ofProgress_steps, Progress.log_behindEvent_entered, Progress.log, split,
      RunEvent.log_append]
    rfl
  case workflow => exact reports.workflow
  case stepIndex => exact reports.stepIndex
  case error => exact reports.error
  case starts => rw [chain, List.head?_cons]
  case ends => rw [reports.workflow, ← ends, List.map_cons, List.head?_cons]
  case unsuccessful =>
    intro o member
    rcases List.mem_cons.1 member with rfl | member
    · exact reports.unsuccessful
    · obtain ⟨_, encloses⟩ := exists_rel_of_isChain reports.enclosed o member
      exact encloses.unsuccessful
  case workflows => exact workflows
  case depths =>
    rw [chain, List.range_eq_range']
    exact reports.depths
  case enclosed => exact reports.enclosed
  case tolerated => exact reports.tolerated
  case idle => exact reports.idle

/-- The verdict, the failure and the log of a run agree. -/
theorem run_accounted (r : Runner σ) (budget : Nat) (target : Target) (params : Params)
    (s : Session σ) (finished : Finished σ) (ran : r.run budget target params s = some finished) :
    (finished.result.succeeded = true ↔ finished.result.failure = none) ∧
    (∀ failure cache,
      r.resolver.resolveTargetGraph s.host.files s.cache target = (.error failure, cache) →
        finished.result = .failed (.ofGraph failure) [] ∧ finished.events = []) ∧
    ∀ graph cache,
      r.resolver.resolveTargetGraph s.host.files s.cache target = (.ok graph, cache) →
        (finished.result.failure = none →
          ∀ o ∈ finished.result.steps, o.succeeded = false → r.Tolerates o) ∧
        ∀ f, finished.result.failure = some f →
          ∃ before fatal behind, finished.Fails r graph.entry f before fatal behind := by
  rw [run_eq] at ran
  generalize resolved : r.resolver.resolveTargetGraph s.host.files s.cache target = outcome at ran ⊢
  obtain ⟨failure | graph, cache⟩ := outcome
  · cases ran
    simp [Finished.refused, RunResult.failed]
  · obtain ⟨p, began, rfl⟩ := Option.map_eq_some_iff.1 ran
    obtain ⟨inner, executed, rfl⟩ := executes_of_runDocument began
    have represents := Resolver.represents_of_resolveGraph
      (Resolver.resolveGraph_of_resolveTargetGraph resolved)
    refine ⟨?_, by simp, fun g _ same => ?_⟩
    · rw [Finished.ofProgress_failure]
      exact Finished.ofProgress_succeeded _
    · obtain rfl : graph = g := Except.ok.inj (Prod.ext_iff.1 same).1
      rw [Finished.ofProgress_failure, Finished.ofProgress_steps, Progress.log_behindEvent_entered,
        ← represents.entered]
      exact ⟨executed.tolerates, fun f failed => Finished.fails_of_executes executed failed⟩

/-- The second of two imports of one document fails, where the document failed. -/
theorem run_accounted_sample : ∃ finished f before fatal behind,
    Sample.runner.run 2 (.location Sample.entry.location) ∅ Sample.session = some finished ∧
      finished.result.failure = some f ∧
      f.callChain = [Sample.entry.location, Sample.leaf.location] ∧
      finished.Fails Sample.runner Sample.entry.location f before fatal behind := by
  have accounted := run_accounted Sample.runner 2 (.location Sample.entry.location) ∅ Sample.session _ rfl
  obtain ⟨before, fatal, behind, fails⟩ := (accounted.2.2 _ _ Sample.resolved).2 _ rfl
  exact ⟨_, _, before, fatal, behind, rfl, rfl, rfl, fails⟩

end WorkflowEngine.Runner
