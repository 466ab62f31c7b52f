import WorkflowEngine.Proofs.Graph.Representation
import WorkflowEngine.Run

/-! How a run goes.

The steps of a frame are taken in order, up to the first one that ends the run. What a step can come to is
said once, free of the budget; a budget only decides whether there is an answer, and a larger one gives
the same. At the end stands a runner whose one action deletes what it can, for the statements about runs.
-/

set_option autoImplicit false

namespace WorkflowEngine

@[simp]
theorem RunEvent.log_append (first second : List RunEvent) :
    log (first ++ second) = log first ++ log second := List.filterMap_append

@[simp]
theorem RunEvent.log_cons_logged (o : StepOutcome) (events : List RunEvent) :
    log (.logged o :: events) = o :: log events := rfl

namespace Progress

variable {σ : Type}

@[simp]
theorem log_append (first second : Progress σ) :
    (first.append second).log = first.log ++ second.log := RunEvent.log_append _ _

@[simp]
theorem log_behindEvent_entered (frame : Frame) (d : Document) (p : Progress σ) :
    (p.behindEvent (.entered frame d)).log = p.log := rfl

theorem andThen_eq_some {first p : Progress σ} {next : Session σ → Option (Progress σ)} :
    first.andThen next = some p ↔
      (∃ failure, first.failure = some failure ∧ p = first) ∨
        first.failure = none ∧ ∃ second, next first.session = some second ∧ p = first.append second := by
  unfold andThen
  cases first.failure with
  | some failure => simp [eq_comm]
  | none =>
    simp only [Option.map_eq_some_iff, reduceCtorEq, false_and, exists_false, true_and, false_or]
    exact ⟨fun ⟨second, ran, same⟩ => ⟨second, ran, same.symm⟩,
      fun ⟨second, ran, same⟩ => ⟨second, ran, same.symm⟩⟩

end Progress

theorem Document.getElem?_of_drop {d : Document} {stepIndex : Nat} {step : Step} {rest : List Step}
    (ahead : d.steps.drop stepIndex = step :: rest) : d.steps[stepIndex]? = some step := by
  rw [← List.head?_drop, ahead]
  rfl

theorem Document.drop_succ {d : Document} {stepIndex : Nat} {step : Step} {rest : List Step}
    (ahead : d.steps.drop stepIndex = step :: rest) : d.steps.drop (stepIndex + 1) = rest := by
  rw [← List.tail_drop, ahead]
  rfl

def Frame.inside (f : Frame) (step : WorkflowStep) (d : Document) : Frame :=
  .enter f.chain d (f.params.forWorkflow step.params)

theorem Frame.depth_of_chain {f inner : Frame} {l : Location} (chain : inner.chain = f.chain ++ [l])
    (opened : f.chain ≠ []) : inner.depth = f.depth + 1 := by
  have some_open := List.length_pos_iff.2 opened
  simp only [depth, chain, List.length_append, List.length_singleton]
  omega

namespace Runner

variable {σ : Type} {r : Runner σ}

@[simp]
theorem log_invocationEvents (action : String) (params : Params) (reply : Reply σ) :
    RunEvent.log (invocationEvents action params reply) = [] := by
  simp [RunEvent.log, invocationEvents, RunEvent.outcome?]

@[simp]
theorem log_pauseEvents (duration : Nanoseconds) : RunEvent.log (pauseEvents duration) = [] := by
  unfold pauseEvents
  split <;> rfl

def answeredOutcome (frame : Frame) (stepIndex : Nat) (step : ActionStep)
    (answer : Except Error Bool) : StepOutcome :=
  let outcome := frame.outcome stepIndex (.action step.action) step.optional
  match actionError step.action answer with
  | none => outcome
  | some error => outcome.failed error

def answeredFailure (frame : Frame) (stepIndex : Nat) (step : ActionStep)
    (answer : Except Error Bool) : Option RunFailure :=
  match actionError step.action answer with
  | none => none
  | some error => if step.optional then none else some (frame.failure stepIndex error)

def answeredPause (r : Runner σ) (step : ActionStep) (answer : Except Error Bool) : List RunEvent :=
  match actionError step.action answer with
  | none => pauseEvents (r.pauseAfter step)
  | some _ => []

@[simp]
theorem log_answeredPause (step : ActionStep) (answer : Except Error Bool) :
    RunEvent.log (answeredPause r step answer) = [] := by
  unfold answeredPause
  split
  · exact log_pauseEvents _
  · rfl

section Answered

variable {frame : Frame} {stepIndex : Nat} {step : ActionStep} {answer : Except Error Bool}

theorem optional_of_answeredFailure (passed : answeredFailure frame stepIndex step answer = none)
    (failed : (answeredOutcome frame stepIndex step answer).succeeded = false) :
    step.optional = true := by
  unfold answeredFailure at passed
  unfold answeredOutcome at failed
  cases answered : actionError step.action answer with
  | none => simp [answered, Frame.outcome] at failed
  | some error => simpa [answered] using passed

theorem answeredFailure_eq_some {f : RunFailure}
    (failed : answeredFailure frame stepIndex step answer = some f) :
    ∃ error, actionError step.action answer = some error ∧
      answeredOutcome frame stepIndex step answer =
        (frame.outcome stepIndex (.action step.action) step.optional).failed error ∧
      answeredPause r step answer = [] ∧ f = frame.failure stepIndex error := by
  unfold answeredFailure at failed
  unfold answeredOutcome answeredPause
  cases answered : actionError step.action answer with
  | none => simp [answered] at failed
  | some error =>
    simp only [answered] at failed
    split at failed
    · cases failed
    · exact ⟨error, rfl, rfl, rfl, (Option.some.inj failed).symm⟩

end Answered

/-- What an action step comes to: its name is not registered, or the action answers. -/
inductive Acts (r : Runner σ) (frame : Frame) (stepIndex : Nat) (step : ActionStep) (s : Session σ) :
    Progress σ → Prop
  | unregistered :
      r.registry.find? step.action = none →
      Acts r frame stepIndex step s
        ⟨[.logged ((frame.outcome stepIndex (.action step.action) step.optional).failed
            (.unknownAction step.action))],
          s, some (frame.failure stepIndex (.unknownAction step.action))⟩
  | answered {action : Action σ} {reply : Reply σ} :
      r.registry.find? step.action = some action →
      action (frame.params.forAction step.params) s.host = reply →
      Acts r frame stepIndex step s
        ⟨invocationEvents step.action (frame.params.forAction step.params) reply ++
            .logged (answeredOutcome frame stepIndex step reply.verdict) ::
              answeredPause r step reply.verdict,
          afterReply s reply, answeredFailure frame stepIndex step reply.verdict⟩

theorem acts_runAction (frame : Frame) (stepIndex : Nat) (step : ActionStep) (s : Session σ) :
    Acts r frame stepIndex step s (r.runAction frame stepIndex step s) := by
  cases registered : r.registry.find? step.action with
  | none =>
    simp only [runAction, registered]
    exact .unregistered registered
  | some action =>
    have acts := @Acts.answered σ r frame stepIndex step s action _ registered rfl
    unfold answeredOutcome answeredPause answeredFailure at acts
    simp only [runAction, registered]
    cases answered : actionError step.action
        (action (frame.params.forAction step.params) s.host).verdict with
    | none => simpa only [answered] using acts
    | some error => simpa only [answered] using acts

theorem openImport_eq_opened {frame : Frame} {step : WorkflowStep} {s : Session σ}
    {target : Location} {d : Document} {cache : Cache}
    (opening : r.openImport frame step s = .opened target d cache) :
    r.resolver.importTarget s.host.files frame.location step = .ok target ∧
      target ∉ frame.chain ∧ s.cache.load s.host.files target = (.ok d, cache) ∧
      d.location = target := by
  unfold openImport at opening
  split at opening
  · cases opening
  · rename_i means
    split at opening
    · cases opening
    · rename_i fresh
      split at opening
      · cases opening
      · rename_i loaded
        cases opening
        have read : s.cache.document s.host.files target = .ok d := by
          rw [← Cache.load_fst, loaded]
        exact ⟨means, by simpa using fresh, loaded, Cache.location_of_document read⟩

def nestedProgress (frame : Frame) (stepIndex : Nat) (step : WorkflowStep) (s : Session σ)
    (child : Document) (inner : Progress σ) : Progress σ :=
  closeNested frame stepIndex step s child.location
    (inner.behindEvent (.entered (frame.inside step child) child))

section Nested

variable (frame : Frame) (stepIndex : Nat) (step : WorkflowStep) (s : Session σ) (child : Document)
  (inner : Progress σ)

theorem nestedProgress_events :
    (nestedProgress frame stepIndex step s child inner).events =
      [.importing frame stepIndex step s.host.files s.cache,
        .entered (frame.inside step child) child] ++
      (inner.events ++
        [.logged (nestedOutcome frame stepIndex step child.location inner.failure)]) := rfl

@[simp]
theorem log_nestedProgress :
    (nestedProgress frame stepIndex step s child inner).log =
      inner.log ++ [nestedOutcome frame stepIndex step child.location inner.failure] :=
  RunEvent.log_append inner.events _

end Nested

/-- Steps of a frame are run in order, the first of them with an index, up to the first that fails. -/
inductive Executes (r : Runner σ) : Frame → Nat → List Step → Session σ → Progress σ → Prop
  | done {frame : Frame} {stepIndex : Nat} {s : Session σ} :
      Executes r frame stepIndex [] s (.start s)
  | action {frame : Frame} {stepIndex : Nat} {step : ActionStep} {rest : List Step} {s : Session σ}
      {first later : Progress σ} :
      Acts r frame stepIndex step s first → first.failure = none →
      Executes r frame (stepIndex + 1) rest first.session later →
      Executes r frame stepIndex (.action step :: rest) s (first.append later)
  | actionFailed {frame : Frame} {stepIndex : Nat} {step : ActionStep} {rest : List Step}
      {s : Session σ} {first : Progress σ} {failure : RunFailure} :
      Acts r frame stepIndex step s first → first.failure = some failure →
      Executes r frame stepIndex (.action step :: rest) s first
  | refused {frame : Frame} {stepIndex : Nat} {step : WorkflowStep} {rest : List Step}
      {s : Session σ} {target : Option Location} {error : Error} {cache : Cache} :
      r.openImport frame step s = .refused target error cache →
      Executes r frame stepIndex (.workflow step :: rest) s
        (refuseNested frame stepIndex step s target error cache)
  | nested {frame : Frame} {stepIndex : Nat} {step : WorkflowStep} {rest : List Step}
      {s : Session σ} {child : Document} {cache : Cache} {inner later : Progress σ} :
      r.openImport frame step s = .opened child.location child cache →
      Executes r (frame.inside step child) 0 child.steps { s with cache } inner →
      inner.failure = none →
      Executes r frame (stepIndex + 1) rest inner.session later →
      Executes r frame stepIndex (.workflow step :: rest) s
        ((nestedProgress frame stepIndex step s child inner).append later)
  | nestedFailed {frame : Frame} {stepIndex : Nat} {step : WorkflowStep} {rest : List Step}
      {s : Session σ} {child : Document} {cache : Cache} {inner : Progress σ}
      {failure : RunFailure} :
      r.openImport frame step s = .opened child.location child cache →
      Executes r (frame.inside step child) 0 child.steps { s with cache } inner →
      inner.failure = some failure →
      Executes r frame stepIndex (.workflow step :: rest) s
        (nestedProgress frame stepIndex step s child inner)

section Unique

variable {frame : Frame} {stepIndex : Nat} {s : Session σ} {p q : Progress σ}

theorem Acts.unique {step : ActionStep} (acts : Acts r frame stepIndex step s p)
    (again : Acts r frame stepIndex step s q) : p = q := by
  cases acts with
  | unregistered missing =>
    cases again with
    | unregistered => rfl
    | answered registered => cases missing.symm.trans registered
  | answered registered replied =>
    cases again with
    | unregistered missing => cases missing.symm.trans registered
    | answered same reply =>
      obtain rfl := Option.some.inj (registered.symm.trans same)
      obtain rfl := replied.symm.trans reply
      rfl

theorem Executes.unique {steps : List Step} (executed : Executes r frame stepIndex steps s p)
    (again : Executes r frame stepIndex steps s q) : p = q := by
  -- The other run takes the same case, or an action or an import would come to two things.
  induction executed generalizing q with
  | done =>
    cases again
    rfl
  | action acts passed _ ih =>
    cases again with
    | action same _ behind =>
      obtain rfl := acts.unique same
      rw [ih behind]
    | actionFailed same failed =>
      obtain rfl := acts.unique same
      cases passed.symm.trans failed
  | actionFailed acts failed =>
    cases again with
    | action same passed =>
      obtain rfl := acts.unique same
      cases passed.symm.trans failed
    | actionFailed same => exact acts.unique same
  | refused refused =>
    cases again with
    | refused same =>
      obtain ⟨rfl, rfl, rfl⟩ := Opening.refused.inj (refused.symm.trans same)
      rfl
    | nested opening => cases refused.symm.trans opening
    | nestedFailed opening => cases refused.symm.trans opening
  | nested opening _ passed _ ihInner ihLater =>
    cases again with
    | refused refused => cases opening.symm.trans refused
    | nested same inside _ behind =>
      obtain ⟨_, rfl, rfl⟩ := Opening.opened.inj (opening.symm.trans same)
      obtain rfl := ihInner inside
      rw [ihLater behind]
    | nestedFailed same inside failed =>
      obtain ⟨_, rfl, rfl⟩ := Opening.opened.inj (opening.symm.trans same)
      obtain rfl := ihInner inside
      cases passed.symm.trans failed
  | nestedFailed opening _ failed ih =>
    cases again with
    | refused refused => cases opening.symm.trans refused
    | nested same inside passed =>
      obtain ⟨_, rfl, rfl⟩ := Opening.opened.inj (opening.symm.trans same)
      obtain rfl := ih inside
      cases passed.symm.trans failed
    | nestedFailed same inside =>
      obtain ⟨_, rfl, rfl⟩ := Opening.opened.inj (opening.symm.trans same)
      obtain rfl := ih inside
      rfl

end Unique

section Budget

variable {enter further : List Location → Document → Params → Session σ → Option (Progress σ)}

theorem executes_of_runSteps
    (enters : ∀ above d called s p, enter above d called s = some p →
      ∃ inner, Executes r (.enter above d called) 0 d.steps s inner ∧
        p = inner.behindEvent (.entered (.enter above d called) d))
    {frame : Frame} {stepIndex : Nat} {steps : List Step} {s : Session σ} {p : Progress σ}
    (ran : r.runSteps enter frame stepIndex steps s = some p) :
    Executes r frame stepIndex steps s p := by
  induction steps generalizing stepIndex s p with
  | nil =>
    cases ran
    exact .done
  | cons step rest ih =>
    unfold runSteps at ran
    cases step with
    | action step =>
      have acts := acts_runAction (r := r) frame stepIndex step s
      simp only [runStep] at ran
      rcases Progress.andThen_eq_some.1 ran with ⟨failure, failed, rfl⟩ | ⟨passed, later, behind, rfl⟩
      · exact .actionFailed acts failed
      · exact .action acts passed (ih behind)
    | workflow step =>
      cases opening : r.openImport frame step s with
      | refused target error cache =>
        simp only [runStep, runNested, opening] at ran
        cases ran
        exact .refused opening
      | opened target child cache =>
        obtain ⟨_, _, _, rfl⟩ := openImport_eq_opened opening
        simp only [runStep, runNested, opening] at ran
        cases entered : enter frame.chain child (frame.params.forWorkflow step.params)
            { s with cache } with
        | none => simp [entered] at ran
        | some below =>
          obtain ⟨inner, executed, rfl⟩ := enters _ _ _ _ _ entered
          simp only [entered, Option.map_some] at ran
          rcases Progress.andThen_eq_some.1 ran with ⟨failure, failed, rfl⟩ | ⟨passed, later, behind, rfl⟩
          · exact .nestedFailed opening executed failed
          · exact .nested opening executed passed (ih behind)

theorem runSteps_mono
    (same : ∀ above d called s p, enter above d called s = some p →
      further above d called s = some p)
    {frame : Frame} {stepIndex : Nat} {steps : List Step} {s : Session σ} {p : Progress σ}
    (ran : r.runSteps enter frame stepIndex steps s = some p) :
    r.runSteps further frame stepIndex steps s = some p := by
  induction steps generalizing stepIndex s p with
  | nil => exact ran
  | cons step rest ih =>
    unfold runSteps at ran ⊢
    cases first : r.runStep enter frame stepIndex step s with
    | none => simp [first] at ran
    | some early =>
      -- The two ways to enter a document agree where the first one comes to an end.
      have again : r.runStep further frame stepIndex step s = some early := by
        cases step with
        | action step => exact first
        | workflow step =>
          unfold runStep runNested at first ⊢
          cases opening : r.openImport frame step s with
          | refused target error cache => simpa only [opening] using first
          | opened target child cache =>
            simp only [opening] at first ⊢
            obtain ⟨below, entered, rfl⟩ := Option.map_eq_some_iff.1 first
            rw [same _ _ _ _ _ entered]
            rfl
      simp only [first] at ran
      simp only [again]
      refine Progress.andThen_eq_some.2 ?_
      rcases Progress.andThen_eq_some.1 ran with stopped | ⟨passed, later, behind, rfl⟩
      · exact .inl stopped
      · exact .inr ⟨passed, later, ih behind, rfl⟩

end Budget

theorem executes_of_runDocument {budget : Nat} {above : List Location} {d : Document}
    {called : Params} {s : Session σ} {p : Progress σ}
    (ran : r.runDocument budget above d called s = some p) :
    ∃ inner, Executes r (.enter above d called) 0 d.steps s inner ∧
      p = inner.behindEvent (.entered (.enter above d called) d) := by
  induction budget generalizing above d called s p with
  | zero => cases ran
  | succ budget ih =>
    obtain ⟨inner, stepped, rfl⟩ := Option.map_eq_some_iff.1 ran
    exact ⟨inner, executes_of_runSteps (fun _ _ _ _ _ => ih) stepped, rfl⟩

theorem runDocument_mono {budget more : Nat} (le : budget ≤ more) {above : List Location}
    {d : Document} {called : Params} {s : Session σ} {p : Progress σ}
    (ran : r.runDocument budget above d called s = some p) :
    r.runDocument more above d called s = some p := by
  induction budget generalizing more above d called s p with
  | zero => cases ran
  | succ budget ih =>
    obtain ⟨inner, stepped, rfl⟩ := Option.map_eq_some_iff.1 ran
    cases more with
    | zero => cases le
    | succ more =>
      have again := runSteps_mono (fun _ _ _ _ _ => ih (Nat.le_of_succ_le_succ le)) stepped
      exact Option.map_eq_some_iff.2 ⟨inner, again, rfl⟩

namespace Finished

@[simp]
theorem ofProgress_steps (p : Progress σ) : (ofProgress p).result.steps = p.log := by
  unfold ofProgress
  cases p.failure <;> rfl

@[simp]
theorem ofProgress_failure (p : Progress σ) : (ofProgress p).result.failure = p.failure := by
  unfold ofProgress
  cases p.failure <;> rfl

theorem ofProgress_succeeded (p : Progress σ) :
    (ofProgress p).result.succeeded = true ↔ p.failure = none := by
  unfold ofProgress
  cases p.failure <;> simp [RunResult.completed, RunResult.failed]

end Finished

theorem run_eq (r : Runner σ) (budget : Nat) (target : Target) (params : Params) (s : Session σ) :
    r.run budget target params s =
      match r.resolver.resolveTargetGraph s.host.files s.cache target with
      | (.error failure, cache) => some (.refused (.ofGraph failure) { s with cache })
      | (.ok graph, cache) =>
        (r.runDocument budget [] graph.entryDocument params { s with cache }).map .ofProgress := by
  unfold run Resolver.resolveTargetGraph
  cases r.resolver.resolveTarget s.host.files target with
  | error e => rfl
  | ok entry => rfl

theorem run_mono {budget more : Nat} (le : budget ≤ more) {target : Target} {params : Params}
    {s : Session σ} {finished : Finished σ} (ran : r.run budget target params s = some finished) :
    r.run more target params s = some finished := by
  rw [run_eq] at ran ⊢
  generalize r.resolver.resolveTargetGraph s.host.files s.cache target = resolved at ran ⊢
  obtain ⟨graph | graph, cache⟩ := resolved
  · exact ran
  · obtain ⟨p, began, rfl⟩ := Option.map_eq_some_iff.1 ran
    exact Option.map_eq_some_iff.2 ⟨p, runDocument_mono le began, rfl⟩

theorem run_unique {budget other : Nat} {target : Target} {params : Params} {s : Session σ}
    {first second : Finished σ} (ran : r.run budget target params s = some first)
    (again : r.run other target params s = some second) : first = second := by
  have both := (run_mono (Nat.le_max_left budget other) ran).symm.trans
    (run_mono (Nat.le_max_right budget other) again)
  exact Option.some.inj both

end Runner

namespace Sample

/-- Delete all files, and fail if there are none. -/
def wipe : Action Unit := fun _ host => ⟨.ok !host.files.entries.isEmpty, ⟨.empty, ()⟩, false, []⟩

def runner : Runner Unit where
  resolver := resolver
  registry := Registry.empty.register "wipe" wipe
  defaultPause := 0

/-- Both documents have been read, and one of their files has been overwritten since. -/
def session : Session Unit where
  host := ⟨⟨(∅ : Dictionary Location Entry).insert leaf.location (.file .binary), .top⟩, ()⟩
  cache := cache

theorem resolved : runner.resolver.resolveTargetGraph session.host.files session.cache
    (.location entry.location) = (.ok graph, session.cache) := rfl

end Sample

end WorkflowEngine
