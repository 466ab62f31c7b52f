import WorkflowEngine.Proofs.Run.Coverage

/-! What determines a run.

Along a graph, what actions answer is all that a run learns from outside. Two runs with the same answers
log the same and invoke the same actions with the same parameters, whatever became of the files.
-/

set_option autoImplicit false

namespace WorkflowEngine

namespace RunEvent

def invocations (events : List RunEvent) : List (String × Params) := events.filterMap invocation?

def answers (events : List RunEvent) : List (Except Error Bool) := events.filterMap answer?

@[simp]
theorem invocations_append (first second : List RunEvent) :
    invocations (first ++ second) = invocations first ++ invocations second := List.filterMap_append

@[simp]
theorem answers_append (first second : List RunEvent) :
    answers (first ++ second) = answers first ++ answers second := List.filterMap_append

end RunEvent

namespace Runner

variable {σ τ : Type}

/-- Two parts of runs log the same, invoke the same actions in the same way and fail the same. -/
structure Agrees (p : Progress σ) (q : Progress τ) : Prop where
  log : p.log = q.log
  invocations : RunEvent.invocations p.events = RunEvent.invocations q.events
  failure : p.failure = q.failure

theorem Agrees.append {p later : Progress σ} {q after : Progress τ} (first : Agrees p q)
    (second : Agrees later after) : Agrees (p.append later) (q.append after) where
  log := by rw [Progress.log_append, Progress.log_append, first.log, second.log]
  invocations := by
    simp only [Progress.append, RunEvent.invocations_append, first.invocations, second.invocations]
  failure := second.failure

theorem invocations_nestedProgress (frame : Frame) (stepIndex : Nat) (step : WorkflowStep)
    (s : Session σ) (child : Document) (inner : Progress σ) :
    RunEvent.invocations (nestedProgress frame stepIndex step s child inner).events =
      RunEvent.invocations inner.events := by
  simp [nestedProgress_events, RunEvent.invocations, RunEvent.invocation?, List.filterMap_cons]

theorem answers_nestedProgress (frame : Frame) (stepIndex : Nat) (step : WorkflowStep)
    (s : Session σ) (child : Document) (inner : Progress σ) :
    RunEvent.answers (nestedProgress frame stepIndex step s child inner).events =
      RunEvent.answers inner.events := by
  simp [nestedProgress_events, RunEvent.answers, RunEvent.answer?, List.filterMap_cons]

theorem Agrees.nested {inner : Progress σ} {other : Progress τ} (agrees : Agrees inner other)
    (frame : Frame) (stepIndex : Nat) (step : WorkflowStep) (s : Session σ) (t : Session τ)
    (child : Document) :
    Agrees (nestedProgress frame stepIndex step s child inner)
      (nestedProgress frame stepIndex step t child other) where
  log := by rw [log_nestedProgress, log_nestedProgress, agrees.log, agrees.failure]
  invocations := by
    rw [invocations_nestedProgress, invocations_nestedProgress, agrees.invocations]
  failure := agrees.failure

@[simp]
theorem invocations_invocationEvents (action : String) (params : Params) (reply : Reply σ) :
    RunEvent.invocations (invocationEvents action params reply) = [(action, params)] := by
  simp [invocationEvents, RunEvent.invocations, RunEvent.invocation?]

@[simp]
theorem answers_invocationEvents (action : String) (params : Params) (reply : Reply σ) :
    RunEvent.answers (invocationEvents action params reply) = [reply.verdict] := by
  simp [invocationEvents, RunEvent.answers, RunEvent.answer?]

variable {r : Runner σ} {other : Runner τ}

@[simp]
theorem invocations_answeredPause (o : StepOutcome) (step : ActionStep) (answer : Except Error Bool) :
    RunEvent.invocations (.logged o :: answeredPause r step answer) = [] := by
  unfold answeredPause pauseEvents
  split
  · split <;> rfl
  · rfl

@[simp]
theorem answers_answeredPause (o : StepOutcome) (step : ActionStep) (answer : Except Error Bool) :
    RunEvent.answers (.logged o :: answeredPause r step answer) = [] := by
  unfold answeredPause pauseEvents
  split
  · split <;> rfl
  · rfl

theorem Acts.agrees {frame : Frame} {stepIndex : Nat} {step : ActionStep} {s : Session σ}
    {t : Session τ} {p : Progress σ} {q : Progress τ} {x y : List (Except Error Bool)}
    (left : Acts r frame stepIndex step s p) (right : Acts other frame stepIndex step t q)
    (alike : ∀ name, (r.registry.find? name).isSome = (other.registry.find? name).isSome)
    (answers : RunEvent.answers p.events ++ x = RunEvent.answers q.events ++ y) :
    Agrees p q ∧ x = y := by
  have same := alike step.action
  cases left with
  | unregistered missing =>
    cases right with
    | unregistered => exact ⟨⟨rfl, rfl, rfl⟩, answers⟩
    | answered registered => simp [missing, registered] at same
  | answered registered =>
    cases right with
    | unregistered missing => simp [missing, registered] at same
    | answered =>
      simp only [RunEvent.answers_append, answers_invocationEvents, answers_answeredPause,
        List.append_nil, List.singleton_append, List.cons.injEq] at answers
      obtain ⟨answer, rest⟩ := answers
      refine ⟨⟨?_, ?_, ?_⟩, rest⟩
      · simp [Progress.log, answer]
      · simp
      · simp [answer]

theorem Ready.nested_of_executes {S : Sources} {g : ImportGraph} {frame : Frame} {stepIndex : Nat}
    {step : WorkflowStep} {rest : List Step} {s : Session σ} {p : Progress σ} {d child : Document}
    (ready : Ready r S g frame d s) (found : d.steps[stepIndex]? = some (.workflow step))
    (leads : g.Leads frame.location stepIndex child.location child)
    (executed : Executes r frame stepIndex (.workflow step :: rest) s p) :
    ∃ inner, Ready r S g (frame.inside step child) child s ∧
      Executes r (frame.inside step child) 0 child.steps s inner ∧
      ((∃ failure, inner.failure = some failure) ∧
          p = nestedProgress frame stepIndex step s child inner ∨
        inner.failure = none ∧ ∃ later, Executes r frame (stepIndex + 1) rest inner.session later ∧
          p = (nestedProgress frame stepIndex step s child inner).append later) := by
  cases executed with
  | refused refused => exact absurd refused (ready.not_refused found)
  | nested opening runs passed behind =>
    obtain ⟨same, _, rfl, inside⟩ := ready.opened found opening
    obtain ⟨_, rfl⟩ := leads.unique same.recorded same.document
    exact ⟨_, inside, runs, .inr ⟨passed, _, behind, rfl⟩⟩
  | nestedFailed opening runs failed =>
    obtain ⟨same, _, rfl, inside⟩ := ready.opened found opening
    obtain ⟨_, rfl⟩ := leads.unique same.recorded same.document
    exact ⟨_, inside, runs, .inl ⟨⟨_, failed⟩, rfl⟩⟩

theorem Executes.agrees {S T : Sources} {g : ImportGraph} {frame : Frame} {stepIndex : Nat}
    {steps : List Step} {s : Session σ} {t : Session τ} {p : Progress σ} {q : Progress τ}
    {d : Document} {x y : List (Except Error Bool)}
    (left : Executes r frame stepIndex steps s p) (right : Executes other frame stepIndex steps t q)
    (alike : ∀ name, (r.registry.find? name).isSome = (other.registry.find? name).isSome)
    (ready : Ready r S g frame d s) (prepared : Ready other T g frame d t)
    (ahead : d.steps.drop stepIndex = steps)
    (answers : RunEvent.answers p.events ++ x = RunEvent.answers q.events ++ y) :
    Agrees p q ∧ x = y := by
  induction left generalizing t q d x y with
  | done =>
    cases right
    exact ⟨⟨rfl, rfl, rfl⟩, answers⟩
  | action acts clean _ ih =>
    cases right with
    | action again _ behind =>
      simp only [Progress.append, RunEvent.answers_append, List.append_assoc] at answers
      obtain ⟨first, answers⟩ := acts.agrees again alike answers
      have kept := (acts.accords (g := g) ready.keeps).kept
      have held := (again.accords (g := g) prepared.keeps).kept
      obtain ⟨later, rest⟩ := ih behind (ready.move kept) (prepared.move held)
        (Document.drop_succ ahead) answers
      exact ⟨first.append later, rest⟩
    | actionFailed again failed =>
      simp only [Progress.append, RunEvent.answers_append, List.append_assoc] at answers
      obtain ⟨first, _⟩ := acts.agrees again alike answers
      cases clean.symm.trans (first.failure.trans failed)
  | actionFailed acts failed =>
    cases right with
    | action again clean _ =>
      simp only [Progress.append, RunEvent.answers_append, List.append_assoc] at answers
      obtain ⟨first, _⟩ := acts.agrees again alike answers
      cases failed.symm.trans (first.failure.trans clean)
    | actionFailed again _ => exact acts.agrees again alike answers
  | refused refused => exact absurd refused (ready.not_refused (Document.getElem?_of_drop ahead))
  | @nested frame stepIndex step _ s child _ _ _ opening executed clean _ ihInner ihLater =>
    have found := Document.getElem?_of_drop ahead
    obtain ⟨leads, _, rfl, inside⟩ := ready.opened found opening
    obtain ⟨outer, within, runs, ⟨⟨_, failed⟩, rfl⟩ | ⟨_, after, behind, rfl⟩⟩ :=
      prepared.nested_of_executes found leads right
    · simp only [Progress.append, RunEvent.answers_append, answers_nestedProgress,
        List.append_assoc] at answers
      obtain ⟨below, _⟩ := ihInner runs inside within rfl answers
      cases clean.symm.trans (below.failure.trans failed)
    · simp only [Progress.append, RunEvent.answers_append, answers_nestedProgress,
        List.append_assoc] at answers
      -- Each run takes its first answers inside, and what is left of them is for the steps behind.
      obtain ⟨below, answers⟩ := ihInner runs inside within rfl answers
      have kept := (executed.accords inside rfl).kept
      have held := (runs.accords within rfl).kept
      obtain ⟨later, rest⟩ := ihLater behind (ready.move kept) (prepared.move held)
        (Document.drop_succ ahead) answers
      exact ⟨(below.nested frame stepIndex step s t child).append later, rest⟩
  | @nestedFailed frame stepIndex step _ s child _ _ _ opening _ failed ih =>
    have found := Document.getElem?_of_drop ahead
    obtain ⟨leads, _, rfl, inside⟩ := ready.opened found opening
    obtain ⟨outer, within, runs, ⟨_, rfl⟩ | ⟨clean, after, behind, rfl⟩⟩ :=
      prepared.nested_of_executes found leads right
    · rw [answers_nestedProgress, answers_nestedProgress] at answers
      obtain ⟨below, rest⟩ := ih runs inside within rfl answers
      exact ⟨below.nested frame stepIndex step s t child, rest⟩
    · simp only [Progress.append, RunEvent.answers_append, answers_nestedProgress,
        List.append_assoc] at answers
      obtain ⟨below, _⟩ := ih runs inside within rfl answers
      cases failed.symm.trans (below.failure.trans clean)

end Runner

end WorkflowEngine
