import WorkflowEngine.Proofs.Graph.Rejection
import WorkflowEngine.Proofs.Run.Determinacy

/-! Which actions a run invokes.

A result lists the name of each action that was invoked, in order and as often as it was. Behind these names
it may list one more: a name that no action is registered under, where the step that asks for it ends the run.
-/

set_option autoImplicit false

namespace WorkflowEngine

/-- The name that no action is registered under, if this is the error. -/
def Error.unregistered? : Error → Option String
  | .unknownAction name => some name
  | _ => none

theorem Error.ConcernsDocument.unregistered? {l : Location} {e : Error}
    (concerns : e.ConcernsDocument l) : e.unregistered? = none := by
  cases e with
  | unknownAction => exact concerns.elim
  | _ => rfl

theorem Sources.Blames.unregistered? {S : Sources} {chain : List Location} {w : Location}
    {step : WorkflowStep} {e : Error} (blames : S.Blames chain w step e) : e.unregistered? = none := by
  cases blames with
  | unresolved => rfl
  | unloaded _ _ concerns => exact concerns.unregistered?
  | cyclic => rfl

def RunFailure.unregistered? (f : RunFailure) : Option String := f.error.unregistered?

def StepOutcome.action? (o : StepOutcome) : Option String :=
  match o.target with
  | .action name => some name
  | .workflow _ _ => none

theorem RunResult.actionsInvoked_eq (r : RunResult) :
    r.actionsInvoked = r.steps.filterMap StepOutcome.action? := rfl

def RunEvent.invokedNames (events : List RunEvent) : List String :=
  (invocations events).map Prod.fst

@[simp]
theorem RunEvent.invokedNames_append (first second : List RunEvent) :
    invokedNames (first ++ second) = invokedNames first ++ invokedNames second := by
  simp [invokedNames]

/-- Every action of a registry enters its name and its parameters in a record that the host keeps. -/
def Registry.Records {σ : Type} (r : Registry σ) (record : σ → List (String × Params)) : Prop :=
  ∀ name action, r.find? name = some action → ∀ params host,
    record (action params host).host.state = record host.state ++ [(name, params)]

namespace Resolver

variable {r : Resolver} {fs : FileSystem} {e : Error}

theorem unregistered?_of_confine {reference : String} {l : Location}
    (outside : r.confine reference l = .error e) : e.unregistered? = none := by
  unfold confine at outside
  split at outside
  · cases outside
    rfl
  · cases outside

theorem unregistered?_of_resolve {reference : Reference} {directory : Path}
    (failed : r.resolve fs reference directory = .error e) : e.unregistered? = none := by
  obtain ⟨_, rfl⟩ := unresolved_of_resolve failed
  rfl

theorem unregistered?_of_resolveTarget {target : Target}
    (failed : r.resolveTarget fs target = .error e) : e.unregistered? = none := by
  unfold resolveTarget at failed
  split at failed
  · exact unregistered?_of_confine failed
  · split at failed
    · exact unregistered?_of_confine failed
    · exact unregistered?_of_resolve failed

theorem unregistered?_of_resolveGraph {cache after : Cache} {entry : Location} {failure : GraphFailure}
    (rejected : r.resolveGraph fs cache entry = (.error failure, after)) :
    failure.error.unregistered? = none := by
  cases read : cache.document fs entry with
  | error e =>
    simp only [resolveGraph, Cache.load_of_document_error read] at rejected
    cases rejected
    exact (Cache.concernsDocument_of_document read).unregistered?
  | ok d =>
    rcases explores_or_rejects (r := r) read with ⟨_, _, found⟩ | ⟨_, _, rejects, failed⟩
    · cases rejected.symm.trans found
    · cases rejected.symm.trans failed
      obtain ⟨_, _, witnesses⟩ := rejects.witnesses (r.explained_sources fs cache)
        (Sources.opened_entry read) rfl read fun _ => id
      obtain ⟨_, _, _, _, blames⟩ := witnesses.blames
      exact blames.unregistered?

/-- That an action is not registered is never found out before the run. -/
theorem unregistered?_of_resolveTargetGraph {cache after : Cache} {target : Target}
    {failure : GraphFailure}
    (rejected : r.resolveTargetGraph fs cache target = (.error failure, after)) :
    failure.error.unregistered? = none := by
  unfold resolveTargetGraph at rejected
  split at rejected
  · rename_i unresolved
    cases rejected
    exact unregistered?_of_resolveTarget unresolved
  · exact unregistered?_of_resolveGraph rejected

end Resolver

namespace Runner

variable {σ : Type} {r : Runner σ} {s : Session σ}

theorem unregistered?_of_refused {frame : Frame} {step : WorkflowStep} {meant : Option Location}
    {error : Error} {cache : Cache} (refused : r.openImport frame step s = .refused meant error cache) :
    error.unregistered? = none := by
  unfold openImport at refused
  split at refused
  · rename_i unresolved
    cases refused
    exact Resolver.unregistered?_of_resolve unresolved
  · rename_i target _
    split at refused
    · cases refused
      rfl
    · split at refused
      · rename_i unloaded
        cases refused
        have unread := Cache.load_fst s.cache s.host.files target
        rw [unloaded] at unread
        exact (Cache.concernsDocument_of_document unread.symm).unregistered?
      · cases refused

/-- A part of a run lists what it invokes, and behind that the name that has ended it, if no action is
registered under it. -/
structure Lists (r : Runner σ) (s : Session σ) (p : Progress σ) : Prop where
  listed : p.log.filterMap StepOutcome.action? =
    RunEvent.invokedNames p.events ++ (p.failure.bind RunFailure.unregistered?).toList
  registered : ∀ name ∈ RunEvent.invokedNames p.events, ∃ action, r.registry.find? name = some action
  missing : ∀ name, p.failure.bind RunFailure.unregistered? = some name →
    r.registry.find? name = none
  recorded : ∀ record, r.registry.Records record →
    record p.session.host.state = record s.host.state ++ RunEvent.invocations p.events

theorem Lists.silent {p : Progress σ} (listed : p.log.filterMap StepOutcome.action? = [])
    (uninvoked : RunEvent.invocations p.events = [])
    (blameless : p.failure.bind RunFailure.unregistered? = none)
    (same : p.session.host = s.host) : Lists r s p where
  listed := by simp [listed, RunEvent.invokedNames, uninvoked, blameless]
  registered := by simp [RunEvent.invokedNames, uninvoked]
  missing := by simp [blameless]
  recorded := by simp [uninvoked, same]

theorem Lists.append {first later : Progress σ} (lists : Lists r s first)
    (passed : first.failure = none) (behind : Lists r first.session later) :
    Lists r s (first.append later) where
  listed := by
    rw [Progress.log_append, List.filterMap_append, lists.listed, behind.listed, passed]
    simp [Progress.append]
  registered name member := by
    rw [Progress.append, RunEvent.invokedNames_append] at member
    rcases List.mem_append.1 member with member | member
    · exact lists.registered name member
    · exact behind.registered name member
  missing := behind.missing
  recorded record records := by
    rw [Progress.append, RunEvent.invocations_append, ← List.append_assoc,
      ← lists.recorded record records]
    exact behind.recorded record records

theorem Lists.nested {inner : Progress σ} {cache : Cache} (lists : Lists r { s with cache } inner)
    (frame : Frame) (stepIndex : Nat) (step : WorkflowStep) (child : Document) :
    Lists r s (nestedProgress frame stepIndex step s child inner) := by
  have same := invocations_nestedProgress frame stepIndex step s child inner
  have invoked : RunEvent.invokedNames (nestedProgress frame stepIndex step s child inner).events =
      RunEvent.invokedNames inner.events := congrArg (List.map Prod.fst) same
  constructor
  case listed =>
    rw [log_nestedProgress, List.filterMap_append, lists.listed, invoked]
    cases failed : inner.failure <;>
      simp [nestedOutcome, nestedProgress, closeNested, Progress.behindEvent, failed,
        StepOutcome.action?, Frame.outcome, StepOutcome.failed]
  case registered =>
    rw [invoked]
    exact lists.registered
  case missing => exact lists.missing
  case recorded =>
    rw [same]
    exact lists.recorded

theorem action?_answeredOutcome (frame : Frame) (stepIndex : Nat) (step : ActionStep)
    (answer : Except Error Bool) :
    (answeredOutcome frame stepIndex step answer).action? = some step.action := by
  unfold answeredOutcome
  cases actionError step.action answer <;> rfl

/-- An action that answers may blame anything, but not that it is not registered. -/
theorem unregistered?_answeredFailure (frame : Frame) (stepIndex : Nat) (step : ActionStep)
    (answer : Except Error Bool) :
    (answeredFailure frame stepIndex step answer).bind RunFailure.unregistered? = none := by
  unfold answeredFailure
  cases answered : actionError step.action answer with
  | none => rfl
  | some error =>
    have own : error.unregistered? = none := by
      unfold actionError at answered
      split at answered <;> cases answered <;> rfl
    dsimp only
    -- An optional step blames nothing.
    split
    · rfl
    · exact own

theorem Acts.lists {frame : Frame} {stepIndex : Nat} {step : ActionStep} {p : Progress σ}
    (acts : Acts r frame stepIndex step s p) : Lists r s p := by
  cases acts with
  | unregistered missing =>
    constructor
    case listed => rfl
    case registered => simp [RunEvent.invokedNames, RunEvent.invocations, RunEvent.invocation?]
    case missing =>
      rintro name same
      obtain rfl : step.action = name := Option.some.inj same
      exact missing
    case recorded =>
      simp [RunEvent.invocations, RunEvent.invocation?]
  | @answered action reply registered replied =>
    subst replied
    have silent := unregistered?_answeredFailure frame stepIndex step
      (action (frame.params.forAction step.params) s.host).verdict
    constructor
    case listed =>
      rw [silent]
      simp [Progress.log, RunEvent.invokedNames, action?_answeredOutcome]
    case registered =>
      intro name member
      obtain rfl : name = step.action := by simpa [RunEvent.invokedNames] using member
      exact ⟨action, registered⟩
    case missing => simp [silent]
    case recorded =>
      intro record records
      simpa [afterReply] using records _ _ registered (frame.params.forAction step.params) s.host

theorem Executes.lists {frame : Frame} {stepIndex : Nat} {steps : List Step} {p : Progress σ}
    (executed : Executes r frame stepIndex steps s p) : Lists r s p := by
  induction executed with
  | done => exact .silent rfl rfl rfl rfl
  | action acts passed _ ih => exact acts.lists.append passed ih
  | actionFailed acts => exact acts.lists
  | refused refused =>
    exact .silent rfl rfl (unregistered?_of_refused refused) rfl
  | nested _ _ passed _ ihInner ihLater =>
    exact (ihInner.nested _ _ _ _).append passed ihLater
  | nestedFailed _ _ _ ih => exact ih.nested _ _ _ _

/-- A result lists every invocation of an action, in order. It lists at most one name more, that of a step
whose action is not registered and which has ended the run. -/
theorem run_actionsInvoked (r : Runner σ) (budget : Nat) (target : Target) (params : Params)
    (s : Session σ) (finished : Finished σ) (ran : r.run budget target params s = some finished) :
    finished.result.actionsInvoked = RunEvent.invokedNames finished.events ++
        (finished.result.failure.bind RunFailure.unregistered?).toList ∧
      (∀ name ∈ RunEvent.invokedNames finished.events,
        ∃ action, r.registry.find? name = some action) ∧
      (∀ name, finished.result.failure.bind RunFailure.unregistered? = some name →
        r.registry.find? name = none) ∧
      ∀ record, r.registry.Records record →
        record finished.session.host.state =
          record s.host.state ++ RunEvent.invocations finished.events := by
  rw [run_eq] at ran
  split at ran
  · rename_i failure cache rejected
    cases ran
    -- No graph fails because of an action.
    have blameless : (RunFailure.ofGraph failure).unregistered? = none :=
      Resolver.unregistered?_of_resolveTargetGraph rejected
    have lists : Lists r s ⟨[], { s with cache }, some (.ofGraph failure)⟩ :=
      .silent rfl rfl blameless rfl
    exact ⟨lists.listed, lists.registered, lists.missing, lists.recorded⟩
  · obtain ⟨p, began, rfl⟩ := Option.map_eq_some_iff.1 ran
    obtain ⟨inner, executed, rfl⟩ := executes_of_runDocument began
    have lists := executed.lists
    rw [RunResult.actionsInvoked_eq, Finished.ofProgress_steps, Finished.ofProgress_failure]
    exact ⟨lists.listed, lists.registered, lists.missing, lists.recorded⟩

end Runner

namespace Sample

def haunted : Document where
  location := ⟨["w", "h.y"]⟩
  description := none
  defaults := ∅
  steps := [.action ⟨"known", none, ∅, false, none⟩, .action ⟨"ghost", none, ∅, false, none⟩]

def recording (name : String) : Action (List (String × Params)) := fun params host =>
  ⟨.ok true, ⟨host.files, host.state ++ [(name, params)]⟩, false, []⟩

def recorder : Runner (List (String × Params)) where
  resolver := resolver
  registry := Registry.empty.register "known" (recording "known")
  defaultPause := 0

theorem records : recorder.registry.Records id := by
  intro name action found params host
  simp only [recorder, Registry.register, Registry.find?, Dictionary.find?_insert] at found
  split at found
  · rename_i same
    subst same
    cases found
    rfl
  · cases found

def unrecorded : Session (List (String × Params)) where
  host := ⟨.empty, []⟩
  cache := Cache.empty.insert haunted

end Sample

namespace Runner

/-- The action that there is leaves its record, the other one is only listed. -/
theorem run_actionsInvoked_sample : ∃ finished,
    Sample.recorder.run 1 (.location Sample.haunted.location) ∅ Sample.unrecorded = some finished ∧
      finished.result.actionsInvoked =
        RunEvent.invokedNames finished.events ++ ["ghost"] ∧
      Sample.recorder.registry.find? "ghost" = none ∧
      finished.session.host.state = RunEvent.invocations finished.events ∧
      finished.session.host.state = [("known", ∅)] := by
  obtain ⟨listed, _, missing, recorded⟩ := run_actionsInvoked Sample.recorder 1
    (.location Sample.haunted.location) ∅ Sample.unrecorded _ rfl
  exact ⟨_, rfl, listed, missing "ghost" rfl, recorded id Sample.records, rfl⟩

/-- Not everything that a result lists was invoked. -/
theorem actionsInvoked_uninvoked : ∃ finished,
    Sample.recorder.run 1 (.location Sample.haunted.location) ∅ Sample.unrecorded = some finished ∧
      finished.result.actionsInvoked = ["known", "ghost"] ∧
      RunEvent.invokedNames finished.events = ["known"] ∧
      finished.session.host.state = [("known", ∅)] := ⟨_, rfl, rfl, rfl, rfl⟩

end Runner

end WorkflowEngine
