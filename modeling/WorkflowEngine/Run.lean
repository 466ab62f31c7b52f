import WorkflowEngine.Action
import WorkflowEngine.Graph

/-! Runs.

A run goes through the steps of its entry document in order and enters imported documents as it meets
them. Each step that was tried leaves an entry in the log; an importing step's entry follows those of
the document it imports. The first failure that is not optional ends the run and is reported from
where it happened, while the importing steps around it are logged as failed.
-/

set_option autoImplicit false

namespace WorkflowEngine

inductive StepTarget where
  | action (name : String)
  /-- A reference, and the location that it means if it has one. -/
  | workflow (reference : Reference) (location : Option Location)
  deriving DecidableEq

def StepTarget.text : StepTarget → String
  | .action name => "action " ++ name
  | .workflow _ (some l) => "workflow " ++ l.text
  | .workflow reference none => "workflow " ++ reference.text

structure StepOutcome where
  workflow : Location
  stepIndex : Nat
  /-- The number of imports around the step. -/
  depth : Nat
  target : StepTarget
  succeeded : Bool
  optional : Bool
  error : Option Error
  deriving DecidableEq

def StepOutcome.failed (o : StepOutcome) (error : Error) : StepOutcome :=
  { o with succeeded := false, error := some error }

structure RunFailure where
  workflow : Option Location
  stepIndex : Option Nat
  callChain : List Location
  error : Error
  deriving DecidableEq

namespace RunFailure

def ofGraph (f : GraphFailure) : RunFailure where
  workflow := f.site.map ImportSite.workflow
  stepIndex := f.site.map ImportSite.stepIndex
  callChain := f.chain
  error := f.error

def message (f : RunFailure) : String :=
  match f.workflow, f.stepIndex with
  | some workflow, some index => "step " ++ String.ofList (Nat.toDigits 10 index) ++ " of " ++
      workflow.text ++ ": " ++ f.error.message
  | some workflow, none => workflow.text ++ ": " ++ f.error.message
  | none, _ => f.error.message

end RunFailure

structure RunResult where
  succeeded : Bool
  failure : Option RunFailure
  steps : List StepOutcome

namespace RunResult

def completed (steps : List StepOutcome) : RunResult := ⟨true, none, steps⟩

def failed (failure : RunFailure) (steps : List StepOutcome) : RunResult :=
  ⟨false, some failure, steps⟩

def actionsInvoked (r : RunResult) : List String :=
  r.steps.filterMap fun o =>
    match o.target with
    | .action name => some name
    | .workflow _ _ => none

end RunResult

structure Frame where
  location : Location
  params : Params
  /-- The open documents from the entry on, this one included. -/
  chain : List Location

namespace Frame

def enter (above : List Location) (d : Document) (called : Params) : Frame where
  location := d.location
  params := d.defaults.merge called
  chain := above ++ [d.location]

def depth (f : Frame) : Nat := f.chain.length - 1

def outcome (f : Frame) (stepIndex : Nat) (target : StepTarget) (optional : Bool) : StepOutcome :=
  ⟨f.location, stepIndex, f.depth, target, true, optional, none⟩

def failure (f : Frame) (stepIndex : Nat) (error : Error) : RunFailure :=
  ⟨some f.location, some stepIndex, f.chain, error⟩

end Frame

inductive RunEvent where
  /-- The run of a document begins. -/
  | entered (frame : Frame) (document : Document)
  /-- A workflow step is taken up, with the files and the documents as they are at that moment. -/
  | importing (frame : Frame) (stepIndex : Nat) (step : WorkflowStep) (files : FileSystem)
      (cache : Cache)
  | invoked (action : String) (params : Params) (answer : Except Error Bool)
  | noted (note : Note)
  /-- A step that was tried gets its entry in the log. -/
  | logged (outcome : StepOutcome)
  /-- The pause after an action. -/
  | paused (duration : Nanoseconds)

namespace RunEvent

def outcome? : RunEvent → Option StepOutcome
  | .logged outcome => some outcome
  | _ => none

def invocation? : RunEvent → Option (String × Params)
  | .invoked action params _ => some (action, params)
  | _ => none

def answer? : RunEvent → Option (Except Error Bool)
  | .invoked _ _ answer => some answer
  | _ => none

def log (events : List RunEvent) : List StepOutcome := events.filterMap outcome?

end RunEvent

structure Session (σ : Type) where
  host : Host σ
  cache : Cache

/-- What happened in a part of a run, in order, where it left the session, and the failure that ended
it, if one did. -/
structure Progress (σ : Type) where
  events : List RunEvent
  session : Session σ
  failure : Option RunFailure

namespace Progress

variable {σ : Type}

def log (p : Progress σ) : List StepOutcome := RunEvent.log p.events

def start (s : Session σ) : Progress σ := ⟨[], s, none⟩

def append (first second : Progress σ) : Progress σ where
  events := first.events ++ second.events
  session := second.session
  failure := second.failure

def behindEvent (event : RunEvent) (p : Progress σ) : Progress σ :=
  { p with events := event :: p.events }

def andThen (first : Progress σ) (next : Session σ → Option (Progress σ)) : Option (Progress σ) :=
  match first.failure with
  | some _ => some first
  | none => (next first.session).map first.append

end Progress

structure Runner (σ : Type) where
  resolver : Resolver
  registry : Registry σ
  /-- The pause after an action whose step gives none. -/
  defaultPause : Nanoseconds

namespace Runner

variable {σ : Type}

/-- The error that an action's answer amounts to. Its reason is kept, under the name of the step. -/
def actionError (name : String) : Except Error Bool → Option Error
  | .ok true => none
  | .ok false => some (.actionFailed name none)
  | .error (.actionFailed _ reason) => some (.actionFailed name reason)
  | .error e => some (.actionFailed name (some e.message))

def pauseAfter (r : Runner σ) (step : ActionStep) : Nanoseconds :=
  match step.waitAfter with
  | none => r.defaultPause
  | some seconds =>
    match Nanoseconds.ofSeconds seconds with
    | .ok duration => duration
    | .error _ => r.defaultPause

def pauseEvents (duration : Nanoseconds) : List RunEvent :=
  if duration = 0 then [] else [.paused duration]

def afterReply (s : Session σ) (reply : Reply σ) : Session σ :=
  ⟨reply.host, if reply.resets then .empty else s.cache⟩

def invocationEvents (action : String) (params : Params) (reply : Reply σ) : List RunEvent :=
  .invoked action params reply.verdict :: reply.notes.map .noted

def runAction (r : Runner σ) (frame : Frame) (stepIndex : Nat) (step : ActionStep)
    (s : Session σ) : Progress σ :=
  let outcome := frame.outcome stepIndex (.action step.action) step.optional
  match r.registry.find? step.action with
  | none =>
    let error : Error := .unknownAction step.action
    ⟨[.logged (outcome.failed error)], s, some (frame.failure stepIndex error)⟩
  | some action =>
    let params := frame.params.forAction step.params
    let reply := action params s.host
    let events := invocationEvents step.action params reply
    let after := afterReply s reply
    match actionError step.action reply.verdict with
    | none =>
      ⟨events ++ .logged outcome :: pauseEvents (r.pauseAfter step), after, none⟩
    | some error =>
      ⟨events ++ [.logged (outcome.failed error)], after,
        -- A failed action makes no pause, whether it is optional or not.
        if step.optional then none else some (frame.failure stepIndex error)⟩

/-- What the import of a workflow step comes to, and the cache that it leaves. -/
inductive Opening where
  | opened (target : Location) (document : Document) (cache : Cache)
  /-- There is an error, and maybe a location that the reference means. -/
  | refused (target : Option Location) (error : Error) (cache : Cache)

def openImport (r : Runner σ) (frame : Frame) (step : WorkflowStep) (s : Session σ) : Opening :=
  match r.resolver.importTarget s.host.files frame.location step with
  | .error e => .refused none e s.cache
  | .ok target =>
    -- Documents may have been replaced since the graph was resolved, so the chain is checked again.
    if frame.chain.contains target then
      .refused (some target) (.cyclicImport frame.chain target) s.cache
    else match s.cache.load s.host.files target with
      | (.error e, cache) => .refused (some target) e cache
      | (.ok d, cache) => .opened target d cache

def refuseNested (frame : Frame) (stepIndex : Nat) (step : WorkflowStep) (s : Session σ)
    (target : Option Location) (error : Error) (cache : Cache) : Progress σ where
  events := [.importing frame stepIndex step s.host.files s.cache,
    .logged ((frame.outcome stepIndex (.workflow step.workflow target) false).failed error)]
  session := { s with cache }
  failure := some (frame.failure stepIndex error)

def nestedOutcome (frame : Frame) (stepIndex : Nat) (step : WorkflowStep) (target : Location)
    (failure : Option RunFailure) : StepOutcome :=
  let outcome := frame.outcome stepIndex (.workflow step.workflow (some target)) false
  match failure with
  | none => outcome
  | some _ => outcome.failed (.nestedWorkflowFailed target)

def closeNested (frame : Frame) (stepIndex : Nat) (step : WorkflowStep) (s : Session σ)
    (target : Location) (inner : Progress σ) : Progress σ where
  events := .importing frame stepIndex step s.host.files s.cache ::
    (inner.events ++ [.logged (nestedOutcome frame stepIndex step target inner.failure)])
  session := inner.session
  failure := inner.failure

/-- Run a workflow step; `enter` runs the document that it imports. -/
def runNested (r : Runner σ)
    (enter : List Location → Document → Params → Session σ → Option (Progress σ))
    (frame : Frame) (stepIndex : Nat) (step : WorkflowStep) (s : Session σ) :
    Option (Progress σ) :=
  match r.openImport frame step s with
  | .refused target error cache => some (refuseNested frame stepIndex step s target error cache)
  | .opened target d cache =>
    (enter frame.chain d (frame.params.forWorkflow step.params) { s with cache }).map
      (closeNested frame stepIndex step s target)

def runStep (r : Runner σ)
    (enter : List Location → Document → Params → Session σ → Option (Progress σ))
    (frame : Frame) (stepIndex : Nat) (step : Step) (s : Session σ) : Option (Progress σ) :=
  match step with
  | .action step => some (r.runAction frame stepIndex step s)
  | .workflow step => r.runNested enter frame stepIndex step s

def runSteps (r : Runner σ)
    (enter : List Location → Document → Params → Session σ → Option (Progress σ))
    (frame : Frame) : Nat → List Step → Session σ → Option (Progress σ)
  | _, [], s => some (.start s)
  | stepIndex, step :: rest, s =>
    match r.runStep enter frame stepIndex step s with
    | none => none
    | some first => first.andThen (r.runSteps enter frame (stepIndex + 1) rest)

/-- Run a document below a chain of open ones, with a budget of documents that may be open. None, when
the budget was used up. -/
def runDocument (r : Runner σ) :
    Nat → List Location → Document → Params → Session σ → Option (Progress σ)
  | 0, _, _, _, _ => none
  | budget + 1, above, d, called, s =>
    let frame : Frame := .enter above d called
    (r.runSteps (r.runDocument budget) frame 0 d.steps s).map (.behindEvent (.entered frame d))

structure Finished (σ : Type) where
  result : RunResult
  events : List RunEvent
  session : Session σ

namespace Finished

def refused (failure : RunFailure) (s : Session σ) : Finished σ := ⟨.failed failure [], [], s⟩

def ofProgress (p : Progress σ) : Finished σ where
  result := match p.failure with
    | none => .completed p.log
    | some failure => .failed failure p.log
  events := p.events
  session := p.session

end Finished

/-- Run a caller's target to its end, if no more documents are open at a time than the budget allows.
The import graph of the target is resolved first, and nothing is run if it has none. -/
def run (r : Runner σ) (budget : Nat) (target : Target) (params : Params) (s : Session σ) :
    Option (Finished σ) :=
  match r.resolver.resolveTarget s.host.files target with
  | .error e => some (.refused ⟨none, none, [], e⟩ s)
  | .ok entry =>
    match r.resolver.resolveGraph s.host.files s.cache entry with
    | (.error failure, cache) => some (.refused (.ofGraph failure) { s with cache })
    | (.ok graph, cache) =>
      (r.runDocument budget [] graph.entryDocument params { s with cache }).map .ofProgress

end Runner

end WorkflowEngine
