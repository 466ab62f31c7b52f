import WorkflowEngine.Proofs.Cache.Transparency

/-! Runs on two caches.

Two runs of one document on one host go step by step alike, if no action changes the files: they invoke the
same actions with the same parameters, open the same documents and fail at the same place. Only what their
caches hold on the way may differ.
-/

set_option autoImplicit false

namespace WorkflowEngine

variable {σ : Type}

def Registry.Steady (r : Registry σ) : Prop :=
  ∀ name action, r.find? name = some action →
    ∀ params host, (action params host).host.files = host.files

/-- Every action is a function of its parameters and does nothing but answer. -/
def Registry.Answers (r : Registry σ) : Prop :=
  ∀ name action, r.find? name = some action → ∃ answer, action = .answering answer

theorem Registry.Answers.steady {r : Registry σ} (answers : r.Answers) : r.Steady := by
  intro name action found params host
  obtain ⟨answer, rfl⟩ := answers name action found
  rfl

def RunEvent.withoutCache : RunEvent → RunEvent
  | .importing frame stepIndex step files _ => .importing frame stepIndex step files .empty
  | e => e

theorem RunEvent.log_withoutCache (events : List RunEvent) :
    log (events.map withoutCache) = log events := by
  rw [log, log, List.filterMap_map]
  congr 1
  funext e
  cases e <;> rfl

/-- Two sessions on one host, with caches that make no difference there. -/
structure Session.Alike (fs : FileSystem) (s t : Session σ) : Prop where
  host : s.host = t.host
  files : s.host.files = fs
  left : s.cache.Mirrors fs
  right : t.cache.Mirrors fs

structure Progress.Alike (fs : FileSystem) (p q : Progress σ) : Prop where
  events : p.events.map RunEvent.withoutCache = q.events.map RunEvent.withoutCache
  session : p.session.Alike fs q.session
  failure : p.failure = q.failure

namespace Progress.Alike

variable {fs : FileSystem} {p q : Progress σ}

theorem log (alike : p.Alike fs q) : p.log = q.log := by
  rw [Progress.log, Progress.log, ← RunEvent.log_withoutCache, alike.events, RunEvent.log_withoutCache]

theorem append {later further : Progress σ} (alike : p.Alike fs q) (behind : later.Alike fs further) :
    (p.append later).Alike fs (q.append further) where
  events := by simp only [Progress.append, List.map_append, alike.events, behind.events]
  session := behind.session
  failure := behind.failure

theorem andThen {next further : Session σ → Option (Progress σ)} (alike : p.Alike fs q)
    (behind : Option.Rel (Progress.Alike fs) (next p.session) (further q.session)) :
    Option.Rel (Progress.Alike fs) (p.andThen next) (q.andThen further) := by
  unfold Progress.andThen
  rw [← alike.failure]
  cases p.failure with
  | some failure => exact .some alike
  | none =>
    dsimp only
    generalize next p.session = later at behind ⊢
    generalize further q.session = again at behind ⊢
    cases behind with
    | some behind => exact .some (alike.append behind)
    | none => exact .none

end Progress.Alike

namespace Runner

variable {r : Runner σ} {fs : FileSystem} {s t : Session σ}

inductive Opening.Alike (fs : FileSystem) : Opening → Opening → Prop
  | opened {target : Location} {d : Document} {c other : Cache} :
      c.Mirrors fs → other.Mirrors fs → Alike fs (.opened target d c) (.opened target d other)
  | refused {target : Option Location} {error : Error} {c other : Cache} :
      c.Mirrors fs → other.Mirrors fs → Alike fs (.refused target error c) (.refused target error other)

theorem openImport_alike (alike : s.Alike fs t) (frame : Frame) (step : WorkflowStep) :
    Opening.Alike fs (r.openImport frame step s) (r.openImport frame step t) := by
  obtain ⟨host, files, left, right⟩ := alike
  unfold openImport
  rw [← host, files]
  cases r.resolver.importTarget fs frame.location step with
  | error e => exact .refused left right
  | ok target =>
    dsimp only
    split
    · exact .refused left right
    · obtain ⟨after, first, loaded⟩ := Cache.load_of_mirrors left target
      obtain ⟨further, second, again⟩ := Cache.load_of_mirrors right target
      rw [loaded, again]
      cases fs.readDocument target with
      | error e => exact .refused first second
      | ok d => exact .opened first second

theorem runAction_alike (steady : r.registry.Steady) (alike : s.Alike fs t) (frame : Frame)
    (stepIndex : Nat) (step : ActionStep) :
    (r.runAction frame stepIndex step s).Alike fs (r.runAction frame stepIndex step t) := by
  unfold runAction
  cases registered : r.registry.find? step.action with
  | none => exact ⟨rfl, alike, rfl⟩
  | some action =>
    dsimp only
    rw [← alike.host]
    have after : (afterReply s (action (frame.params.forAction step.params) s.host)).Alike fs
        (afterReply t (action (frame.params.forAction step.params) s.host)) := by
      refine ⟨rfl, (steady _ _ registered _ _).trans alike.files, ?_, ?_⟩
      -- An action that has all documents forgotten leaves an empty cache on both sides.
      all_goals
        dsimp only [afterReply]
        split
        · exact Cache.mirrors_empty fs
        · first | exact alike.left | exact alike.right
    cases actionError step.action (action (frame.params.forAction step.params) s.host).verdict with
    | none => exact ⟨rfl, after, rfl⟩
    | some error => exact ⟨rfl, after, rfl⟩

section Steps

variable {enter further : List Location → Document → Params → Session σ → Option (Progress σ)}

theorem runStep_alike (steady : r.registry.Steady)
    (enters : ∀ above d called s t, s.Alike fs t →
      Option.Rel (Progress.Alike fs) (enter above d called s) (further above d called t))
    (alike : s.Alike fs t) (frame : Frame) (stepIndex : Nat) (step : Step) :
    Option.Rel (Progress.Alike fs) (r.runStep enter frame stepIndex step s)
      (r.runStep further frame stepIndex step t) := by
  cases step with
  | action step => exact .some (runAction_alike steady alike frame stepIndex step)
  | workflow step =>
    have opening := openImport_alike (r := r) alike frame step
    dsimp only [runStep, runNested]
    -- The caches are asked for nothing but the openings.
    generalize r.openImport frame step s = first at opening ⊢
    generalize r.openImport frame step t = second at opening ⊢
    cases opening with
    | refused left right =>
      refine .some ⟨?_, ⟨alike.host, alike.files, left, right⟩, rfl⟩
      simp [refuseNested, RunEvent.withoutCache, alike.host]
    | @opened target d c other left right =>
      have inside := enters frame.chain d (frame.params.forWorkflow step.params) { s with cache := c }
        { t with cache := other } ⟨alike.host, alike.files, left, right⟩
      dsimp only
      generalize enter frame.chain d (frame.params.forWorkflow step.params) { s with cache := c } = p
        at inside ⊢
      generalize further frame.chain d (frame.params.forWorkflow step.params)
        { t with cache := other } = q at inside ⊢
      cases inside with
      | none => exact .none
      | some inner =>
        refine .some ⟨?_, inner.session, inner.failure⟩
        simp [closeNested, RunEvent.withoutCache, alike.host, inner.events, inner.failure]

theorem runSteps_alike (steady : r.registry.Steady)
    (enters : ∀ above d called s t, s.Alike fs t →
      Option.Rel (Progress.Alike fs) (enter above d called s) (further above d called t))
    (alike : s.Alike fs t) (frame : Frame) (stepIndex : Nat) (steps : List Step) :
    Option.Rel (Progress.Alike fs) (r.runSteps enter frame stepIndex steps s)
      (r.runSteps further frame stepIndex steps t) := by
  induction steps generalizing stepIndex s t with
  | nil => exact .some ⟨rfl, alike, rfl⟩
  | cons step rest ih =>
    have first := runStep_alike steady enters alike frame stepIndex step
    unfold runSteps
    generalize r.runStep enter frame stepIndex step s = p at first ⊢
    generalize r.runStep further frame stepIndex step t = q at first ⊢
    cases first with
    | none => exact .none
    | some first => exact first.andThen (ih first.session (stepIndex + 1))

end Steps

theorem runDocument_alike (steady : r.registry.Steady) (budget : Nat) (above : List Location)
    (d : Document) (called : Params) (alike : s.Alike fs t) :
    Option.Rel (Progress.Alike fs) (r.runDocument budget above d called s)
      (r.runDocument budget above d called t) := by
  induction budget generalizing above d called s t with
  | zero => exact .none
  | succ budget ih =>
    have steps := runSteps_alike steady (fun above d called _ _ alike => ih above d called alike) alike
      (.enter above d called) 0 d.steps
    unfold runDocument
    dsimp only
    generalize r.runSteps (r.runDocument budget) (.enter above d called) 0 d.steps s = p at steps ⊢
    generalize r.runSteps (r.runDocument budget) (.enter above d called) 0 d.steps t = q at steps ⊢
    cases steps with
    | none => exact .none
    | some inner => exact .some ⟨congrArg (List.cons _) inner.events, inner.session, inner.failure⟩

section Answers

variable (answers : r.registry.Answers)

include answers

theorem Acts.host_eq {frame : Frame} {stepIndex : Nat} {step : ActionStep} {p : Progress σ}
    (acts : Acts r frame stepIndex step s p) : p.session.host = s.host := by
  cases acts with
  | unregistered => rfl
  | answered registered replied =>
    obtain ⟨answer, rfl⟩ := answers _ _ registered
    subst replied
    rfl

theorem Executes.host_eq {frame : Frame} {stepIndex : Nat} {steps : List Step} {p : Progress σ}
    (executed : Executes r frame stepIndex steps s p) : p.session.host = s.host := by
  induction executed with
  | done => rfl
  | action acts _ _ ih => exact ih.trans (acts.host_eq answers)
  | actionFailed acts => exact acts.host_eq answers
  | refused => rfl
  | nested _ _ _ _ ihInner ihLater => exact ihLater.trans ihInner
  | nestedFailed _ _ _ ih => exact ih

theorem run_host_eq {budget : Nat} {target : Target} {params : Params} {finished : Finished σ}
    (ran : r.run budget target params s = some finished) : finished.session.host = s.host := by
  rw [run_eq] at ran
  generalize r.resolver.resolveTargetGraph s.host.files s.cache target = resolved at ran
  obtain ⟨failure | graph, cache⟩ := resolved
  · cases ran
    rfl
  · obtain ⟨p, began, rfl⟩ := Option.map_eq_some_iff.1 ran
    obtain ⟨inner, executed, rfl⟩ := executes_of_runDocument began
    exact executed.host_eq answers

end Answers

/-- The same has happened in two runs, and they have the same result. -/
structure Finished.Alike (fs : FileSystem) (f g : Finished σ) : Prop where
  result : f.result = g.result
  events : f.events.map RunEvent.withoutCache = g.events.map RunEvent.withoutCache
  session : f.session.Alike fs g.session

theorem run_alike (steady : r.registry.Steady) (alike : s.Alike fs t) (budget : Nat) (target : Target)
    (params : Params) :
    Option.Rel (Finished.Alike fs) (r.run budget target params s) (r.run budget target params t) := by
  obtain ⟨host, files, left, right⟩ := alike
  obtain ⟨after, first, resolved⟩ := Resolver.resolveTargetGraph_of_mirrors (r := r.resolver) left target
  obtain ⟨further, second, again⟩ := Resolver.resolveTargetGraph_of_mirrors (r := r.resolver) right target
  rw [run_eq, run_eq, ← host, files, resolved, again]
  cases (r.resolver.resolveTargetGraph fs .empty target).1 with
  | error failure => exact .some ⟨rfl, rfl, rfl, files, first, second⟩
  | ok graph =>
    have began := runDocument_alike (s := { s with cache := after }) (t := { s with cache := further })
      steady budget [] graph.entryDocument params ⟨rfl, files, first, second⟩
    dsimp only
    generalize r.runDocument budget [] graph.entryDocument params { s with cache := after } = p at began ⊢
    generalize r.runDocument budget [] graph.entryDocument params { s with cache := further } = q
      at began ⊢
    cases began with
    | none => exact .none
    | some inner =>
      refine .some ⟨?_, inner.events, inner.session⟩
      simp only [Finished.ofProgress, inner.failure, inner.log]

end Runner

end WorkflowEngine
