import WorkflowEngine.Proofs.Run.Execution

/-! Resolvers that agree.

Graphs and runs ask a resolver only for the target of an import and for the location of a caller's target.
Two resolvers that answer alike on the files that a run comes by, have the same graphs there, and a run goes
the same way with either of them to the same end. What the files are like may be said of the first ones only,
if no action changes it.
-/

set_option autoImplicit false

namespace WorkflowEngine

structure Resolver.Agrees (q r : Resolver) (fs : FileSystem) : Prop where
  imports : q.importTarget fs = r.importTarget fs
  targets : q.resolveTarget fs = r.resolveTarget fs

namespace Resolver.Agrees

variable {q r : Resolver} {fs : FileSystem}

theorem walkImports_eq (agrees : q.Agrees r fs) (enter : Document → List Location → Cache → WalkResult)
    (chain : List Location) (workflow : Location) (imports : List (Nat × WorkflowStep)) :
    q.walkImports fs enter chain workflow imports = r.walkImports fs enter chain workflow imports := by
  induction imports with
  | nil => rfl
  | cons first rest ih =>
    funext settled cache
    simp only [walkImports, agrees.imports, ih]

theorem walk_eq (agrees : q.Agrees r fs) (budget : Nat) : q.walk fs budget = r.walk fs budget := by
  induction budget with
  | zero => rfl
  | succ budget ih =>
    funext above d settled cache
    simp only [walk, ih, agrees.walkImports_eq]

theorem resolveGraph_eq (agrees : q.Agrees r fs) (cache : Cache) (entry : Location) :
    q.resolveGraph fs cache entry = r.resolveGraph fs cache entry := by
  simp only [resolveGraph, agrees.walk_eq]

theorem resolveTargetGraph_eq (agrees : q.Agrees r fs) (cache : Cache) (target : Target) :
    q.resolveTargetGraph fs cache target = r.resolveTargetGraph fs cache target := by
  simp only [resolveTargetGraph, agrees.targets, agrees.resolveGraph_eq]

end Resolver.Agrees

variable {σ : Type} {allowed : FileSystem → Prop}

def Registry.Preserves (r : Registry σ) (allowed : FileSystem → Prop) : Prop :=
  ∀ name action, r.find? name = some action →
    ∀ params host, allowed host.files → allowed (action params host).host.files

namespace Registry

theorem preserves_empty : (empty : Registry σ).Preserves allowed := fun _ _ found => nomatch found

variable {r : Registry σ}

theorem Preserves.register (preserves : r.Preserves allowed) {action : Action σ}
    (keeps : ∀ params host, allowed host.files → allowed (action params host).host.files) (name : String) :
    (r.register name action).Preserves allowed := by
  intro other found registered
  rw [find?, Registry.register, Dictionary.find?_insert] at registered
  split at registered
  · cases registered
    exact keeps
  · exact preserves other found registered

theorem Preserves.withBuiltins (preserves : r.Preserves allowed) : r.withBuiltins.Preserves allowed := by
  have answers : ∀ (answer : Params → Except Error Bool × List Note) params (host : Host σ),
      allowed host.files → allowed (Action.answering answer params host).host.files := fun _ _ _ kept => kept
  exact ((preserves.register (answers _) "log").register (answers _) "sleep").register (answers _) "noop"

end Registry

/-- Two ways to go on are one where the files are allowed, and the files stay so. -/
def Session.Continues (allowed : FileSystem → Prop) (f g : Session σ → Option (Progress σ)) : Prop :=
  ∀ s, allowed s.host.files → f s = g s ∧ ∀ p, g s = some p → allowed p.session.host.files

theorem Session.Continues.andThen {first : Progress σ} {f g : Session σ → Option (Progress σ)}
    (continues : Continues allowed f g) (kept : allowed first.session.host.files) :
    first.andThen f = first.andThen g ∧
      ∀ p, first.andThen g = some p → allowed p.session.host.files := by
  obtain ⟨same, further⟩ := continues first.session kept
  refine ⟨by simp only [Progress.andThen, same], fun p went => ?_⟩
  rcases Progress.andThen_eq_some.1 went with ⟨_, _, rfl⟩ | ⟨_, second, behind, rfl⟩
  · exact kept
  · exact further second behind

namespace Runner

variable {r : Runner σ} {q : Resolver}

def withResolver (r : Runner σ) (resolver : Resolver) : Runner σ := { r with resolver }

theorem allowed_runAction (preserves : r.registry.Preserves allowed) {s : Session σ}
    (kept : allowed s.host.files) (frame : Frame) (stepIndex : Nat) (step : ActionStep) :
    allowed (r.runAction frame stepIndex step s).session.host.files := by
  generalize ran : r.runAction frame stepIndex step s = p
  have acts := ran ▸ acts_runAction (r := r) frame stepIndex step s
  cases acts with
  | unregistered => exact kept
  | answered registered replied =>
    subst replied
    exact preserves _ _ registered _ _ kept

section Steps

variable {enter further : List Location → Document → Params → Session σ → Option (Progress σ)}
  (preserves : r.registry.Preserves allowed) (agrees : ∀ fs, allowed fs → q.Agrees r.resolver fs)
  (enters : ∀ above d called, Session.Continues allowed (enter above d called) (further above d called))

include agrees enters

theorem runNested_continues (frame : Frame) (stepIndex : Nat) (step : WorkflowStep) :
    Session.Continues allowed ((r.withResolver q).runNested enter frame stepIndex step)
      (r.runNested further frame stepIndex step) := by
  intro s kept
  have opening : (r.withResolver q).openImport frame step s = r.openImport frame step s := by
    simp only [openImport, withResolver, (agrees _ kept).imports]
  unfold runNested
  rw [opening]
  cases r.openImport frame step s with
  | refused target error cache =>
    refine ⟨rfl, fun p ran => ?_⟩
    cases ran
    exact kept
  | opened target d cache =>
    obtain ⟨same, inside⟩ := enters frame.chain d (frame.params.forWorkflow step.params)
      { s with cache } kept
    refine ⟨by simp only [same], fun p ran => ?_⟩
    obtain ⟨inner, entered, rfl⟩ := Option.map_eq_some_iff.1 ran
    exact inside inner entered

include preserves

theorem runStep_continues (frame : Frame) (stepIndex : Nat) (step : Step) :
    Session.Continues allowed ((r.withResolver q).runStep enter frame stepIndex step)
      (r.runStep further frame stepIndex step) := by
  cases step with
  | action step =>
    refine fun s kept => ⟨rfl, fun p ran => ?_⟩
    cases ran
    exact allowed_runAction preserves kept frame stepIndex step
  | workflow step => exact runNested_continues agrees enters frame stepIndex step

theorem runSteps_continues (frame : Frame) (stepIndex : Nat) (steps : List Step) :
    Session.Continues allowed ((r.withResolver q).runSteps enter frame stepIndex steps)
      (r.runSteps further frame stepIndex steps) := by
  induction steps generalizing stepIndex with
  | nil =>
    refine fun s kept => ⟨rfl, fun p ran => ?_⟩
    cases ran
    exact kept
  | cons step rest ih =>
    intro s kept
    obtain ⟨same, within⟩ := runStep_continues preserves agrees enters frame stepIndex step s kept
    unfold runSteps
    rw [same]
    cases stepped : r.runStep further frame stepIndex step s with
    | none => exact ⟨rfl, by simp⟩
    | some first => exact (ih (stepIndex + 1)).andThen (within first stepped)

end Steps

variable (preserves : r.registry.Preserves allowed) (agrees : ∀ fs, allowed fs → q.Agrees r.resolver fs)

include preserves agrees

theorem runDocument_continues (budget : Nat) (above : List Location) (d : Document) (called : Params) :
    Session.Continues allowed ((r.withResolver q).runDocument budget above d called)
      (r.runDocument budget above d called) := by
  induction budget generalizing above d called with
  | zero => exact fun s kept => ⟨rfl, by simp [runDocument]⟩
  | succ budget ih =>
    intro s kept
    obtain ⟨same, within⟩ :=
      runSteps_continues preserves agrees ih (.enter above d called) 0 d.steps s kept
    refine ⟨by simp only [runDocument, same], fun p ran => ?_⟩
    obtain ⟨inner, stepped, rfl⟩ := Option.map_eq_some_iff.1 ran
    exact within inner stepped

/-- A run is the same with resolvers that agree on the files it comes by, and leaves such files. -/
theorem run_withResolver {s : Session σ} (kept : allowed s.host.files) (budget : Nat) (target : Target)
    (params : Params) :
    (r.withResolver q).run budget target params s = r.run budget target params s ∧
      ∀ finished, r.run budget target params s = some finished →
        allowed finished.session.host.files := by
  have graphs : q.resolveTargetGraph s.host.files = r.resolver.resolveTargetGraph s.host.files :=
    funext fun cache => funext ((agrees _ kept).resolveTargetGraph_eq cache)
  rw [run_eq, run_eq]
  dsimp only [withResolver]
  rw [graphs]
  cases r.resolver.resolveTargetGraph s.host.files s.cache target with
  | mk resolved cache =>
    cases resolved with
    | error failure =>
      refine ⟨rfl, fun finished ran => ?_⟩
      cases ran
      exact kept
    | ok graph =>
      obtain ⟨same, within⟩ := runDocument_continues preserves agrees budget [] graph.entryDocument params
        { s with cache } kept
      dsimp only [withResolver] at same ⊢
      refine ⟨by rw [same], fun finished ran => ?_⟩
      obtain ⟨p, began, rfl⟩ := Option.map_eq_some_iff.1 ran
      exact within p began

end Runner

end WorkflowEngine
