import WorkflowEngine.Proofs.Graph.Paths

/-! Paths that come up in a run.

A run enters its entry and targets of imports, and it loads no other documents, whether or not it comes to its
end. So what holds of the paths of these holds of all paths in its log, of those of the open documents at any
time, and of all that its failure is about.
-/

set_option autoImplicit false

namespace WorkflowEngine

def StepTarget.paths : StepTarget → List Path
  | .action _ => []
  | .workflow _ l => l.toList.map Location.path

def StepOutcome.paths (o : StepOutcome) : List Path :=
  o.workflow.path :: o.target.paths ++ o.error.toList.flatMap Error.paths

def RunFailure.paths (f : RunFailure) : List Path :=
  f.workflow.toList.map Location.path ++ f.callChain.map Location.path ++ f.error.paths

def RunResult.paths (r : RunResult) : List Path :=
  r.failure.toList.flatMap RunFailure.paths ++ r.steps.flatMap StepOutcome.paths

def Frame.paths (f : Frame) : List Path := f.location.path :: f.chain.map Location.path

/-- The paths of a document and the open ones around it, or of an entry in the log. -/
def RunEvent.paths : RunEvent → List Path
  | .entered frame d => d.location.path :: frame.paths
  | .importing frame _ _ _ _ => frame.paths
  | .logged outcome => outcome.paths
  | _ => []

def Access.paths : Access → List Path
  | .load _ l => [l.path]
  | .clear => []

variable {σ : Type} {Q : Path → Prop}

theorem RunFailure.paths_ofGraph (f : GraphFailure) : (ofGraph f).paths = f.paths := by
  obtain ⟨site, chain, error⟩ := f
  cases site <;> rfl

theorem RunEvent.paths_log {events : List RunEvent}
    (all : ∀ event ∈ events, ∀ path ∈ event.paths, Q path) :
    ∀ o ∈ log events, ∀ path ∈ o.paths, Q path := by
  intro o member
  obtain ⟨event, inside, shown⟩ := List.mem_filterMap.1 member
  cases event with
  | logged outcome =>
    cases shown
    exact all _ inside
  | _ => cases shown

structure Progress.Within (Q : Path → Prop) (p : Progress σ) : Prop where
  events : ∀ event ∈ p.events, ∀ path ∈ event.paths, Q path
  failure : ∀ f, p.failure = some f → ∀ path ∈ f.paths, Q path

theorem Progress.Within.append {first later : Progress σ} (within : first.Within Q)
    (behind : later.Within Q) : (first.append later).Within Q where
  events := List.forall_mem_append.2 ⟨within.events, behind.events⟩
  failure := behind.failure

namespace Frame

variable {frame : Frame}

theorem inside_paths (inside : ∀ path ∈ frame.paths, Q path) {step : WorkflowStep} {child : Document}
    (target : Q child.location.path) : ∀ path ∈ (frame.inside step child).paths, Q path := by
  have above := (List.forall_mem_cons.1 inside).2
  refine List.forall_mem_cons.2 ⟨target, List.forall_mem_map.2 ?_⟩
  exact List.forall_mem_append.2 ⟨List.forall_mem_map.1 above, List.forall_mem_singleton.2 target⟩

theorem failure_paths (inside : ∀ path ∈ frame.paths, Q path) {error : Error}
    (named : ∀ path ∈ error.paths, Q path) (stepIndex : Nat) :
    ∀ path ∈ (frame.failure stepIndex error).paths, Q path :=
  List.forall_mem_append.2 ⟨inside, named⟩

theorem outcome_paths (inside : ∀ path ∈ frame.paths, Q path) {target : StepTarget}
    (meant : ∀ path ∈ target.paths, Q path) (stepIndex : Nat) (optional : Bool) :
    ∀ path ∈ (frame.outcome stepIndex target optional).paths, Q path := by
  have here := (List.forall_mem_cons.1 inside).1
  simpa [StepOutcome.paths, outcome] using ⟨here, meant⟩

theorem failed_paths (inside : ∀ path ∈ frame.paths, Q path) {target : StepTarget}
    (meant : ∀ path ∈ target.paths, Q path) {error : Error} (named : ∀ path ∈ error.paths, Q path)
    (stepIndex : Nat) (optional : Bool) :
    ∀ path ∈ ((frame.outcome stepIndex target optional).failed error).paths, Q path := by
  have here := (List.forall_mem_cons.1 inside).1
  refine List.forall_mem_append.2 ⟨List.forall_mem_cons.2 ⟨here, meant⟩, ?_⟩
  simpa [StepOutcome.failed] using named

end Frame

namespace Runner

variable {r : Runner σ} {frame : Frame} {stepIndex : Nat} {s : Session σ} {p : Progress σ}

theorem paths_actionError {name : String} {answer : Except Error Bool} {e : Error}
    (failed : actionError name answer = some e) : e.paths = [] := by
  unfold actionError at failed
  split at failed <;> cases failed <;> rfl

theorem paths_answeredOutcome (frame : Frame) (stepIndex : Nat) (step : ActionStep)
    (answer : Except Error Bool) :
    (answeredOutcome frame stepIndex step answer).paths = [frame.location.path] := by
  unfold answeredOutcome
  cases failed : actionError step.action answer with
  | none => rfl
  | some e => simp [StepOutcome.paths, StepOutcome.failed, Frame.outcome, StepTarget.paths,
      paths_actionError failed]

theorem Acts.within {step : ActionStep} (acts : Acts r frame stepIndex step s p)
    (inside : ∀ path ∈ frame.paths, Q path) : p.Within Q := by
  have here := (List.forall_mem_cons.1 inside).1
  cases acts with
  | unregistered =>
    refine ⟨List.forall_mem_singleton.2 ?_, fun f failed => ?_⟩
    · exact Frame.failed_paths inside (by simp [StepTarget.paths]) (by simp [Error.paths]) _ _
    · cases failed
      exact Frame.failure_paths inside (by simp [Error.paths]) stepIndex
  | @answered action reply registered replied =>
    constructor
    case events =>
      refine List.forall_mem_append.2 ⟨?_, List.forall_mem_cons.2 ⟨?_, ?_⟩⟩
      · simp [invocationEvents, RunEvent.paths]
      · simpa [RunEvent.paths, paths_answeredOutcome] using here
      · unfold answeredPause pauseEvents
        split
        · split <;> simp [RunEvent.paths]
        · simp
    case failure =>
      intro f failed
      obtain ⟨error, answered, _, _, rfl⟩ := answeredFailure_eq_some (r := r) failed
      exact Frame.failure_paths inside (by simp [paths_actionError answered]) stepIndex

section Imports

variable {step : WorkflowStep} (gives : r.resolver.Gives Q) (inside : ∀ path ∈ frame.paths, Q path)

include gives

theorem path_opened {target : Location} {d : Document} {cache : Cache}
    (opening : r.openImport frame step s = .opened target d cache) : Q d.location.path := by
  obtain ⟨means, _, _, rfl⟩ := openImport_eq_opened opening
  exact gives _ _ _ _ means

include inside

/-- An import that is refused names what its reference means, and no other documents but open ones. -/
theorem paths_refused {target : Option Location} {error : Error} {cache : Cache}
    (refused : r.openImport frame step s = .refused target error cache) :
    (∀ path ∈ (StepTarget.workflow step.workflow target).paths, Q path) ∧ ∀ path ∈ error.paths, Q path := by
  unfold openImport at refused
  split at refused
  · rename_i unresolved
    cases refused
    simp [StepTarget.paths, Resolver.paths_of_resolve_error unresolved]
  · rename_i l means
    have given := gives _ _ _ _ means
    have named : ∀ path ∈ (StepTarget.workflow step.workflow (some l)).paths, Q path := by
      simpa [StepTarget.paths] using given
    split at refused
    · cases refused
      refine ⟨named, List.forall_mem_map.2 ?_⟩
      exact List.forall_mem_append.2
        ⟨List.forall_mem_map.1 (List.forall_mem_cons.1 inside).2, List.forall_mem_singleton.2 given⟩
    · split at refused
      · rename_i loaded
        cases refused
        -- The error is that of the read, which is about the target.
        have unread : s.cache.document s.host.files l = .error error := by
          rw [← Cache.load_fst, loaded]
        refine ⟨named, ?_⟩
        rw [Cache.paths_of_document_error unread]
        exact List.forall_mem_singleton.2 given
      · cases refused

theorem refused_within {target : Option Location} {error : Error} {cache : Cache}
    (refused : r.openImport frame step s = .refused target error cache) :
    (refuseNested frame stepIndex step s target error cache).Within Q := by
  obtain ⟨meant, named⟩ := paths_refused gives inside refused
  refine ⟨List.forall_mem_cons.2 ⟨inside, List.forall_mem_singleton.2 ?_⟩, fun f failed => ?_⟩
  · exact Frame.failed_paths inside meant named stepIndex false
  · cases failed
    exact Frame.failure_paths inside named stepIndex

end Imports

theorem nested_within {step : WorkflowStep} {child : Document} {inner : Progress σ}
    (inside : ∀ path ∈ frame.paths, Q path) (target : Q child.location.path) (below : inner.Within Q) :
    (nestedProgress frame stepIndex step s child inner).Within Q := by
  have meant : ∀ path ∈ (StepTarget.workflow step.workflow (some child.location)).paths, Q path := by
    simpa [StepTarget.paths] using target
  refine ⟨?_, below.failure⟩
  rw [nestedProgress_events]
  refine List.forall_mem_append.2 ⟨List.forall_mem_cons.2 ⟨inside, List.forall_mem_singleton.2 ?_⟩,
    List.forall_mem_append.2 ⟨below.events, List.forall_mem_singleton.2 ?_⟩⟩
  · exact List.forall_mem_cons.2 ⟨target, Frame.inside_paths inside target⟩
  · unfold nestedOutcome
    cases inner.failure with
    | none => exact Frame.outcome_paths inside meant stepIndex false
    | some _ =>
      have named : ∀ path ∈ (Error.nestedWorkflowFailed child.location).paths, Q path :=
        List.forall_mem_singleton.2 target
      exact Frame.failed_paths inside meant named stepIndex false

/-- The documents that are open go along with the frame, so what holds of the first ones is kept by each import
that is opened. -/
theorem Executes.within (gives : r.resolver.Gives Q) {steps : List Step}
    (executed : Executes r frame stepIndex steps s p) (inside : ∀ path ∈ frame.paths, Q path) :
    p.Within Q := by
  induction executed with
  | done => exact ⟨by simp [Progress.start], by simp [Progress.start]⟩
  | action acts _ _ ih => exact (acts.within inside).append (ih inside)
  | actionFailed acts => exact acts.within inside
  | refused refused => exact refused_within gives inside refused
  | nested opening _ _ _ ihInner ihLater =>
    have target := path_opened gives opening
    exact (nested_within inside target (ihInner (Frame.inside_paths inside target))).append (ihLater inside)
  | nestedFailed opening _ _ ih =>
    have target := path_opened gives opening
    exact nested_within inside target (ih (Frame.inside_paths inside target))

section Accesses

variable (gives : r.resolver.Gives Q)

include gives

theorem paths_stepAccesses {enters : List Location → Document → Params → Session σ → List Access}
    (entered : ∀ above d called s, ∀ access ∈ enters above d called s, ∀ path ∈ access.paths, Q path)
    (frame : Frame) (step : Step) (s : Session σ) :
    ∀ access ∈ r.stepAccesses enters frame step s, ∀ path ∈ access.paths, Q path := by
  unfold stepAccesses
  split
  · unfold actionAccesses
    split
    · simp
    · split <;> simp [Access.paths]
  · refine List.forall_mem_append.2 ⟨?_, ?_⟩
    · unfold importAccesses
      split
      · simp
      · rename_i target means
        split
        · simp
        · exact List.forall_mem_singleton.2 (List.forall_mem_singleton.2 (gives _ _ _ _ means))
    · split
      · simp
      · exact entered _ _ _ _

theorem paths_stepsAccesses
    {enter : List Location → Document → Params → Session σ → Option (Progress σ)}
    {enters : List Location → Document → Params → Session σ → List Access}
    (entered : ∀ above d called s, ∀ access ∈ enters above d called s, ∀ path ∈ access.paths, Q path)
    (frame : Frame) (stepIndex : Nat) (steps : List Step) (s : Session σ) :
    ∀ access ∈ r.stepsAccesses enter enters frame stepIndex steps s, ∀ path ∈ access.paths, Q path := by
  induction steps generalizing stepIndex s with
  | nil => simp [stepsAccesses]
  | cons step rest ih =>
    refine List.forall_mem_append.2 ⟨paths_stepAccesses gives entered frame step s, ?_⟩
    split
    · exact ih _ _
    · simp

theorem paths_documentAccesses (budget : Nat) (above : List Location) (d : Document) (called : Params)
    (s : Session σ) :
    ∀ access ∈ r.documentAccesses budget above d called s, ∀ path ∈ access.paths, Q path := by
  induction budget generalizing above d called s with
  | zero => simp [documentAccesses]
  | succ budget ih => exact paths_stepsAccesses gives ih _ _ _ _

end Accesses

section Runs

variable {budget : Nat} {target : Target} {params : Params} {finished : Finished σ}
  (gives : r.resolver.Gives Q)
  (given : ∀ l, r.resolver.resolveTarget s.host.files target = .ok l → Q l.path)

include gives given

theorem run_within (ran : r.run budget target params s = some finished) :
    (∀ event ∈ finished.events, ∀ path ∈ event.paths, Q path) ∧
      ∀ path ∈ finished.result.paths, Q path := by
  rw [run_eq] at ran
  rcases resolved : r.resolver.resolveTargetGraph s.host.files s.cache target with ⟨failure | graph, cache⟩
  · simp only [resolved] at ran
    cases ran
    have named := gives.paths_targetFailure given (congrArg Prod.fst resolved)
    refine ⟨by simp [Finished.refused], ?_⟩
    simpa [Finished.refused, RunResult.failed, RunResult.paths, RunFailure.paths_ofGraph] using named
  · simp only [resolved] at ran
    obtain ⟨p, began, rfl⟩ := Option.map_eq_some_iff.1 ran
    obtain ⟨inner, executed, rfl⟩ := executes_of_runDocument began
    have entry : Q graph.entryDocument.location.path :=
      gives.paths_targetGraph given (congrArg Prod.fst resolved) _
        (by simp [ImportGraph.paths, ImportGraph.documents])
    have frame : ∀ path ∈ (Frame.enter [] graph.entryDocument params).paths, Q path := by
      simpa [Frame.paths, Frame.enter] using entry
    have within := executed.within gives frame
    have entering : ∀ path ∈ (RunEvent.entered (.enter [] graph.entryDocument params)
        graph.entryDocument).paths, Q path := List.forall_mem_cons.2 ⟨entry, frame⟩
    refine ⟨List.forall_mem_cons.2 ⟨entering, within.events⟩, ?_⟩
    rw [RunResult.paths, Finished.ofProgress_failure, Finished.ofProgress_steps]
    -- The result names paths in its failure and in the entries of its log.
    refine List.forall_mem_append.2 ⟨fun path member => ?_, fun path member => ?_⟩
    · obtain ⟨failure, failed, named⟩ := List.mem_flatMap.1 member
      exact within.failure failure (Option.mem_toList.1 failed) path named
    · obtain ⟨o, logged, named⟩ := List.mem_flatMap.1 member
      exact RunEvent.paths_log within.events o logged path named

theorem paths_runAccesses (budget : Nat) (params : Params) :
    ∀ access ∈ r.runAccesses budget target params s, ∀ path ∈ access.paths, Q path := by
  unfold runAccesses
  split
  · simp
  · rename_i entry means
    refine List.forall_mem_append.2 ⟨?_, ?_⟩
    · refine List.forall_mem_map.2 fun l member => List.forall_mem_singleton.2 ?_
      exact gives.graphLoads (given entry means) l member
    · split
      · simp
      · exact paths_documentAccesses gives _ _ _ _ _

end Runs

end Runner

end WorkflowEngine
