import WorkflowEngine.Proofs.Run.Coverage

/-! The steps of a graph in the order of the log.

A graph expands to the steps of its entry document, with those of an imported document before each workflow
step, at every place where it is imported. The log of a run along the graph is this expansion, up to the
step that fails and without what its failure passes over.
-/

set_option autoImplicit false

namespace WorkflowEngine

/-- A step as the log has it, before it is known how it ends. -/
structure PlannedStep where
  workflow : Location
  stepIndex : Nat
  /-- The number of imports around the step. -/
  depth : Nat
  target : StepTarget
  deriving DecidableEq

def StepOutcome.planned (o : StepOutcome) : PlannedStep := ⟨o.workflow, o.stepIndex, o.depth, o.target⟩

/-- Steps of a document expand, the first of them with an index and all of them at a depth. -/
inductive ImportGraph.Expands (g : ImportGraph) :
    Nat → Location → Nat → List Step → List PlannedStep → Prop
  | done {depth : Nat} {l : Location} {stepIndex : Nat} : Expands g depth l stepIndex [] []
  | action {depth : Nat} {l : Location} {stepIndex : Nat} {step : ActionStep} {rest : List Step}
      {later : List PlannedStep} :
      Expands g depth l (stepIndex + 1) rest later →
      Expands g depth l stepIndex (.action step :: rest)
        (⟨l, stepIndex, depth, .action step.action⟩ :: later)
  | workflow {depth : Nat} {l : Location} {stepIndex : Nat} {step : WorkflowStep} {rest : List Step}
      {target : Location} {child : Document} {inner later : List PlannedStep} :
      ⟨⟨l, stepIndex⟩, target⟩ ∈ g.edges → g.document? target = some child →
      Expands g (depth + 1) target 0 child.steps inner →
      Expands g depth l (stepIndex + 1) rest later →
      Expands g depth l stepIndex (.workflow step :: rest)
        (inner ++ ⟨l, stepIndex, depth, .workflow step.workflow (some target)⟩ :: later)

def Sample.plan : List PlannedStep :=
  [⟨leaf.location, 0, 1, .action "wipe"⟩,
    ⟨entry.location, 0, 0, .workflow ⟨"b"⟩ (some leaf.location)⟩,
    ⟨leaf.location, 0, 1, .action "wipe"⟩,
    ⟨entry.location, 1, 0, .workflow ⟨"./b"⟩ (some leaf.location)⟩,
    ⟨entry.location, 2, 0, .action "wipe"⟩]

theorem Sample.expands_plan : graph.Expands 0 graph.entry 0 graph.entryDocument.steps plan := by
  have document : graph.document? leaf.location = some leaf := rfl
  have inner : graph.Expands 1 leaf.location 0 leaf.steps
    [⟨leaf.location, 0, 1, .action "wipe"⟩] := .action .done
  have later : graph.Expands 0 entry.location 1 (entry.steps.drop 1) (plan.drop 2) :=
    .workflow (by decide) document inner (.action .done)
  exact .workflow (by decide) document inner later

namespace PlannedStep

/-- The steps around one at a depth, from the innermost on: of those that come later, each next one that is
less deep. -/
def around : Nat → List PlannedStep → List PlannedStep
  | _, [] => []
  | depth, p :: later => if p.depth < depth then p :: around p.depth later else around depth later

theorem around_eq_nil {depth : Nat} {later : List PlannedStep} (deep : ∀ p ∈ later, depth ≤ p.depth) :
    around depth later = [] := by
  induction later with
  | nil => rfl
  | cons first later ih =>
    obtain ⟨deeper, others⟩ := List.forall_mem_cons.1 deep
    rw [around, if_neg (Nat.not_lt.2 deeper), ih others]

theorem around_append {depth : Nat} {first later : List PlannedStep} {outer : PlannedStep}
    (inside : outer.depth < depth) (deeper : ∀ p ∈ first, outer.depth < p.depth)
    (deep : ∀ p ∈ later, outer.depth ≤ p.depth) :
    around depth (first ++ outer :: later) = around depth first ++ [outer] := by
  induction first generalizing depth with
  | nil =>
    rw [List.nil_append, around, around, if_pos inside, around_eq_nil deep]
    rfl
  | cons p first ih =>
    obtain ⟨below, others⟩ := List.forall_mem_cons.1 deeper
    rw [List.cons_append, around, around, ih inside others, ih below others]
    split <;> rfl

structure Inside (g : ImportGraph) (inner outer : PlannedStep) : Prop where
  depth : inner.depth = outer.depth + 1
  recorded : ⟨⟨outer.workflow, outer.stepIndex⟩, inner.workflow⟩ ∈ g.edges
  target : ∃ reference, outer.target = .workflow reference (some inner.workflow)

/-- A step and the steps around it lead out to a document that is expanded at a depth. -/
structure Nests (g : ImportGraph) (depth : Nat) (l : Location) (p : PlannedStep)
    (outer : List PlannedStep) : Prop where
  linked : (p :: outer).IsChain (Inside g)
  outermost : ∃ last, (p :: outer).getLast? = some last ∧ last.workflow = l ∧ last.depth = depth
  depth_eq : p.depth = depth + outer.length

theorem Nests.own {g : ImportGraph} {depth : Nat} {l : Location} {stepIndex : Nat} {target : StepTarget} :
    Nests g depth l ⟨l, stepIndex, depth, target⟩ [] :=
  ⟨.singleton _, ⟨_, rfl, rfl, rfl⟩, rfl⟩

theorem Nests.append {g : ImportGraph} {depth : Nat} {l target : Location} {stepIndex : Nat}
    {reference : Reference} {p : PlannedStep} {outer : List PlannedStep}
    (nests : Nests g (depth + 1) target p outer) (recorded : ⟨⟨l, stepIndex⟩, target⟩ ∈ g.edges) :
    Nests g depth l p (outer ++ [⟨l, stepIndex, depth, .workflow reference (some target)⟩]) where
  linked := by
    obtain ⟨next, outermost, located, deep⟩ := nests.outermost
    rw [← List.cons_append]
    refine List.isChain_append.2 ⟨nests.linked, .singleton _, ?_⟩
    intro a same b other
    obtain rfl : next = a := Option.some.inj (outermost.symm.trans same)
    obtain rfl := Option.some.inj other
    exact ⟨deep, located ▸ recorded, reference, by rw [located]⟩
  outermost := ⟨_, by rw [← List.cons_append, List.getLast?_concat], rfl, rfl⟩
  depth_eq := by
    rw [nests.depth_eq, List.length_append, List.length_singleton]
    omega

end PlannedStep

namespace ImportGraph

namespace Expands

open PlannedStep

variable {g : ImportGraph} {depth : Nat} {l : Location} {stepIndex : Nat} {steps : List Step}
  {plan : List PlannedStep}

theorem depth_le (expands : g.Expands depth l stepIndex steps plan) : ∀ p ∈ plan, depth ≤ p.depth := by
  induction expands with
  | done => simp
  | action _ ih => exact List.forall_mem_cons.2 ⟨Nat.le_refl _, ih⟩
  | workflow _ _ _ _ ihInner ihLater =>
    refine List.forall_mem_append.2 ⟨fun p member => ?_, List.forall_mem_cons.2 ⟨Nat.le_refl _, ihLater⟩⟩
    exact Nat.le_of_succ_le (ihInner p member)

theorem exists_of_forall
    (each : ∀ i ∈ Document.importsFrom stepIndex steps, ∃ target child inner,
      ⟨⟨l, i.1⟩, target⟩ ∈ g.edges ∧ g.document? target = some child ∧
        g.Expands (depth + 1) target 0 child.steps inner) :
    ∃ plan, g.Expands depth l stepIndex steps plan := by
  induction steps generalizing stepIndex with
  | nil => exact ⟨[], .done⟩
  | cons step rest ih =>
    cases step with
    | action step =>
      obtain ⟨later, expands⟩ := ih each
      exact ⟨_, .action expands⟩
    | workflow step =>
      obtain ⟨⟨target, child, inner, recorded, document, below⟩, others⟩ := List.forall_mem_cons.1 each
      obtain ⟨later, expands⟩ := ih others
      exact ⟨_, .workflow recorded document below expands⟩

theorem nests (expands : g.Expands depth l stepIndex steps plan) {done later : List PlannedStep}
    {p : PlannedStep} (split : plan = done ++ p :: later) :
    Nests g depth l p (around p.depth later) := by
  induction expands generalizing done later with
  | done => simp at split
  | action behind ih =>
    rcases List.cons_eq_append_iff.1 split with ⟨_, same⟩ | ⟨more, _, rest⟩
    · obtain ⟨rfl, rfl⟩ := List.cons.inj same
      rw [around_eq_nil behind.depth_le]
      exact .own
    · exact ih rest
  | @workflow depth l stepIndex step _ target child inner after recorded _ below behind ihInner ihLater =>
    -- The step imports the document, or it comes behind that one, or it is inside the document.
    rcases List.append_eq_append_iff.1 split with ⟨more, _, rest⟩ | ⟨more, inside, rest⟩
    · rcases List.cons_eq_append_iff.1 rest with ⟨_, same⟩ | ⟨_, _, rest⟩
      · obtain ⟨rfl, rfl⟩ := List.cons.inj same
        rw [around_eq_nil behind.depth_le]
        exact .own
      · exact ihLater rest
    · rcases List.cons_eq_append_iff.1 rest with ⟨_, same⟩ | ⟨within, rfl, rfl⟩
      · obtain ⟨rfl, rfl⟩ := List.cons.inj same
        rw [around_eq_nil behind.depth_le]
        exact .own
      · have nested := ihInner inside
        have deeper : ∀ q ∈ within, depth < q.depth := fun q member =>
          below.depth_le q (by simp [inside, member])
        have deep : depth < p.depth := by
          rw [nested.depth_eq]
          omega
        rw [around_append deep deeper behind.depth_le]
        exact nested.append recorded

end Expands

namespace Represents

variable {S : Sources} {g : ImportGraph} {entry : Location}

theorem exists_expands_of_unfolds (represents : g.Represents S entry) {l : Location}
    {imports : List (Nat × WorkflowStep)} {tree : List Location} (unfolded : S.Unfolds l imports tree)
    {d : Document} (document : g.document? l = some d) (inside : ∀ i ∈ imports, i ∈ d.imports) :
    ∀ i ∈ imports, ∀ depth, ∃ target child inner, ⟨⟨l, i.1⟩, target⟩ ∈ g.edges ∧
      g.document? target = some child ∧ g.Expands depth target 0 child.steps inner := by
  induction unfolded generalizing d with
  | done => simp
  | step means loaded _ _ ihBelow ihLater =>
    obtain ⟨first, others⟩ := List.forall_mem_cons.1 inside
    refine List.forall_mem_cons.2 ⟨fun depth => ?_, ihLater document others⟩
    obtain ⟨member, rfl⟩ := mem_of_document? document
    obtain ⟨child, leads, same, _⟩ := represents.exists_leads member (Document.mem_imports.1 first)
    obtain rfl := Except.ok.inj (means.symm.trans same)
    have stands := represents.stands child (mem_of_document? leads.document).1
    obtain rfl := Except.ok.inj (loaded.symm.trans stands)
    have each := ihBelow leads.document fun _ => id
    obtain ⟨inner, expands⟩ := Expands.exists_of_forall fun i inner => each i inner (depth + 1)
    exact ⟨_, _, inner, leads.recorded, leads.document, expands⟩

theorem exists_expands (represents : g.Represents S entry) :
    ∃ plan, g.Expands 0 entry 0 g.entryDocument.steps plan := by
  obtain ⟨tree, unfolded, _⟩ := represents.preorder
  have document : g.document? entry = some g.entryDocument := by
    rw [← represents.entered]
    exact represents.document?_of_mem List.mem_cons_self
  exact Expands.exists_of_forall fun i member =>
    represents.exists_expands_of_unfolds unfolded document (fun _ => id) i member 1

theorem expands_unique (represents : g.Represents S entry) {depth : Nat} {d : Document} {stepIndex : Nat}
    {steps : List Step} {plan other : List PlannedStep} (member : d ∈ g.documents)
    (ahead : d.steps.drop stepIndex = steps) (expands : g.Expands depth d.location stepIndex steps plan)
    (again : g.Expands depth d.location stepIndex steps other) : plan = other := by
  generalize located : d.location = l at expands again
  induction expands generalizing d other with
  | done =>
    cases again
    rfl
  | action _ ih =>
    cases again with
    | action again => rw [ih member (Document.drop_succ ahead) located again]
  | workflow recorded document _ _ ihInner ihLater =>
    cases again with
    | workflow same twin below behind =>
      subst located
      -- A step has one edge, which leads to one document.
      obtain ⟨child, leads, _⟩ := represents.exists_leads member (Document.getElem?_of_drop ahead)
      obtain ⟨rfl, rfl⟩ := leads.unique recorded document
      obtain ⟨rfl, rfl⟩ := leads.unique same twin
      rw [ihInner (mem_of_document? document).1 rfl rfl below,
        ihLater member (Document.drop_succ ahead) rfl behind]

end Represents

end ImportGraph

namespace Runner

open PlannedStep

variable {σ : Type} {r : Runner σ} {S : Sources} {g : ImportGraph}

/-- A failure cuts a plan short at an action step, and what is logged goes on with the steps around it. -/
structure Halts (f : RunFailure) (log plan done : List PlannedStep) (fatal : PlannedStep)
    (later : List PlannedStep) : Prop where
  plan_eq : plan = done ++ fatal :: later
  log_eq : log = done ++ fatal :: around fatal.depth later
  workflow : f.workflow = some fatal.workflow
  stepIndex : f.stepIndex = some fatal.stepIndex
  action : ∃ name, fatal.target = .action name

structure Logs (p : Progress σ) (plan : List PlannedStep) : Prop where
  passed : p.failure = none → p.log.map StepOutcome.planned = plan
  failed : ∀ f, p.failure = some f →
    ∃ done fatal later, Halts f (p.log.map StepOutcome.planned) plan done fatal later

theorem Logs.prepend {first later : Progress σ} {done plan : List PlannedStep}
    (logs : Logs later plan) (logged : first.log.map StepOutcome.planned = done) :
    Logs (first.append later) (done ++ plan) where
  passed passed := by rw [Progress.log_append, List.map_append, logged, logs.passed passed]
  failed f failed := by
    obtain ⟨before, fatal, behind, halts⟩ := logs.failed f failed
    refine ⟨done ++ before, fatal, behind, ?_, ?_, halts.workflow, halts.stepIndex, halts.action⟩
    · rw [halts.plan_eq, List.append_assoc]
    · rw [Progress.log_append, List.map_append, logged, halts.log_eq, List.append_assoc]

/-- A failure in an imported document is followed by the step that imports it, and by nothing else. -/
theorem Halts.append {f : RunFailure} {log plan done : List PlannedStep} {fatal outer : PlannedStep}
    {later rest : List PlannedStep} (halts : Halts f log plan done fatal later)
    (deeper : ∀ p ∈ plan, outer.depth < p.depth) (deep : ∀ p ∈ rest, outer.depth ≤ p.depth) :
    Halts f (log ++ [outer]) (plan ++ outer :: rest) done fatal (later ++ outer :: rest) where
  plan_eq := by rw [halts.plan_eq, List.append_assoc, List.cons_append]
  log_eq := by
    rw [halts.plan_eq] at deeper
    obtain ⟨below, within⟩ := List.forall_mem_cons.1 (List.forall_mem_append.1 deeper).2
    rw [around_append below within deep, halts.log_eq, List.append_assoc, List.cons_append]
  workflow := halts.workflow
  stepIndex := halts.stepIndex
  action := halts.action

theorem planned_log_nestedProgress (frame : Frame) (stepIndex : Nat) (step : WorkflowStep)
    (s : Session σ) (child : Document) (inner : Progress σ) :
    (nestedProgress frame stepIndex step s child inner).log.map StepOutcome.planned =
      inner.log.map StepOutcome.planned ++
        [⟨frame.location, stepIndex, frame.depth, .workflow step.workflow (some child.location)⟩] := by
  rw [log_nestedProgress, List.map_append, List.map_singleton]
  unfold nestedOutcome
  cases inner.failure <;> rfl

namespace Acts

variable {frame : Frame} {stepIndex : Nat} {step : ActionStep} {s : Session σ} {p : Progress σ}

theorem planned_log (acts : Acts r frame stepIndex step s p) : p.log.map StepOutcome.planned =
    [⟨frame.location, stepIndex, frame.depth, .action step.action⟩] := by
  cases acts with
  | unregistered => rfl
  | answered =>
    simp only [Progress.log, RunEvent.log_append, log_invocationEvents, RunEvent.log_cons_logged,
      log_answeredPause, List.nil_append, List.map_singleton]
    unfold answeredOutcome
    split <;> rfl

theorem failure_eq (acts : Acts r frame stepIndex step s p) {f : RunFailure}
    (failed : p.failure = some f) : ∃ error, f = frame.failure stepIndex error := by
  cases acts with
  | unregistered =>
    cases failed
    exact ⟨_, rfl⟩
  | answered =>
    obtain ⟨error, _, _, _, same⟩ := answeredFailure_eq_some (r := r) failed
    exact ⟨error, same⟩

end Acts

theorem Executes.logs {frame : Frame} {stepIndex : Nat} {steps : List Step} {s : Session σ}
    {p : Progress σ} (executed : Executes r frame stepIndex steps s p) {d : Document}
    (ready : Ready r S g frame d s) (ahead : d.steps.drop stepIndex = steps)
    (opened : frame.chain ≠ []) {plan : List PlannedStep}
    (expands : g.Expands frame.depth frame.location stepIndex steps plan) : Logs p plan := by
  induction executed generalizing d plan with
  | done =>
    cases expands
    exact ⟨fun _ => rfl, fun _ failed => by cases failed⟩
  | action acts clean _ ih =>
    cases expands with
    | action behind =>
      have kept := (acts.accords (g := g) ready.keeps).kept
      have later := ih (ready.move kept) (Document.drop_succ ahead) opened behind
      exact later.prepend acts.planned_log
  | actionFailed acts failed =>
    cases expands with
    | action behind =>
      constructor
      case passed =>
        intro passed
        cases failed.symm.trans passed
      case failed =>
        intro f same
        obtain ⟨error, rfl⟩ := acts.failure_eq same
        refine ⟨[], _, _, rfl, ?_, rfl, rfl, _, rfl⟩
        rw [acts.planned_log, around_eq_nil behind.depth_le]
        rfl
  | refused refused => exact absurd refused (ready.not_refused (Document.getElem?_of_drop ahead))
  | @nested frame stepIndex step _ s child _ _ _ opening executed clean _ ihInner ihLater =>
    cases expands with
    | workflow recorded document below behind =>
      obtain ⟨leads, _, rfl, inside⟩ := ready.opened (Document.getElem?_of_drop ahead) opening
      obtain ⟨rfl, rfl⟩ := leads.unique recorded document
      have deeper : (frame.inside step child).depth = frame.depth + 1 := Frame.depth_of_chain rfl opened
      have inner := ihInner inside rfl (by simp [Frame.inside, Frame.enter]) (deeper ▸ below)
      have kept := (executed.accords inside rfl).kept
      have later := ihLater (ready.move kept) (Document.drop_succ ahead) opened behind
      have first := planned_log_nestedProgress frame stepIndex step s child
      rw [List.append_cons]
      exact later.prepend ((first _).trans (by rw [inner.passed clean]))
  | @nestedFailed frame stepIndex step _ s child _ inner failure opening _ failed ih =>
    cases expands with
    | workflow recorded document below behind =>
      obtain ⟨leads, _, rfl, inside⟩ := ready.opened (Document.getElem?_of_drop ahead) opening
      obtain ⟨rfl, rfl⟩ := leads.unique recorded document
      have deeper : (frame.inside step child).depth = frame.depth + 1 := Frame.depth_of_chain rfl opened
      have within := ih inside rfl (by simp [Frame.inside, Frame.enter]) (deeper ▸ below)
      constructor
      case passed =>
        intro passed
        cases failed.symm.trans passed
      case failed =>
        intro f same
        -- The rest of this document is planned behind the step, but it is never logged.
        obtain ⟨done, fatal, later, halts⟩ := within.failed f same
        rw [planned_log_nestedProgress]
        exact ⟨done, fatal, _, halts.append below.depth_le behind.depth_le⟩

/-- The log of a run along a graph is the expansion of the graph. If the run fails, it is cut short at the
action step that failed, and goes on with the steps around that one. -/
theorem run_expands (r : Runner σ) (target : Target) (params : Params) (s : Session σ)
    (graph : ImportGraph) (cache : Cache) (lexical : r.resolver.normalization = .lexical)
    (keeps : r.registry.Keeps)
    (resolved : r.resolver.resolveTargetGraph s.host.files s.cache target = (.ok graph, cache)) :
    ∃ finished plan, Ends r graph target params s finished ∧
      graph.Expands 0 graph.entry 0 graph.entryDocument.steps plan ∧
      (∀ other, graph.Expands 0 graph.entry 0 graph.entryDocument.steps other → other = plan) ∧
      (∀ done p later, plan = done ++ p :: later →
        Nests graph 0 graph.entry p (around p.depth later)) ∧
      (finished.result.succeeded = true → finished.result.steps.map StepOutcome.planned = plan) ∧
      (finished.result.succeeded = false → ∃ f done fatal later, finished.result.failure = some f ∧
        Halts f (finished.result.steps.map StepOutcome.planned) plan done fatal later) := by
  obtain ⟨S, inner, ready, executed, ends⟩ := ends_of_resolved params lexical keeps resolved
  have represents := ready.covers.represents
  obtain ⟨plan, expands⟩ := represents.exists_expands
  have entered := represents.entered
  have logs : Logs inner plan := executed.logs ready rfl (by simp [Frame.enter]) (by
    rw [← entered] at expands
    exact expands)
  refine ⟨_, plan, ends, expands, fun other again => ?_, fun done p later => expands.nests, ?_, ?_⟩
  · rw [← entered] at expands again
    exact represents.expands_unique List.mem_cons_self rfl again expands
  · intro succeeded
    rw [Finished.ofProgress_steps]
    exact logs.passed (Finished.ofProgress_succeeded _ |>.1 succeeded)
  · intro unsuccessful
    rw [Finished.ofProgress_failure, Finished.ofProgress_steps]
    cases failed : inner.failure with
    | none => simp [Finished.ofProgress, Progress.behindEvent, failed, RunResult.completed] at unsuccessful
    | some f =>
      obtain ⟨done, fatal, later, halts⟩ := logs.failed f failed
      exact ⟨f, done, fatal, later, failed, halts⟩

/-- A failure inside the second of two imports of one document passes over the step behind them. -/
theorem run_expands_sample : ∃ finished f done fatal later,
    Ends Sample.runner Sample.graph (.location Sample.entry.location) ∅ Sample.session finished ∧
      finished.result.failure = some f ∧ finished.result.steps.length = 4 ∧
      Halts f (finished.result.steps.map StepOutcome.planned) Sample.plan done fatal later := by
  obtain ⟨finished, plan, ends, _, only, _, _, failed⟩ := run_expands Sample.runner
    (.location Sample.entry.location) ∅ Sample.session _ _ rfl Sample.keeps Sample.resolved
  obtain rfl := only _ Sample.expands_plan
  obtain rfl := ends.only 2 _ rfl
  obtain ⟨f, done, fatal, later, same, halts⟩ := failed rfl
  exact ⟨_, f, done, fatal, later, ends, same, rfl, halts⟩

end Runner

end WorkflowEngine
