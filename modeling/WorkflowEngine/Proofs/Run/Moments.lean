import WorkflowEngine.Proofs.Params.Lookup
import WorkflowEngine.Proofs.Run.Execution

/-! Which frames are open.

The events of a run tell at every moment which documents are being run and how each of them was reached. A
frame is open from its entering on, and it is left when a step outside it gets its entry in the log. Open
frames are nested: each but the first was entered through a workflow step of the one before it.
-/

set_option autoImplicit false

namespace WorkflowEngine

/-- A frame that was entered and has not been left, with the workflow step that led to it. -/
structure OpenFrame where
  via : Option WorkflowStep
  frame : Frame
  document : Document

structure Moment where
  /-- The workflow step that was taken up just now. -/
  taken : Option WorkflowStep
  /-- The open frames, the innermost one last. -/
  opened : List OpenFrame

namespace Moment

def start : Moment := ⟨none, []⟩

def after (m : Moment) : RunEvent → Moment
  | .importing _ _ step _ _ => ⟨some step, m.opened⟩
  | .entered frame d => ⟨none, m.opened ++ [⟨m.taken, frame, d⟩]⟩
  -- The frame of the logged step is the one at its depth, and those inside it have been left.
  | .logged o => ⟨none, m.opened.take (o.depth + 1)⟩
  | _ => m

def behind (m : Moment) (events : List RunEvent) : Moment := events.foldl after m

theorem behind_append (m : Moment) (first second : List RunEvent) :
    m.behind (first ++ second) = (m.behind first).behind second := List.foldl_append

theorem opened_after_logged {m : Moment} {outer : List OpenFrame} {inner : OpenFrame}
    {inside : List OpenFrame} (opened : m.opened = outer ++ inner :: inside) {o : StepOutcome}
    (depth : o.depth = outer.length) : (m.after (.logged o)).opened = outer ++ [inner] := by
  have cut : (outer ++ inner :: inside).take (outer.length + 1) = outer ++ [inner] := by
    rw [List.take_length_add_append]
    rfl
  simp only [after, opened, depth, cut]

/-- At every event of a list something holds of the moment before it and of the events behind it. -/
def Along (holds : Moment → RunEvent → List RunEvent → Prop) (m : Moment) :
    List RunEvent → List RunEvent → Prop
  | [], _ => True
  | e :: rest, later => holds m e (rest ++ later) ∧ Along holds (m.after e) rest later

section Along

variable {holds : Moment → RunEvent → List RunEvent → Prop} {m : Moment} {later : List RunEvent}

theorem along_append {first second : List RunEvent} :
    Along holds m (first ++ second) later ↔
      Along holds m first (second ++ later) ∧ Along holds (m.behind first) second later := by
  induction first generalizing m with
  | nil => simp [Along, behind]
  | cons e rest ih =>
    have next := ih (m := m.after e)
    simp only [List.cons_append, Along, next, List.append_assoc, and_assoc]
    rfl

theorem Along.at_event {events before rest : List RunEvent} {e : RunEvent}
    (along : Along holds m events later) (split : events = before ++ e :: rest) :
    holds (m.behind before) e (rest ++ later) := by
  subst split
  exact (along_append.1 along).2.1

end Along

end Moment

/-- Open frames: that of the entry, called with parameters, and behind it those entered through workflow
steps of the documents before them. -/
inductive Nested (entry : Document) (called : Params) : List OpenFrame → Prop
  | entry : Nested entry called [⟨none, .enter [] entry called, entry⟩]
  | inner {outer : List OpenFrame} {importer : OpenFrame} {stepIndex : Nat} {step : WorkflowStep}
      {child : Document} :
      Nested entry called (outer ++ [importer]) →
      importer.document.steps[stepIndex]? = some (.workflow step) →
      Nested entry called
        (outer ++ [importer] ++ [⟨some step, importer.frame.inside step child, child⟩])

theorem Nested.length_chain {entry : Document} {called : Params} {frames : List OpenFrame}
    (nested : Nested entry called frames) {last : OpenFrame} (ends : frames.getLast? = some last) :
    last.frame.chain.length = frames.length := by
  induction nested generalizing last with
  | entry =>
    cases ends
    rfl
  | @inner outer importer _ step child _ _ ih =>
    rw [List.getLast?_concat] at ends
    cases ends
    have above := ih List.getLast?_concat
    simp only [Frame.inside, Frame.enter, List.length_append, List.length_singleton] at above ⊢
    rw [above]

theorem Nested.depth {entry : Document} {called : Params} {outer : List OpenFrame} {inner : OpenFrame}
    (nested : Nested entry called (outer ++ [inner])) : inner.frame.depth = outer.length := by
  have length := nested.length_chain List.getLast?_concat
  rw [Frame.depth, length, List.length_append, List.length_singleton, Nat.add_sub_cancel]

namespace Runner

variable {σ : Type} {r : Runner σ} {entry : Document} {called : Params}

/-- An invocation is made for an action step of the innermost document, whose entry is the next one in
the log. It gets the names that the step declares, with the values of the frame where it has one. -/
structure Invokes (inner : OpenFrame) (action : String) (given : Params) (later : List RunEvent)
    (stepIndex : Nat) (step : ActionStep) : Prop where
  found : inner.document.steps[stepIndex]? = some (.action step)
  named : step.action = action
  keys : given.keys = step.params.keys
  values : ∀ key, given.find? key = (step.params.find? key).map fun v =>
    (inner.frame.params.find? key).getD (inner.frame.params.renderValue v)
  logged : ∃ o, (RunEvent.log later).head? = some o ∧ o.workflow = inner.frame.location ∧
    o.stepIndex = stepIndex ∧ o.depth = inner.frame.depth

/-- The frames that are open behind an event are nested, and an invocation is one of the innermost. -/
structure Placed (entry : Document) (called : Params) (m : Moment) (e : RunEvent)
    (later : List RunEvent) : Prop where
  nested : Nested entry called (m.after e).opened
  invokes : ∀ action given answer, e = .invoked action given answer →
    ∃ outer inner stepIndex step, m.opened = outer ++ [inner] ∧
      Invokes inner action given later stepIndex step

theorem Placed.of_nested {m : Moment} {e : RunEvent} {later : List RunEvent}
    (nested : Nested entry called (m.after e).opened) (silent : e.invocation? = none) :
    Placed entry called m e later where
  nested := nested
  invokes := by
    rintro action given answer rfl
    cases silent

/-- Events are placed, and the same frames are open behind them as before. -/
def Places (entry : Document) (called : Params) (m : Moment) (events : List RunEvent) : Prop :=
  (∀ later, m.Along (Placed entry called) events later) ∧ (m.behind events).opened = m.opened

section Places

variable {m : Moment} {e : RunEvent} {first second rest : List RunEvent}

theorem Places.nil (m : Moment) : Places entry called m [] := ⟨fun _ => trivial, rfl⟩

theorem Places.append (places : Places entry called m first)
    (behind : Places entry called (m.behind first) second) : Places entry called m (first ++ second) where
  left later := Moment.along_append.2 ⟨places.1 _, behind.1 later⟩
  right := by rw [Moment.behind_append, behind.2, places.2]

theorem Places.cons (placed : ∀ later, Placed entry called m e (rest ++ later))
    (kept : (m.after e).opened = m.opened) (behind : Places entry called (m.after e) rest) :
    Places entry called m (e :: rest) where
  left later := ⟨placed later, behind.1 later⟩
  right := behind.2.trans kept

def Quiet : RunEvent → Prop
  | .noted _ => True
  | .paused _ => True
  | _ => False

theorem Quiet.after_eq (quiet : Quiet e) : m.after e = m ∧ e.invocation? = none := by
  cases e <;> first | exact quiet.elim | exact ⟨rfl, rfl⟩

theorem places_quiet {events : List RunEvent} (quiet : ∀ e ∈ events, Quiet e)
    (nested : Nested entry called m.opened) : Places entry called m events := by
  induction events with
  | nil => exact .nil m
  | cons e rest ih =>
    obtain ⟨here, others⟩ := List.forall_mem_cons.1 quiet
    obtain ⟨kept, silent⟩ := here.after_eq (m := m)
    refine .cons (fun later => .of_nested ?_ silent) (congrArg Moment.opened kept) ?_
    · rwa [kept]
    · rw [kept]
      exact ih others

theorem quiet_notes (notes : List Note) : ∀ e ∈ notes.map RunEvent.noted, Quiet e := by
  simp [Quiet]

theorem quiet_answeredPause (step : ActionStep) (answer : Except Error Bool) :
    ∀ e ∈ answeredPause r step answer, Quiet e := by
  unfold answeredPause pauseEvents
  split
  · split <;> simp [Quiet]
  · simp

end Places

theorem answeredOutcome_place (frame : Frame) (stepIndex : Nat) (step : ActionStep)
    (answer : Except Error Bool) :
    (answeredOutcome frame stepIndex step answer).workflow = frame.location ∧
      (answeredOutcome frame stepIndex step answer).stepIndex = stepIndex ∧
      (answeredOutcome frame stepIndex step answer).depth = frame.depth := by
  unfold answeredOutcome
  split <;> exact ⟨rfl, rfl, rfl⟩

section Steps

variable {m : Moment} {outer : List OpenFrame} {via : Option WorkflowStep} {frame : Frame}
  {d : Document} {stepIndex : Nat} {s : Session σ} {p : Progress σ}

theorem placed_logged {inside : List OpenFrame} {o : StepOutcome}
    (opened : m.opened = outer ++ ⟨via, frame, d⟩ :: inside)
    (nested : Nested entry called (outer ++ [⟨via, frame, d⟩])) (depth : o.depth = frame.depth) :
    (m.after (.logged o)).opened = outer ++ [⟨via, frame, d⟩] ∧
      ∀ later, Placed entry called m (.logged o) later := by
  have left := Moment.opened_after_logged opened (depth.trans nested.depth)
  exact ⟨left, fun _ => .of_nested (left ▸ nested) rfl⟩

theorem places_logged {o : StepOutcome} (opened : m.opened = outer ++ [⟨via, frame, d⟩])
    (nested : Nested entry called m.opened) (depth : o.depth = frame.depth) {rest : List RunEvent}
    (quiet : ∀ e ∈ rest, Quiet e) : Places entry called m (.logged o :: rest) := by
  obtain ⟨left, placed⟩ := placed_logged opened (opened ▸ nested) depth
  have kept := left.trans opened.symm
  exact .cons (fun _ => placed _) kept (places_quiet quiet (kept ▸ nested))

theorem Acts.places {step : ActionStep} (acts : Acts r frame stepIndex step s p)
    (opened : m.opened = outer ++ [⟨via, frame, d⟩]) (nested : Nested entry called m.opened)
    (found : d.steps[stepIndex]? = some (.action step)) : Places entry called m p.events := by
  cases acts with
  | unregistered => exact places_logged opened nested rfl (by simp)
  | @answered action reply _ _ =>
    obtain ⟨workflow, index, depth⟩ := answeredOutcome_place frame stepIndex step reply.verdict
    have rest : Places entry called m (reply.notes.map .noted ++
        .logged (answeredOutcome frame stepIndex step reply.verdict) ::
          answeredPause r step reply.verdict) := by
      have notes := places_quiet (quiet_notes reply.notes) nested
      exact notes.append (places_logged (notes.2.trans opened) (notes.2 ▸ nested) depth
        (quiet_answeredPause step reply.verdict))
    refine .cons (fun later => ⟨nested, ?_⟩) rfl rest
    rintro _ _ _ ⟨rfl, rfl, rfl⟩
    refine ⟨outer, _, stepIndex, step, opened, found, rfl, Params.keys_forAction _ _,
      Params.find?_forAction _ _, _, ?_, workflow, index, depth⟩
    have silent : RunEvent.log (reply.notes.map .noted) = [] := by
      simp [RunEvent.log, RunEvent.outcome?]
    simp [silent]

theorem places_nestedProgress {step : WorkflowStep} {child : Document} {inner : Progress σ}
    (s : Session σ)
    (opened : m.opened = outer ++ [⟨via, frame, d⟩]) (nested : Nested entry called m.opened)
    (found : d.steps[stepIndex]? = some (.workflow step))
    (inside : ∀ m : Moment,
      m.opened = outer ++ [⟨via, frame, d⟩] ++ [⟨some step, frame.inside step child, child⟩] →
        Nested entry called m.opened → Places entry called m inner.events) :
    Places entry called m (nestedProgress frame stepIndex step s child inner).events := by
  let entered : Moment := ⟨none, m.opened ++ [⟨some step, frame.inside step child, child⟩]⟩
  have below : entered.opened =
      outer ++ [⟨via, frame, d⟩] ++ [⟨some step, frame.inside step child, child⟩] := by
    rw [← opened]
  have deeper : Nested entry called entered.opened := by
    rw [below]
    exact .inner (opened ▸ nested) found
  obtain ⟨along, kept⟩ := inside entered below deeper
  -- The entry of the step is logged in its own frame, with that of the document still open.
  have open' : (entered.behind inner.events).opened =
      outer ++ ⟨via, frame, d⟩ :: [⟨some step, frame.inside step child, child⟩] :=
    kept.trans (below.trans (List.append_assoc ..))
  have depth : (nestedOutcome frame stepIndex step child.location inner.failure).depth = frame.depth := by
    unfold nestedOutcome
    split <;> rfl
  obtain ⟨left, placed⟩ := placed_logged open' (opened ▸ nested) depth
  have events : (nestedProgress frame stepIndex step s child inner).events =
      .importing frame stepIndex step s.host.files s.cache ::
        .entered (frame.inside step child) child ::
        (inner.events ++ [.logged (nestedOutcome frame stepIndex step child.location inner.failure)]) := rfl
  rw [events]
  constructor
  · intro later
    have closing : (entered.behind inner.events).Along (Placed entry called)
        [.logged (nestedOutcome frame stepIndex step child.location inner.failure)] later :=
      ⟨placed later, trivial⟩
    exact ⟨.of_nested nested rfl, .of_nested deeper rfl,
      Moment.along_append.2 ⟨along (_ ++ later), closing⟩⟩
  · have last := Moment.behind_append entered inner.events
      [.logged (nestedOutcome frame stepIndex step child.location inner.failure)]
    exact (congrArg Moment.opened last).trans (left.trans opened.symm)

theorem Executes.places {steps : List Step} (executed : Executes r frame stepIndex steps s p)
    (opened : m.opened = outer ++ [⟨via, frame, d⟩]) (nested : Nested entry called m.opened)
    (ahead : d.steps.drop stepIndex = steps) : Places entry called m p.events := by
  -- A step leaves the frames open that were open before it, so the next one is placed there, too.
  induction executed generalizing m outer via d with
  | done => exact .nil m
  | action acts _ _ ih =>
    have first := acts.places opened nested (Document.getElem?_of_drop ahead)
    exact first.append (ih (first.2.trans opened) (first.2 ▸ nested) (Document.drop_succ ahead))
  | actionFailed acts => exact acts.places opened nested (Document.getElem?_of_drop ahead)
  | @refused frame stepIndex step _ s _ _ _ _ =>
    exact .cons (fun _ => .of_nested nested rfl) rfl
      (places_logged (m := m.after (.importing frame stepIndex step s.host.files s.cache)) opened nested
        rfl (by simp))
  | @nested _ _ _ _ s _ _ _ _ _ _ _ _ ihInner ihLater =>
    have first := places_nestedProgress s opened nested (Document.getElem?_of_drop ahead)
      fun m below deeper => ihInner below deeper rfl
    exact first.append (ihLater (first.2.trans opened) (first.2 ▸ nested) (Document.drop_succ ahead))
  | nestedFailed _ _ _ ih =>
    exact places_nestedProgress _ opened nested (Document.getElem?_of_drop ahead)
      fun m below deeper => ih below deeper rfl

end Steps

/-- Every event of a run is placed, from the entering of its entry document on. -/
theorem placed_of_run {budget : Nat} {target : Target} {s : Session σ} {finished : Finished σ}
    {graph : ImportGraph} {cache : Cache}
    (resolved : r.resolver.resolveTargetGraph s.host.files s.cache target = (.ok graph, cache))
    (ran : r.run budget target called s = some finished) {before later : List RunEvent} {e : RunEvent}
    (split : finished.events = before ++ e :: later) :
    Placed graph.entryDocument called (Moment.start.behind before) e later := by
  rw [run_eq, resolved] at ran
  obtain ⟨p, began, rfl⟩ := Option.map_eq_some_iff.1 ran
  obtain ⟨inner, executed, rfl⟩ := executes_of_runDocument began
  have entered : Placed graph.entryDocument called .start
      (.entered (.enter [] graph.entryDocument called) graph.entryDocument) inner.events :=
    .of_nested .entry rfl
  have along : Moment.start.Along (Placed graph.entryDocument called)
      (.entered (.enter [] graph.entryDocument called) graph.entryDocument :: inner.events) [] := by
    refine ⟨by rwa [List.append_nil], ?_⟩
    have opened : (Moment.start.after
        (.entered (.enter [] graph.entryDocument called) graph.entryDocument)).opened =
          [] ++ [⟨none, .enter [] graph.entryDocument called, graph.entryDocument⟩] := rfl
    exact (executed.places opened .entry rfl).1 []
  have placed := along.at_event split
  rwa [List.append_nil] at placed

end Runner

end WorkflowEngine
