import WorkflowEngine.Proofs.Document.Waits
import WorkflowEngine.Proofs.Run.Moments

/-! When a run pauses, and for how long.

An entry of the log belongs to a step of the innermost open document. After the entry of an action that has
succeeded comes the pause that its step asks for, or else the runner's own, unless that is nothing. No other
entry has a pause behind it.
-/

set_option autoImplicit false

namespace WorkflowEngine

def Document.Parsed (d : Document) : Prop := ∃ text, ofText d.location text = .ok d

def Cache.Parsed (c : Cache) : Prop := ∀ l d, c.find? l = some d → d.Parsed

theorem Document.Parsed.waits {d : Document} (parsed : d.Parsed) : ∀ step ∈ d.steps, step.Waits := by
  obtain ⟨_, read⟩ := parsed
  exact waits_ofText read

theorem FileSystem.parsed_of_readDocument {fs : FileSystem} {l : Location} {d : Document}
    (read : fs.readDocument l = .ok d) : d.Parsed := by
  obtain rfl := location_readDocument read
  unfold readDocument at read
  split at read
  · cases read
  · cases read
  · split at read
    · rename_i text _ _ _ parsed
      cases read
      exact ⟨text, parsed⟩
    · cases read

namespace Cache.Parsed

variable {c : Cache} {fs : FileSystem} {l : Location}

theorem empty : Cache.empty.Parsed := fun _ _ found => nomatch found

theorem document {d : Document} (parsed : c.Parsed) (read : c.document fs l = .ok d) : d.Parsed := by
  unfold Cache.document at read
  split at read
  · rename_i found
    cases read
    exact parsed l _ found
  · exact FileSystem.parsed_of_readDocument read

theorem load (parsed : c.Parsed) (fs : FileSystem) (l : Location) : (c.load fs l).2.Parsed := by
  intro other d found
  rw [find?_load] at found
  split at found
  · exact parsed.document (toOption_eq_some_iff.1 found)
  · exact parsed other d found

end Cache.Parsed

theorem Explores.parsed {S : Sources} {fs : FileSystem} {chain : List Location} {w : Location}
    {imports : List (Nat × WorkflowStep)} {settled : List Location} {cache : Cache} {f : Findings}
    (explored : Explores S fs chain w imports settled cache f) (parsed : cache.Parsed) :
    f.cache.Parsed := by
  induction explored with
  | done => exact parsed
  | again _ _ _ _ ih => exact ih parsed
  | entered _ _ _ _ _ _ ihInner ihLater => exact ihLater (ihInner (parsed.load _ _))

theorem Resolver.parsed_of_resolveTargetGraph {r : Resolver} {fs : FileSystem} {cache after : Cache}
    {target : Target} {g : ImportGraph}
    (resolved : r.resolveTargetGraph fs cache target = (.ok g, after)) (parsed : cache.Parsed) :
    g.entryDocument.Parsed ∧ after.Parsed := by
  obtain ⟨d, f, read, explored, same, rfl⟩ :=
    explores_of_resolveGraph (resolveGraph_of_resolveTargetGraph resolved)
  rw [same]
  exact ⟨parsed.document read, explored.parsed (parsed.load _ _)⟩

namespace RunEvent

def pause? : RunEvent → Option Nanoseconds
  | .paused duration => some duration
  | _ => none

def pauses (events : List RunEvent) : List Nanoseconds := events.filterMap pause?

@[simp]
theorem pauses_append (first second : List RunEvent) :
    pauses (first ++ second) = pauses first ++ pauses second := List.filterMap_append

end RunEvent

namespace Moment

def step? (m : Moment) (stepIndex : Nat) : Option Step :=
  m.opened.getLast?.bind fun inner => inner.document.steps[stepIndex]?

/-- The entries that events leave in the log, each with the step that it belongs to. -/
def entries (m : Moment) : List RunEvent → List (StepOutcome × Option Step)
  | [] => []
  | e :: rest =>
    (e.outcome?.map fun o => (o, (m.after e).step? o.stepIndex)).toList ++ entries (m.after e) rest

theorem entries_append (m : Moment) (first second : List RunEvent) :
    m.entries (first ++ second) = m.entries first ++ (m.behind first).entries second := by
  induction first generalizing m with
  | nil => rfl
  | cons e rest ih => simp only [List.cons_append, entries, ih, List.append_assoc, behind, List.foldl]

theorem map_entries (m : Moment) (events : List RunEvent) :
    (m.entries events).map Prod.fst = RunEvent.log events := by
  induction events generalizing m with
  | nil => rfl
  | cons e rest ih =>
    rw [entries, List.map_append, ih]
    unfold RunEvent.log
    rw [List.filterMap_cons]
    cases e.outcome? <;> rfl

theorem entries_eq_nil {m : Moment} {events : List RunEvent} (silent : RunEvent.log events = []) :
    m.entries events = [] :=
  List.map_eq_nil_iff.1 ((m.map_entries events).trans silent)

/-- An entry that is logged in an open frame belongs to a step of its document, and the frames inside are
left. -/
theorem entries_logged {m : Moment} {outer inside : List OpenFrame} {inner : OpenFrame}
    {o : StepOutcome} {step : Step} (opened : m.opened = outer ++ inner :: inside)
    (depth : o.depth = outer.length) (found : inner.document.steps[o.stepIndex]? = some step) :
    m.entries [.logged o] = [(o, some step)] := by
  have left := opened_after_logged opened depth
  simp [entries, RunEvent.outcome?, step?, left, found]

end Moment

/-- A step is what an entry of the log says that was tried. -/
def Step.Meets : Step → StepTarget → Prop
  | .action step, .action name => step.action = name
  | .workflow step, .workflow reference _ => step.workflow = reference
  | _, _ => False

/-- The pause that a step asks for, if it is made without one's own given. -/
def ActionStep.askedPause (step : ActionStep) (default : Nanoseconds) : Nanoseconds :=
  match step.waitAfter with
  | some seconds => seconds.nanoseconds
  | none => default

/-- The pause after an entry of the log: there is one if it is that of an action that has succeeded. -/
def askedPause? (default : Nanoseconds) : StepOutcome × Option Step → Option Nanoseconds
  | (o, some (.action step)) => if o.succeeded then some (step.askedPause default) else none
  | _ => none

namespace Runner

variable {σ : Type} {r : Runner σ} {entry : Document} {called : Params}

theorem pauseAfter_of_waits {step : ActionStep} (waits : step.Waits) :
    r.pauseAfter step = step.askedPause r.defaultPause := by
  unfold pauseAfter ActionStep.askedPause
  cases given : step.waitAfter with
  | none => rfl
  | some seconds => simp only [Nanoseconds.ofSeconds_of_within (waits seconds given) (by decide)]

theorem pauses_pauseEvents (duration : Nanoseconds) :
    RunEvent.pauses (pauseEvents duration) = [duration].filter (· ≠ 0) := by
  unfold pauseEvents
  by_cases none : duration = 0 <;> simp [none, RunEvent.pauses, RunEvent.pause?]

theorem pauses_invocationEvents (action : String) (params : Params) (reply : Reply σ) :
    RunEvent.pauses (invocationEvents action params reply) = [] := by
  simp [invocationEvents, RunEvent.pauses, RunEvent.pause?]

theorem behind_quiet {m : Moment} {events : List RunEvent} (quiet : ∀ e ∈ events, Quiet e) :
    m.behind events = m := by
  induction events with
  | nil => rfl
  | cons e rest ih =>
    obtain ⟨here, others⟩ := List.forall_mem_cons.1 quiet
    have kept := (here.after_eq (m := m)).1
    rw [Moment.behind, List.foldl_cons, kept]
    exact ih others

theorem behind_invocationEvents (m : Moment) (action : String) (params : Params) (reply : Reply σ) :
    m.behind (invocationEvents action params reply) = m := by
  have same : m.behind (invocationEvents action params reply) = m.behind (reply.notes.map .noted) := rfl
  rw [same, behind_quiet (quiet_notes reply.notes)]

/-- A part of a run pauses as its entries ask for, each of which belongs to a step. Documents that it enters
or leaves in the cache were read from texts. -/
structure Paced (r : Runner σ) (m : Moment) (p : Progress σ) : Prop where
  pauses : RunEvent.pauses p.events =
    ((m.entries p.events).filterMap (askedPause? r.defaultPause)).filter (· ≠ 0)
  met : ∀ o step?, (o, step?) ∈ m.entries p.events → ∃ step, step? = some step ∧ step.Meets o.target
  entered : ∀ frame d, .entered frame d ∈ p.events → d.Parsed
  cached : p.session.cache.Parsed

theorem Paced.append {m : Moment} {first later : Progress σ} (paced : Paced r m first)
    (behind : Paced r (m.behind first.events) later) : Paced r m (first.append later) where
  pauses := by
    simp only [Progress.append, RunEvent.pauses_append, Moment.entries_append, List.filterMap_append,
      List.filter_append, paced.pauses, behind.pauses]
  met o step? member := by
    rw [Progress.append, Moment.entries_append] at member
    rcases List.mem_append.1 member with member | member
    · exact paced.met o step? member
    · exact behind.met o step? member
  entered frame d member := by
    rcases List.mem_append.1 member with member | member
    · exact paced.entered frame d member
    · exact behind.entered frame d member
  cached := behind.cached

theorem Paced.behindEvent {m : Moment} {e : RunEvent} {p : Progress σ} (silent : e.outcome? = none)
    (unpaused : e.pause? = none) (parsed : ∀ frame d, e = .entered frame d → d.Parsed)
    (paced : Paced r (m.after e) p) : Paced r m (p.behindEvent e) := by
  have entries : m.entries (p.behindEvent e).events = (m.after e).entries p.events := by
    simp [Progress.behindEvent, Moment.entries, silent]
  have pauses : RunEvent.pauses (p.behindEvent e).events = RunEvent.pauses p.events :=
    List.filterMap_cons_none unpaused
  constructor
  case pauses => rw [pauses, entries, paced.pauses]
  case met =>
    rw [entries]
    exact paced.met
  case entered =>
    intro frame d member
    rcases List.mem_cons.1 member with same | member
    · exact parsed frame d same.symm
    · exact paced.entered frame d member
  case cached => exact paced.cached

theorem Paced.single {m : Moment} {p : Progress σ} {o : StepOutcome} {step : Step}
    (entries : m.entries p.events = [(o, some step)]) (meets : step.Meets o.target)
    (pauses : RunEvent.pauses p.events =
      (askedPause? r.defaultPause (o, some step)).toList.filter (· ≠ 0))
    (none_entered : ∀ frame d, .entered frame d ∉ p.events) (cached : p.session.cache.Parsed) :
    Paced r m p where
  pauses := by
    rw [pauses, entries, List.filterMap_cons]
    cases askedPause? r.defaultPause (o, some step) <;> rfl
  met other step? member := by
    rw [entries, List.mem_singleton] at member
    cases member
    exact ⟨step, rfl, meets⟩
  entered frame d member := absurd member (none_entered frame d)
  cached := cached

theorem parsed_of_opened {frame : Frame} {step : WorkflowStep} {s : Session σ} {target : Location}
    {d : Document} {cache : Cache} (opening : r.openImport frame step s = .opened target d cache)
    (cached : s.cache.Parsed) : d.Parsed ∧ cache.Parsed := by
  obtain ⟨_, _, loaded, _⟩ := openImport_eq_opened opening
  have read := Cache.load_fst s.cache s.host.files target
  have kept := cached.load s.host.files target
  rw [loaded] at read kept
  exact ⟨cached.document read.symm, kept⟩

theorem parsed_of_refused {frame : Frame} {step : WorkflowStep} {s : Session σ}
    {meant : Option Location} {error : Error} {cache : Cache}
    (refused : r.openImport frame step s = .refused meant error cache) (cached : s.cache.Parsed) :
    cache.Parsed := by
  unfold openImport at refused
  split at refused
  · cases refused
    exact cached
  · rename_i target _
    split at refused
    · cases refused
      exact cached
    · split at refused
      · rename_i unloaded
        cases refused
        have kept := cached.load s.host.files target
        rwa [unloaded] at kept
      · cases refused

section Steps

variable {m : Moment} {outer : List OpenFrame} {via : Option WorkflowStep} {frame : Frame}
  {d : Document} {stepIndex : Nat} {s : Session σ} {p : Progress σ}

theorem Acts.paced {step : ActionStep} (acts : Acts r frame stepIndex step s p)
    (opened : m.opened = outer ++ [⟨via, frame, d⟩]) (nested : Nested entry called m.opened)
    (found : d.steps[stepIndex]? = some (.action step)) (waits : step.Waits)
    (cached : s.cache.Parsed) : Paced r m p := by
  have depth : frame.depth = outer.length := (opened ▸ nested).depth
  cases acts with
  | unregistered =>
    exact .single (Moment.entries_logged opened depth found) rfl rfl (by simp) cached
  | @answered action reply _ _ =>
    obtain ⟨_, index, same⟩ := answeredOutcome_place frame stepIndex step reply.verdict
    have logged : m.entries (invocationEvents step.action (frame.params.forAction step.params) reply ++
        .logged (answeredOutcome frame stepIndex step reply.verdict) ::
          answeredPause r step reply.verdict) =
        [(answeredOutcome frame stepIndex step reply.verdict, some (.action step))] := by
      rw [Moment.entries_append, behind_invocationEvents, ← List.singleton_append,
        Moment.entries_append, Moment.entries_logged opened (same.trans depth) (index ▸ found)]
      simp [Moment.entries_eq_nil]
    -- An invocation leaves no entry, so the pause stands behind the only one.
    refine .single logged ?_ ?_ ?_ ?_
    · unfold answeredOutcome
      cases actionError step.action reply.verdict <;> rfl
    · rw [RunEvent.pauses_append, pauses_invocationEvents, List.nil_append]
      unfold answeredOutcome answeredPause
      cases actionError step.action reply.verdict with
      | none =>
        have paused := pauses_pauseEvents (r.pauseAfter step)
        rw [pauseAfter_of_waits waits] at paused ⊢
        exact paused
      | some error => rfl
    · intro inner child member
      rcases List.mem_append.1 member with member | member
      · simp [invocationEvents] at member
      · rcases List.mem_cons.1 member with same | member
        · cases same
        · exact quiet_answeredPause step reply.verdict _ member
    · unfold afterReply
      dsimp only
      split
      · exact .empty
      · exact cached

theorem paced_refuseNested {step : WorkflowStep} {target : Option Location} {error : Error}
    {cache : Cache} (opened : m.opened = outer ++ [⟨via, frame, d⟩])
    (nested : Nested entry called m.opened) (found : d.steps[stepIndex]? = some (.workflow step))
    (cached : cache.Parsed) : Paced r m (refuseNested frame stepIndex step s target error cache) := by
  have depth : frame.depth = outer.length := (opened ▸ nested).depth
  have taken : (m.after (.importing frame stepIndex step s.host.files s.cache)).opened =
      outer ++ [⟨via, frame, d⟩] := opened
  refine .single (Moment.entries_logged taken depth found) rfl rfl ?_ cached
  simp [refuseNested]

theorem nestedOutcome_place (frame : Frame) (stepIndex : Nat) (step : WorkflowStep)
    (target : Location) (failure : Option RunFailure) :
    (nestedOutcome frame stepIndex step target failure).stepIndex = stepIndex ∧
      (nestedOutcome frame stepIndex step target failure).depth = frame.depth ∧
      (Step.workflow step).Meets (nestedOutcome frame stepIndex step target failure).target := by
  unfold nestedOutcome
  cases failure <;> exact ⟨rfl, rfl, rfl⟩

theorem paced_nestedProgress {step : WorkflowStep} {child : Document} {inner : Progress σ}
    (s : Session σ) (opened : m.opened = outer ++ [⟨via, frame, d⟩])
    (nested : Nested entry called m.opened) (found : d.steps[stepIndex]? = some (.workflow step))
    (parsed : child.Parsed)
    (inside : ∀ m : Moment,
      m.opened = outer ++ [⟨via, frame, d⟩] ++ [⟨some step, frame.inside step child, child⟩] →
        Nested entry called m.opened →
          Paced r m inner ∧ (m.behind inner.events).opened = m.opened) :
    Paced r m (nestedProgress frame stepIndex step s child inner) := by
  -- The moment at which the document has been entered and none of its steps taken.
  let below : Moment := ⟨none, m.opened ++ [⟨some step, frame.inside step child, child⟩]⟩
  have open' : below.opened =
      outer ++ [⟨via, frame, d⟩] ++ [⟨some step, frame.inside step child, child⟩] := by
    rw [← opened]
  have deeper : Nested entry called below.opened := by
    rw [open']
    exact .inner (opened ▸ nested) found
  obtain ⟨paced, kept⟩ := inside below open' deeper
  obtain ⟨index, depth, meets⟩ :=
    nestedOutcome_place frame stepIndex step child.location inner.failure
  let o := nestedOutcome frame stepIndex step child.location inner.failure
  have closing : (below.behind inner.events).entries [.logged o] = [(o, some (.workflow step))] := by
    have left : (below.behind inner.events).opened =
        outer ++ ⟨via, frame, d⟩ :: [⟨some step, frame.inside step child, child⟩] :=
      kept.trans (open'.trans (List.append_assoc ..))
    exact Moment.entries_logged left (depth.trans (opened ▸ nested).depth) (index ▸ found)
  have last : Paced r (below.behind inner.events) ⟨[.logged o], inner.session, inner.failure⟩ :=
    .single closing meets rfl (by simp) paced.cached
  have entered : Paced r (m.after (.importing frame stepIndex step s.host.files s.cache))
      ((inner.append ⟨[.logged o], inner.session, inner.failure⟩).behindEvent
        (.entered (frame.inside step child) child)) := by
    refine (paced.append last).behindEvent rfl rfl ?_
    rintro _ _ ⟨rfl, rfl⟩
    exact parsed
  exact entered.behindEvent rfl rfl (by rintro _ _ ⟨⟩)

theorem Executes.paced {steps : List Step} (executed : Executes r frame stepIndex steps s p)
    (opened : m.opened = outer ++ [⟨via, frame, d⟩]) (nested : Nested entry called m.opened)
    (ahead : d.steps.drop stepIndex = steps) (parsed : d.Parsed) (cached : s.cache.Parsed) :
    Paced r m p := by
  -- A step keeps the frames that are open, so the steps behind it are paced in the same ones.
  induction executed generalizing m outer via d with
  | done => exact ⟨rfl, by simp [Progress.start, Moment.entries], by simp [Progress.start], cached⟩
  | action acts _ _ ih =>
    have found := Document.getElem?_of_drop ahead
    have first := acts.paced opened nested found (parsed.waits _ (List.mem_of_getElem? found)) cached
    have kept := (acts.places opened nested found).2
    exact first.append (ih (kept.trans opened) (kept ▸ nested) (Document.drop_succ ahead) parsed first.cached)
  | actionFailed acts =>
    have found := Document.getElem?_of_drop ahead
    exact acts.paced opened nested found (parsed.waits _ (List.mem_of_getElem? found)) cached
  | refused refused =>
    exact paced_refuseNested opened nested (Document.getElem?_of_drop ahead)
      (parsed_of_refused refused cached)
  | @nested _ _ _ _ s _ _ _ _ opening executed _ _ ihInner ihLater =>
    have found := Document.getElem?_of_drop ahead
    obtain ⟨read, kept⟩ := parsed_of_opened opening cached
    have first := paced_nestedProgress s opened nested found read fun m below deeper =>
      ⟨ihInner below deeper rfl read kept, (executed.places below deeper rfl).2⟩
    have same := (places_nestedProgress s opened nested found fun m below deeper =>
      executed.places below deeper rfl).2
    exact first.append (ihLater (same.trans opened) (same ▸ nested) (Document.drop_succ ahead) parsed
      first.cached)
  | nestedFailed opening executed _ ih =>
    have found := Document.getElem?_of_drop ahead
    obtain ⟨read, kept⟩ := parsed_of_opened opening cached
    exact paced_nestedProgress _ opened nested found read fun m below deeper =>
      ⟨ih below deeper rfl read kept, (executed.places below deeper rfl).2⟩

end Steps

/-- A run over documents that were read from texts pauses as the entries of its log ask for. Each belongs to a
step of the document around it, and every wait that a text gives is a duration of at most an hour. -/
theorem run_pauses (r : Runner σ) (budget : Nat) (target : Target) (params : Params) (s : Session σ)
    (finished : Finished σ) (parsed : s.cache.Parsed)
    (ran : r.run budget target params s = some finished) :
    RunEvent.pauses finished.events =
        ((Moment.start.entries finished.events).filterMap (askedPause? r.defaultPause)).filter (· ≠ 0) ∧
      (Moment.start.entries finished.events).map Prod.fst = finished.result.steps ∧
      (∀ o step?, (o, step?) ∈ Moment.start.entries finished.events →
        ∃ step, step? = some step ∧ step.Meets o.target) ∧
      (∀ frame d, .entered frame d ∈ finished.events → d.Parsed) ∧
      ∀ (d : Document) (step : ActionStep) (seconds : Binary64), d.Parsed → .action step ∈ d.steps →
        step.waitAfter = some seconds →
        seconds.Within 3600 ∧ Nanoseconds.ofSeconds seconds = .ok seconds.nanoseconds := by
  have waits : ∀ (d : Document) (step : ActionStep) (seconds : Binary64), d.Parsed →
      .action step ∈ d.steps → step.waitAfter = some seconds →
      seconds.Within 3600 ∧ Nanoseconds.ofSeconds seconds = .ok seconds.nanoseconds := by
    intro d step seconds parsed member given
    have within : seconds.Within 3600 := parsed.waits _ member seconds given
    have small : 3600 < Nat.pow 2 64 := by decide
    exact ⟨within, Nanoseconds.ofSeconds_of_within within small⟩
  rw [run_eq] at ran
  split at ran
  · cases ran
    exact ⟨rfl, rfl, by simp [Finished.refused, Moment.entries], by simp [Finished.refused], waits⟩
  · rename_i graph cache resolved
    obtain ⟨p, began, rfl⟩ := Option.map_eq_some_iff.1 ran
    obtain ⟨inner, executed, rfl⟩ := executes_of_runDocument began
    obtain ⟨read, kept⟩ := Resolver.parsed_of_resolveTargetGraph resolved parsed
    -- The run is paced from the moment before its entry document is entered.
    have paced : Paced r .start (inner.behindEvent
        (.entered (.enter [] graph.entryDocument params) graph.entryDocument)) := by
      have opened : (Moment.start.after
          (.entered (.enter [] graph.entryDocument params) graph.entryDocument)).opened =
            [] ++ [⟨none, .enter [] graph.entryDocument params, graph.entryDocument⟩] := rfl
      refine (executed.paced opened .entry rfl read kept).behindEvent rfl rfl ?_
      rintro _ _ ⟨rfl, rfl⟩
      exact read
    refine ⟨paced.pauses, ?_, paced.met, paced.entered, waits⟩
    rw [Finished.ofProgress_steps]
    exact Moment.map_entries _ _

end Runner

namespace Sample

/-- Files with a rota, and with the chores that it imports. One of these may fail, another has a wait of
minus zero. -/
def rota : FileSystem where
  entries := ((∅ : Dictionary Location Entry).insert ⟨["a.y"]⟩
      (.file (.text "steps:\n- action: noop\n  wait_after: 1.5\n- type: workflow\n  workflow: ./b\n"))).insert
    ⟨["b.y"]⟩ (.file (.text ("steps:\n- action: noop\n- action: refuse\n  optional: true\n" ++
      "  wait_after: 9\n- action: noop\n  wait_after: -0.0\n")))
  workingDirectory := .top

def patient : Runner Unit where
  resolver := resolver
  registry := Registry.empty.withBuiltins.register "refuse" fun _ host => ⟨.ok false, host, false, []⟩
  defaultPause := 2 * Nanoseconds.perSecond

end Sample

namespace Runner

/-- The failed chore and the wait of minus zero leave no pause, nor does the import of the chores. -/
theorem run_pauses_sample : ∃ finished,
    Sample.patient.run 2 (.location ⟨["a.y"]⟩) ∅ ⟨⟨Sample.rota, ()⟩, .empty⟩ = some finished ∧
      ((Moment.start.entries finished.events).filterMap
        (askedPause? Sample.patient.defaultPause)).filter (· ≠ 0) = [1500000000, 2000000000] ∧
      (Moment.start.entries finished.events).map Prod.fst = finished.result.steps ∧
      ∀ frame d, .entered frame d ∈ finished.events → d.Parsed := by
  have ends : (Sample.patient.run 2 (.location ⟨["a.y"]⟩) ∅ ⟨⟨Sample.rota, ()⟩, .empty⟩).map
      (fun finished => RunEvent.pauses finished.events) = some [1500000000, 2000000000] := by
    decide +kernel
  obtain ⟨finished, ran, paused⟩ := Option.map_eq_some_iff.1 ends
  obtain ⟨pauses, logged, _, entered, _⟩ := run_pauses Sample.patient 2 (.location ⟨["a.y"]⟩) ∅
    ⟨⟨Sample.rota, ()⟩, .empty⟩ finished .empty ran
  exact ⟨finished, ran, pauses.symm.trans paused, logged, entered⟩

end Runner

end WorkflowEngine
