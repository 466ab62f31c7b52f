import WorkflowEngine.Proofs.Run.Moments

/-! What frames see under a name.

The parameters of a frame have one form at every depth. The innermost workflow step that declares a name
decides, with its value rendered in the frame around the step. A name that no step declares has the
caller's value, and failing that the default of the outermost document with one; neither is rendered.
-/

set_option autoImplicit false

namespace WorkflowEngine

/-- What the workflow step that led to a frame puts under a name, seen from the frame around it. -/
def OpenFrame.rendered? (inner : OpenFrame) (scope : Params) (key : String) : Option Value :=
  inner.via.bind fun step => (step.params.find? key).map scope.renderValue

/-- What the workflow steps between frames put under a name, from the outermost step on. -/
def renderings : List OpenFrame → String → List Value
  | outer :: inner :: rest, key =>
    (inner.rendered? outer.frame.params key).toList ++ renderings (inner :: rest) key
  | _, _ => []

/-- The value under a name in the innermost of open frames, when the entry was called with parameters. -/
def scopedValue? (called : Params) (frames : List OpenFrame) (key : String) : Option Value :=
  (renderings frames key).getLast?.or
    ((called.find? key).or (frames.findSome? fun o => o.document.defaults.find? key))

theorem renderings_concat (outer : List OpenFrame) (importer inner : OpenFrame) (key : String) :
    renderings (outer ++ [importer] ++ [inner]) key =
      renderings (outer ++ [importer]) key ++ (inner.rendered? importer.frame.params key).toList := by
  induction outer with
  | nil => simp [renderings]
  | cons first rest ih =>
    cases rest with
    | nil => simp [renderings]
    | cons second rest =>
      simp only [List.cons_append, renderings] at ih ⊢
      rw [ih, List.append_assoc]

/-- A frame inside others adds its step's declarations before all that is in scope, and its defaults
behind it. -/
theorem scopedValue?_concat (called : Params) (outer : List OpenFrame) (importer inner : OpenFrame)
    (key : String) :
    scopedValue? called (outer ++ [importer] ++ [inner]) key =
      ((inner.rendered? importer.frame.params key).or (scopedValue? called (outer ++ [importer]) key)).or
        (inner.document.defaults.find? key) := by
  rw [scopedValue?, scopedValue?, renderings_concat, getLast?_append_toList]
  generalize outer ++ [importer] = around
  rw [List.findSome?_append, List.findSome?_singleton]
  simp only [Option.or_assoc]

theorem Frame.find?_enter (above : List Location) (d : Document) (called : Params) (key : String) :
    (Frame.enter above d called).params.find? key = (called.find? key).or (d.defaults.find? key) :=
  Params.find?_merge _ _ _

theorem Frame.find?_inside (f : Frame) (step : WorkflowStep) (d : Document) (key : String) :
    (f.inside step d).params.find? key =
      (((step.params.find? key).map f.params.renderValue).or (f.params.find? key)).or
        (d.defaults.find? key) := by
  rw [inside, find?_enter, Params.find?_forWorkflow]

theorem find?_nested {entry : Document} {called : Params} {frames : List OpenFrame}
    (nested : Nested entry called frames) {inner : OpenFrame} (ends : frames.getLast? = some inner)
    (key : String) : inner.frame.params.find? key = scopedValue? called frames key := by
  induction nested generalizing inner with
  | entry =>
    cases ends
    simp [scopedValue?, renderings, Frame.find?_enter]
  | inner _ _ ih =>
    rw [List.getLast?_concat] at ends
    cases ends
    rw [scopedValue?_concat, Frame.find?_inside, ih List.getLast?_concat]
    rfl

namespace Sample

/-- A document with a default and a name that the caller may give, which it uses for itself. -/
def planted : Document where
  location := ⟨["w", "b.y"]⟩
  description := none
  defaults := ((∅ : Params).insert "crop" (.text "fern")).insert "plot" (.text "7")
  steps := [.action ⟨"wipe", none,
    ((∅ : Params).insert "crop" (.text "moss")).insert "tag" (.text "$\x7bplot\x7d-$\x7blabel\x7d"),
    true, none⟩]

def garden : Document where
  location := ⟨["w", "a.y"]⟩
  description := none
  defaults := (∅ : Params).insert "crop" (.text "reed")
  steps := [.workflow ⟨⟨"b"⟩, none, (∅ : Params).insert "label" (.text "$\x7braw\x7d")⟩]

def planting : Params := (∅ : Params).insert "raw" (.text "$\x7bplot\x7d")

def watering : Params := ((∅ : Params).insert "crop" (.text "reed")).insert "tag" (.text "7-$\x7bplot\x7d")

def gardenSession : Session Unit where
  host := ⟨.empty, ()⟩
  cache := (Cache.empty.insert planted).insert garden

def gardenGraph : ImportGraph where
  entry := garden.location
  entryDocument := garden
  imported := [planted]
  edges := [⟨⟨garden.location, 0⟩, planted.location⟩]

end Sample

namespace Runner

variable {σ : Type}

/-- At every moment of a run the innermost open frame has under each name what its scope says, and an invocation has
the names that its step declares. -/
theorem run_scoped (r : Runner σ) (budget : Nat) (target : Target) (called : Params) (s : Session σ)
    (finished : Finished σ) (graph : ImportGraph) (cache : Cache)
    (resolved : r.resolver.resolveTargetGraph s.host.files s.cache target = (.ok graph, cache))
    (ran : r.run budget target called s = some finished) (before later : List RunEvent) (e : RunEvent)
    (split : finished.events = before ++ e :: later) :
    Nested graph.entryDocument called (Moment.start.behind (before ++ [e])).opened ∧
    (∀ frame d, e = .entered frame d →
      ∃ outer via, (Moment.start.behind (before ++ [e])).opened = outer ++ [⟨via, frame, d⟩]) ∧
    (∀ outer inner, (Moment.start.behind (before ++ [e])).opened = outer ++ [inner] →
      ∀ key, inner.frame.params.find? key = scopedValue? called (outer ++ [inner]) key) ∧
    ∀ action given answer, e = .invoked action given answer →
      ∃ outer inner stepIndex step, (Moment.start.behind before).opened = outer ++ [inner] ∧
        Invokes inner action given later stepIndex step := by
  obtain ⟨nested, invokes⟩ := placed_of_run resolved ran split
  have behind : Moment.start.behind (before ++ [e]) = (Moment.start.behind before).after e :=
    Moment.behind_append _ _ _
  rw [← behind] at nested
  refine ⟨nested, ?_, fun outer inner opened key => ?_, invokes⟩
  · rintro frame d rfl
    exact ⟨_, _, congrArg Moment.opened behind⟩
  · rw [opened] at nested
    exact find?_nested nested List.getLast?_concat key

/-- The caller's template is handed on and shown as it is, and the entry's default wins over one inside. -/
theorem run_scoped_sample : ∃ finished before answer later,
    Sample.runner.run 2 (.location Sample.garden.location) Sample.planting Sample.gardenSession =
      some finished ∧
    finished.events = before ++ .invoked "wipe" Sample.watering answer :: later ∧
    ∃ outer inner stepIndex step, (Moment.start.behind before).opened = outer ++ [inner] ∧
      Invokes inner "wipe" Sample.watering later stepIndex step := by
  have invoked : (Sample.runner.run 2 (.location Sample.garden.location) Sample.planting
      Sample.gardenSession).map (fun f => f.events.filterMap RunEvent.invocation?) =
        some [("wipe", Sample.watering)] := by decide +kernel
  obtain ⟨finished, ran, listed⟩ := Option.map_eq_some_iff.1 invoked
  obtain ⟨before, e, later, split, _, given, _⟩ := List.filterMap_eq_cons_iff.1 listed
  cases e <;> cases given
  rename_i answer
  obtain ⟨_, _, _, invokes⟩ := run_scoped Sample.runner 2 (.location Sample.garden.location)
    Sample.planting Sample.gardenSession finished Sample.gardenGraph Sample.gardenSession.cache rfl ran
    before later _ split
  exact ⟨finished, before, answer, later, ran, split, invokes _ _ _ rfl⟩

end Runner

end WorkflowEngine
