import WorkflowEngine.Command.Execution
import WorkflowEngine.Proofs.Cache.Transparency
import WorkflowEngine.Proofs.Run.Success

/-! Checks and dry runs.

A check searches for the import graph of a workflow. A dry run does so too, registers an action that does
nothing under each name that the graph has, and then runs the workflow. Nothing is left on which that run
could fail, so both end with the same code.
-/

set_option autoImplicit false

namespace WorkflowEngine

theorem ImportGraph.Represents.length_le_size {S : Sources} {g : ImportGraph} {entry : Location} {c : Cache}
    (represents : g.Represents S entry) (cached : ∀ d ∈ g.documents, c.find? d.location = some d) :
    g.documents.length ≤ c.size := by
  have inside : g.locations ⊆ c.locations := by
    intro l member
    obtain ⟨d, inner, rfl⟩ := List.mem_map.1 member
    exact Dictionary.mem_keys.2 ⟨d, cached d inner⟩
  have short := represents.distinct.length_le_of_subset inside
  rw [ImportGraph.locations, Cache.locations, Dictionary.keys, List.length_map, List.length_map] at short
  exact short

theorem Action.noop_succeeds {σ : Type} : (Action.noop : Action σ).Succeeds :=
  ⟨fun _ _ => rfl, fun _ _ => rfl, fun _ _ => rfl⟩

namespace Command

/-- An entry writes a parameter: a name that is not blank, and the value behind the first equals sign. -/
def WritesParam (entry : String) : Prop :=
  ∃ name value, entry.toList = name ++ '=' :: value ∧ '=' ∉ name ∧ Text.trimChars name ≠ []

theorem exists_readParam {entry : String} (written : WritesParam entry) :
    ∃ param, readParam entry = .ok param := by
  obtain ⟨name, value, spelled, free, named⟩ := written
  unfold readParam
  simp [spelled, Text.cutAtFirst?_eq_some_iff.2 ⟨rfl, free⟩, named]

theorem exists_readParams {entries : List String} (written : ∀ entry ∈ entries, WritesParam entry) :
    ∃ params, readParams entries = .ok params := by
  have each : ∃ params, entries.mapM readParam = .ok params := by
    induction entries with
    | nil => exact ⟨[], rfl⟩
    | cons entry rest ih =>
      obtain ⟨first, others⟩ := List.forall_mem_cons.1 written
      obtain ⟨param, read⟩ := exists_readParam first
      obtain ⟨params, behind⟩ := ih others
      refine ⟨param :: params, ?_⟩
      rw [List.mapM_cons, read, behind]
      rfl
  obtain ⟨params, read⟩ := each
  refine ⟨.ofList params, ?_⟩
  rw [readParams, read]
  rfl

/-- Recorders change nothing of an engine but its registry, where they stand under their names. -/
theorem exists_withRecorders (e : Engine Unit) (names : List String) :
    ∃ registry : Registry Unit, withRecorders e names = { e with registry } ∧
      ∀ name, registry.find? name = if name ∈ names then some .noop else e.registry.find? name := by
  induction names generalizing e with
  | nil => exact ⟨e.registry, rfl, by simp⟩
  | cons first rest ih =>
    obtain ⟨registry, same, found⟩ := ih (e.register first .noop)
    refine ⟨registry, same, fun name => ?_⟩
    rw [found, Engine.register, Registry.register, Registry.find?, Dictionary.find?_insert]
    by_cases inside : name ∈ rest
    · simp [inside]
    · by_cases here : first = name
      · simp [here]
      · simp [inside, here, Ne.symm here, Registry.find?]

def checking (c : Command) (workflow : String) : Command := { c with task := .check workflow }

def dryRunning (c : Command) (workflow : String) (entries : List String) : Command :=
  { c with task := .run workflow entries true }

/-- How a dry run ends: the run on an engine that was given recorders for the actions of the graph. -/
def DryRuns (e : Engine Unit) (fs : FileSystem) (workflow : String) (entries : List String)
    (finished : Runner.Finished Unit) : Prop :=
  ∃ params dry after, readParams entries = .ok params ∧
    equip e fs (.reference (e.resolveAlias workflow)) true = .ok dry ∧
    dry.run (Resolver.walkBudget fs dry.cache) (.reference (e.resolveAlias workflow)) params ⟨fs, ()⟩ =
      some (finished, after)

variable {fs : FileSystem} {workflow : String} {entries : List String} {g : ImportGraph}

theorem exists_dryRuns (c : Command) (e : Engine Unit) (written : ∀ entry ∈ entries, WritesParam entry)
    (resolved : (e.resolveGraph fs (.reference (e.resolveAlias workflow))).1 = .ok g) :
    ∃ finished, DryRuns e fs workflow entries finished ∧ finished.Completes g ∧
      c.carryOutRun fs e workflow entries true = .ofRun c.format e.root finished := by
  obtain ⟨params, read⟩ := exists_readParams written
  generalize asked : Target.reference (e.resolveAlias workflow) = target at resolved
  rcases found : e.resolver.resolveTargetGraph fs e.cache target with ⟨failure | graph, cache⟩
  · simp [Engine.resolveGraph, found] at resolved
  · obtain rfl : graph = g := by simpa [Engine.resolveGraph, found] using resolved
    obtain ⟨registry, recorders, registered⟩ := exists_withRecorders { e with cache } graph.actionNames
    have equipped : equip e fs target true = .ok { e with cache, registry } := by
      simp only [equip, if_true, Engine.resolveGraph, found, recorders]
    have carries : registry.Carries graph.actionNames := fun name member =>
      ⟨.noop, by rw [registered, if_pos member], Action.noop_succeeds⟩
    -- The run searches for the graph again, with all of its documents in the cache.
    have same := e.resolver.document_resolveTargetGraph fs e.cache target
    rw [found] at same
    have again : e.resolver.resolveTargetGraph fs cache target =
        (.ok graph, (e.resolver.resolveTargetGraph fs cache target).2) :=
      Prod.ext (by rw [Resolver.resolveTargetGraph_fst_eq same target, found]) rfl
    have walked := Resolver.resolveGraph_of_resolveTargetGraph found
    have enough : graph.documents.length ≤ Resolver.walkBudget fs cache := by
      have short := (Resolver.represents_of_resolveGraph walked).length_le_size
        (Resolver.find?_of_resolveGraph walked)
      unfold Resolver.walkBudget
      omega
    obtain ⟨finished, ends, _, completes⟩ := Runner.exists_completes_of_resolved
      (r := Engine.runner { e with cache, registry }) (s := ⟨⟨fs, ()⟩, cache⟩) params again carries
    have ran : Engine.run { e with cache, registry } (Resolver.walkBudget fs cache) target params ⟨fs, ()⟩ =
        some (finished, { e with cache := finished.session.cache, registry }) :=
      Option.map_eq_some_iff.2 ⟨finished, ends.ends _ enough, rfl⟩
    refine ⟨finished, ⟨params, _, _, read, asked ▸ equipped, asked ▸ ran⟩, completes, ?_⟩
    unfold carryOutRun
    simp only [read, asked, equipped, ran]
    rfl

theorem code_ofGraphFailure (format : OutputFormat) (root : Location) (f : GraphFailure) :
    (Conclusion.ofGraphFailure format root f).code = 1 := by
  cases format <;> rfl

theorem code_carryOutCheck (c : Command) (fs : FileSystem) (e : Engine Unit) (workflow : String) :
    (c.carryOutCheck fs e workflow).code = 0 ↔
      ∃ g, (e.resolveGraph fs (.reference (e.resolveAlias workflow))).1 = .ok g := by
  unfold carryOutCheck
  cases (e.resolveGraph fs (.reference (e.resolveAlias workflow))).1 with
  | error failure => simp [code_ofGraphFailure]
  | ok g => simp [Conclusion.reported]

theorem code_carryOutRun (c : Command) (e : Engine Unit) (written : ∀ entry ∈ entries, WritesParam entry) :
    (c.carryOutRun fs e workflow entries true).code = 0 ↔
      ∃ g, (e.resolveGraph fs (.reference (e.resolveAlias workflow))).1 = .ok g := by
  cases resolved : (e.resolveGraph fs (.reference (e.resolveAlias workflow))).1 with
  | error failure =>
    obtain ⟨params, read⟩ := exists_readParams written
    have refused : equip e fs (.reference (e.resolveAlias workflow)) true = .error failure := by
      rw [equip, if_pos rfl]
      generalize e.resolveGraph fs (.reference (e.resolveAlias workflow)) = found at resolved ⊢
      obtain ⟨_ | _, _⟩ := found <;> cases resolved
      rfl
    simp [carryOutRun, read, refused, code_ofGraphFailure]
  | ok g =>
    obtain ⟨finished, _, completes, concluded⟩ := exists_dryRuns c e written resolved
    simp [concluded, Conclusion.ofRun, completes.succeeded]

section Engines

variable {c : Command} {environment : Overrides}

theorem engine_task (c : Command) (task : Task) :
    engine { c with task } fs environment = c.engine fs environment := rfl

theorem carryOut_of_error {error : Error} (unbuilt : c.engine fs environment = .error error) (task : Task) :
    carryOut { c with task } fs environment = .ofError error := by
  unfold carryOut
  rw [engine_task, unbuilt]

theorem carryOut_checking {e : Engine Unit} (built : c.engine fs environment = .ok e) :
    (c.checking workflow).carryOut fs environment = c.carryOutCheck fs e workflow := by
  unfold carryOut checking
  rw [engine_task, built]
  dsimp only [carryOutCheck]

theorem carryOut_dryRunning {e : Engine Unit} (built : c.engine fs environment = .ok e) :
    (c.dryRunning workflow entries).carryOut fs environment = c.carryOutRun fs e workflow entries true := by
  unfold carryOut dryRunning
  rw [engine_task, built]
  dsimp only [carryOutRun]

end Engines

/-- A check succeeds exactly when a dry run does, and then the dry run goes through the whole graph. So does every run
with actions that succeed under all names of the graph. -/
theorem check_iff_dryRun (c : Command) (fs : FileSystem) (environment : Overrides) (workflow : String)
    (entries : List String) :
    ((∀ entry ∈ entries, WritesParam entry) →
      (((c.checking workflow).carryOut fs environment).code = 0 ↔
        ((c.dryRunning workflow entries).carryOut fs environment).code = 0) ∧
      (((c.dryRunning workflow entries).carryOut fs environment).code = 0 → ∃ e g finished,
        c.engine fs environment = .ok e ∧
        (e.resolveGraph fs (.reference (e.resolveAlias workflow))).1 = .ok g ∧
        DryRuns e fs workflow entries finished ∧ finished.Completes g ∧
        (c.dryRunning workflow entries).carryOut fs environment = .ofRun c.format e.root finished)) ∧
    ∀ (σ : Type) (e : Engine σ) (host : Host σ) (target : Target) (params : Params) (g : ImportGraph),
      (e.resolveGraph host.files target).1 = .ok g → e.registry.Carries g.actionNames →
        ∃ finished after, finished.Completes g ∧
          (∀ budget, g.documents.length ≤ budget →
            e.run budget target params host = some (finished, after)) ∧
          ∀ budget other, e.run budget target params host = some other → other = (finished, after) := by
  refine ⟨fun written => ?_, fun σ e host target params g resolved carries => ?_⟩
  · cases built : c.engine fs environment with
    | error error =>
      have failed : (Conclusion.ofError error).code ≠ 0 := by simp [Conclusion.ofError]
      rw [checking, dryRunning, carryOut_of_error built, carryOut_of_error built]
      exact ⟨Iff.rfl, fun succeeded => absurd succeeded failed⟩
    | ok e =>
      rw [carryOut_checking built, carryOut_dryRunning built]
      refine ⟨(code_carryOutCheck c fs e workflow).trans (code_carryOutRun c e written).symm,
        fun succeeded => ?_⟩
      obtain ⟨g, resolved⟩ := (code_carryOutRun c e written).1 succeeded
      obtain ⟨finished, runs, completes, concluded⟩ := exists_dryRuns c e written resolved
      exact ⟨e, g, finished, rfl, resolved, runs, completes, concluded⟩
  -- Any actions do as well as recorders, if they succeed and change nothing.
  · rcases found : e.resolver.resolveTargetGraph host.files e.cache target with ⟨failure | graph, cache⟩
    · simp [Engine.resolveGraph, found] at resolved
    · obtain rfl : graph = g := by simpa [Engine.resolveGraph, found] using resolved
      obtain ⟨finished, ends, _, completes⟩ := Runner.exists_completes_of_resolved (r := e.runner)
        (s := ⟨host, e.cache⟩) params found carries
      refine ⟨finished, { e with cache := finished.session.cache }, completes, fun budget enough => ?_,
        fun budget other again => ?_⟩
      · exact Option.map_eq_some_iff.2 ⟨finished, ends.ends budget enough, rfl⟩
      · obtain ⟨twin, ran, rfl⟩ := Option.map_eq_some_iff.1 again
        rw [ends.only budget twin ran]

end Command

namespace Sample

/-- A workflow that imports another one, whose action no program has. -/
def works : FileSystem where
  entries := (((∅ : Dictionary Location Entry).insert ⟨["workflows"]⟩ .directory).insert
    ⟨["workflows", "a.yml"]⟩
      (.file (.text "steps:\n- type: workflow\n  workflow: b\n- action: log\n"))).insert
    ⟨["workflows", "b.yml"]⟩ (.file (.text "steps:\n- action: ship\n"))
  workingDirectory := .top

def command : Command := ⟨none, none, none, .text, .list⟩

theorem writesParam : Command.WritesParam "key=value" :=
  ⟨['k', 'e', 'y'], ['v', 'a', 'l', 'u', 'e'], by decide +kernel, by decide, by decide +kernel⟩

def standIn : Engine Unit := ⟨.default, resolver, cache, Registry.empty.register "wipe" .noop⟩

theorem standIn_carries : standIn.registry.Carries graph.actionNames := by
  intro name member
  obtain rfl : name = "wipe" := by
    have only : graph.actionNames = ["wipe"] := by decide +kernel
    simpa [only] using member
  exact ⟨.noop, by simp [standIn, Registry.register, Registry.find?, Dictionary.find?_insert],
    Action.noop_succeeds⟩

end Sample

namespace Command

/-- A check and a dry run of a workflow end well, though there is no action of one of the names in it. -/
theorem check_iff_dryRun_sample :
    ((Sample.command.checking "a").carryOut Sample.works ⟨none, none⟩).code = 0 ∧
    ((Sample.command.dryRunning "a" ["key=value"]).carryOut Sample.works ⟨none, none⟩).code = 0 ∧
    (∃ e g finished, Sample.command.engine Sample.works ⟨none, none⟩ = .ok e ∧
      DryRuns e Sample.works "a" ["key=value"] finished ∧ finished.Completes g) ∧
    ∃ finished after, finished.Completes Sample.graph ∧
      Sample.standIn.run 2 (.location Sample.entry.location) ∅ ⟨.empty, ()⟩ = some (finished, after) := by
  obtain ⟨commands, runs⟩ := check_iff_dryRun Sample.command Sample.works ⟨none, none⟩ "a" ["key=value"]
  have checked : ((Sample.command.checking "a").carryOut Sample.works ⟨none, none⟩).code = 0 := by
    decide +kernel
  obtain ⟨same, expanded⟩ := commands fun entry member => by
    obtain rfl := List.mem_singleton.1 member
    exact Sample.writesParam
  obtain ⟨e, g, finished, built, _, dry, completes, _⟩ := expanded (same.1 checked)
  obtain ⟨last, after, whole, ran, _⟩ := runs Unit Sample.standIn ⟨.empty, ()⟩
    (.location Sample.entry.location) ∅ Sample.graph rfl Sample.standIn_carries
  exact ⟨checked, same.1 checked, ⟨e, g, finished, built, dry, completes⟩, last, after, whole,
    ran 2 (by decide)⟩

end Command

end WorkflowEngine
