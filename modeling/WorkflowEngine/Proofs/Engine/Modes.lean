import WorkflowEngine.Proofs.Engine.Calls
import WorkflowEngine.Proofs.FileSystem.Unlinked
import WorkflowEngine.Proofs.Run.Agreement

/-! Engines in either mode.

An engine may normalize by spelling or by the file system. On files without links it is built, or refused, alike
in both modes and gives the same answers, as long as its actions make no links.
-/

set_option autoImplicit false

namespace WorkflowEngine

def Config.inMode (c : Config) (mode : Normalization) : Config :=
  { c with workflows := { c.workflows with normalization := mode } }

namespace Resolver

variable {fs : FileSystem}

def inMode (r : Resolver) (mode : Normalization) : Resolver := { r with normalization := mode }

theorem resolve_inMode (unlinked : fs.Unlinked) (r : Resolver) (mode : Normalization)
    (reference : Reference) (directory : Path) :
    (r.inMode mode).resolve fs reference directory = r.resolve fs reference directory := by
  have located := fs.normalLocation_of_unlinked unlinked mode r.normalization
  simp only [resolve, inMode, located]
  rfl

theorem resolveTarget_inMode (unlinked : fs.Unlinked) (r : Resolver) (mode : Normalization)
    (target : Target) : (r.inMode mode).resolveTarget fs target = r.resolveTarget fs target := by
  have located := fs.normalLocation_of_unlinked unlinked mode r.normalization
  have resolved := fun reference => resolve_inMode unlinked r mode reference r.root.path
  simp only [inMode] at resolved ⊢
  cases target with
  | location l => rfl
  | reference reference =>
    simp only [resolveTarget, absoluteUnderRoot?, confine, located, resolved]

theorem agrees_inMode (unlinked : fs.Unlinked) (r : Resolver) (mode : Normalization) :
    (r.inMode mode).Agrees r fs where
  imports := funext fun workflow => funext fun step =>
    resolve_inMode unlinked r mode step.workflow workflow.directory.path
  targets := funext (resolveTarget_inMode unlinked r mode)

theorem build_inMode (unlinked : fs.Unlinked) (root : Path) (extension : String) (sandbox : Sandbox)
    (mode other : Normalization) :
    build fs root extension sandbox mode =
      (build fs root extension sandbox other).map fun r => r.inMode mode := by
  unfold build
  rw [fs.normalLocation_of_unlinked unlinked mode other]
  dsimp only
  split
  · rfl
  · cases fs.normalLocation other root <;> rfl

end Resolver

variable {σ : Type}

namespace Engine

def inMode (e : Engine σ) (mode : Normalization) : Engine σ :=
  { e with config := e.config.inMode mode, resolver := e.resolver.inMode mode }

theorem build_inMode {fs : FileSystem} (unlinked : fs.Unlinked) (config : Config)
    (mode : Normalization) :
    build fs (config.inMode mode) = (build fs config : Except Error (Engine σ)).map fun e => e.inMode mode := by
  have checked : (config.inMode mode).validate = config.validate := rfl
  have resolved := Resolver.build_inMode unlinked (fs.workingDirectory.path.join config.workflows.root)
    config.workflows.extension config.workflows.sandbox mode config.workflows.normalization
  unfold build
  rw [checked]
  cases config.validate with
  | error e => rfl
  | ok _ =>
    simp only [bind, Except.bind, Config.inMode, Config.anchor, Config.withRoot, resolved]
    generalize Resolver.build fs _ _ _ _ = built
    cases built <;> rfl

end Engine

namespace Setup

variable {s : Setup σ}

def inMode (s : Setup σ) (mode : Normalization) : Setup σ := { s with engine := s.engine.inMode mode }

def opened (config : Config) (registry : Registry σ) (host : Host σ) : Except Error (Setup σ) :=
  (Engine.build host.files config).map fun (engine : Engine σ) => ⟨{ engine with registry }, host⟩

def answersOf (config : Config) (registry : Registry σ) (host : Host σ) (calls : List Call) :
    Except Error (Option (List Answer)) :=
  (opened config registry host).map fun s => (s.serveAll calls).map Prod.fst

theorem opened_inMode {host : Host σ} (unlinked : host.files.Unlinked) (config : Config)
    (registry : Registry σ) (mode : Normalization) :
    opened (config.inMode mode) registry host =
      (opened config registry host).map fun s => s.inMode mode := by
  unfold opened
  rw [Engine.build_inMode unlinked config mode]
  cases (Engine.build host.files config : Except Error (Engine σ)) <;> rfl

theorem serve_inMode (unlinked : s.host.files.Unlinked)
    (preserves : s.engine.registry.Preserves FileSystem.Unlinked) (mode : Normalization) (call : Call) :
    (s.inMode mode).serve call =
        (s.serve call).map (fun (answer, next) => (answer, next.inMode mode)) ∧
      ∀ answer next, s.serve call = some (answer, next) → next.host.files.Unlinked := by
  have agrees : ∀ fs : FileSystem, fs.Unlinked →
      (s.engine.resolver.inMode mode).Agrees s.engine.resolver fs :=
    fun _ free => Resolver.agrees_inMode free s.engine.resolver mode
  cases call with
  | load l => exact ⟨rfl, fun _ _ served => by cases served; exact unlinked⟩
  | resolve target =>
    have graphs := (agrees _ unlinked).resolveTargetGraph_eq s.engine.cache target
    refine ⟨?_, fun _ _ served => by cases served; exact unlinked⟩
    simp only [serve, Engine.resolveGraph, inMode, Engine.inMode, graphs]
    rfl
  | execute budget target params =>
    -- The files stay without links all along the run, so the resolvers agree at each of its steps.
    obtain ⟨same, within⟩ := Runner.run_withResolver (r := s.engine.runner) (s := ⟨s.host, s.engine.cache⟩)
      preserves agrees unlinked budget target params
    have runner : (s.engine.inMode mode).runner =
      s.engine.runner.withResolver (s.engine.resolver.inMode mode) := rfl
    constructor
    · simp only [serve, Engine.run, inMode, runner]
      simp only [Engine.inMode, same, Option.map_map]
      rfl
    · intro answer next served
      obtain ⟨finished, ran, rfl⟩ := serve_execute served
      exact within finished ran
  | reset => exact ⟨rfl, fun _ _ served => by cases served; exact unlinked⟩

theorem serveAll_inMode (unlinked : s.host.files.Unlinked)
    (preserves : s.engine.registry.Preserves FileSystem.Unlinked) (mode : Normalization)
    (calls : List Call) :
    (s.inMode mode).serveAll calls =
      (s.serveAll calls).map fun (answers, last) => (answers, last.inMode mode) := by
  induction calls generalizing s with
  | nil => rfl
  | cons call later ih =>
    obtain ⟨same, within⟩ := serve_inMode unlinked preserves mode call
    unfold serveAll
    rw [same]
    cases served : s.serve call with
    | none => rfl
    | some reply =>
      obtain ⟨answer, next⟩ := reply
      have kept := congrArg Engine.registry (cold_engine_eq served)
      have registry : next.engine.registry = s.engine.registry := kept
      have behind := ih (within answer next served) (registry ▸ preserves)
      simp only [Option.map_some, behind, Option.map_map]
      rfl

theorem of_opened {config : Config} {registry : Registry σ} {host : Host σ}
    (opens : opened config registry host = .ok s) : s.host = host ∧ s.engine.registry = registry := by
  unfold opened at opens
  cases built : (Engine.build host.files config : Except Error (Engine σ)) with
  | error e =>
    rw [built] at opens
    cases opens
  | ok e =>
    rw [built] at opens
    cases opens
    exact ⟨rfl, rfl⟩

/-- On files without links every path has one normal location in both modes, or none for one reason, and engines are
built and answer alike in both. -/
theorem modes_agree (registry : Registry σ) (host : Host σ) (unlinked : host.files.Unlinked)
    (preserves : registry.Preserves FileSystem.Unlinked) :
    (∀ p, host.files.normalLocation .filesystem p = host.files.normalLocation .lexical p) ∧
    (∀ (config : Config) (calls : List Call), answersOf (config.inMode .filesystem) registry host calls =
      answersOf (config.inMode .lexical) registry host calls) ∧
    ∀ s : Setup σ, s.host = host → s.engine.registry = registry → ∀ calls : List Call,
      (s.inMode .filesystem).serveAll calls =
        ((s.inMode .lexical).serveAll calls).map fun (answers, last) => (answers, last.inMode .filesystem) := by
  have everywhere : ∀ s : Setup σ, s.host = host → s.engine.registry = registry → ∀ calls,
      (s.inMode .filesystem).serveAll calls =
        (s.serveAll calls).map fun (answers, last) => (answers, last.inMode .filesystem) := by
    rintro s rfl rfl calls
    exact serveAll_inMode unlinked preserves .filesystem calls
  refine ⟨host.files.normalLocation_of_unlinked unlinked .filesystem .lexical, fun config calls => ?_,
    fun s on acts calls => everywhere (s.inMode .lexical) on acts calls⟩
  have built := opened_inMode unlinked (config.inMode .lexical) registry .filesystem
  have same : (config.inMode .lexical).inMode .filesystem = config.inMode .filesystem := rfl
  rw [same] at built
  unfold answersOf
  rw [built]
  cases opens : opened (config.inMode .lexical) registry host with
  | error e => rfl
  | ok s =>
    obtain ⟨on, acts⟩ := of_opened opens
    simp only [Except.map, everywhere s on acts calls, Option.map_map]
    rfl

end Setup

namespace Sample

/-- Two documents. The first one gives the way to the second over its own file, as if it were a directory. -/
def shelf : FileSystem :=
  ((FileSystem.empty.put ⟨["w"]⟩ .directory).put ⟨["w", "a.y"]⟩
    (.file (.text "steps:\n- type: workflow\n  workflow: ./a.y/../b\n- action: shut\n"))).put ⟨["w", "b.y"]⟩
      (.file (.text "steps: []\n"))

def shut : Action Unit := fun _ host =>
  ⟨.ok true, ⟨host.files.write ⟨"/w/a.y"⟩ (.text "steps: []\n"), ()⟩, true, []⟩

def shelved : Config :=
  { Config.default with workflows := { Config.defaultSettings with root := ⟨"/w/b.y/.."⟩, extension := "y" } }

def closing : Registry Unit := Registry.empty.register "shut" shut

def visits : List Call := [.execute 2 (.reference ⟨"a"⟩) ∅, .execute 1 (.reference ⟨"./x/../a"⟩) ∅]

end Sample

namespace Setup

/-- The document runs in both modes, and then again as it has been overwritten. -/
theorem modes_agree_sample : ∃ given : List Answer, given.map Sample.succeeds = [true, true] ∧
    answersOf (Sample.shelved.inMode .lexical) Sample.closing ⟨Sample.shelf, ()⟩ Sample.visits =
      .ok (some given) ∧
    answersOf (Sample.shelved.inMode .filesystem) Sample.closing ⟨Sample.shelf, ()⟩ Sample.visits =
      .ok (some given) := by
  have unlinked : Sample.shelf.Unlinked :=
    ((FileSystem.unlinked_empty.put (by simp) _).put (by simp) _).put (by simp) _
  have preserves : Sample.closing.Preserves FileSystem.Unlinked :=
    Registry.preserves_empty.register (fun _ _ free => free.write _ _) "shut"
  obtain ⟨_, agree, _⟩ := modes_agree Sample.closing ⟨Sample.shelf, ()⟩ unlinked preserves
  rw [agree]
  have runs : (answersOf (Sample.shelved.inMode .lexical) Sample.closing ⟨Sample.shelf, ()⟩
      Sample.visits).toOption.map (Option.map (List.map Sample.succeeds)) = some (some [true, true]) := by
    decide +kernel
  cases opens : answersOf (Sample.shelved.inMode .lexical) Sample.closing ⟨Sample.shelf, ()⟩ Sample.visits with
  | error e =>
    rw [opens] at runs
    cases runs
  | ok answered =>
    rw [opens] at runs
    obtain ⟨given, rfl, succeed⟩ := Option.map_eq_some_iff.1 (Option.some.inj runs)
    exact ⟨given, succeed, rfl, rfl⟩

end Setup

end WorkflowEngine
