import WorkflowEngine.FileSystem.Edit
import WorkflowEngine.Proofs.Engine.Calls
import WorkflowEngine.Proofs.Location.Linkless
import WorkflowEngine.Proofs.Path.Components
import WorkflowEngine.Proofs.Run.Paths

/-! What an engine gets to see.

A confined engine is asked for graphs and runs, one after the other, while its host and its actions do what they
like with the files. Whatever the documents say, it loads no document outside its root, and none comes up in its
answers. The paths are told as they are written: component by component, without dots to go by.
-/

set_option autoImplicit false

namespace WorkflowEngine

/-- A path that is written out from the top and goes through a root, component by component. -/
structure Path.Inside (root p : Path) : Prop where
  absolute : p.isAbsolute = true
  ordinary : ∀ component ∈ p.components, component ≠ "." ∧ component ≠ ".."
  below : root.components <+: p.components

theorem Location.inside_path {l root : Location} (proper : l.Proper) (under : l.isUnder root = true) :
    root.path.Inside l.path := by
  have below : root.names <+: l.names := List.isPrefixOf_iff_prefix.1 under
  have properRoot : root.Proper := fun name member => proper name (below.subset member)
  refine ⟨l.isAbsolute_path, ?_, ?_⟩
  · rw [components_path proper]
    exact fun name member => (proper name member).ordinary.2
  · rwa [components_path proper, components_path properRoot]

example : ¬ Path.Inside ⟨"/w"⟩ ⟨"/wide/c.y"⟩ := by
  intro inside
  have below := inside.below
  revert below
  decide

/-- What a caller may ask for: any reference, and any location that a resolver has given out. -/
def Target.Given : Target → Prop
  | .reference _ => True
  | .location l => ∃ r fs request, Resolver.answer r fs request = .ok l

namespace Resolver

variable {r : Resolver} {fs : FileSystem}

theorem inside_of_answer (confined : r.sandbox = .confineToRoot) (request : Request) {l : Location}
    (answered : r.answer fs request = .ok l) : r.root.path.Inside l.path := by
  obtain ⟨_, _, located, under⟩ := written_of_answer answered
  exact Location.inside_path (FileSystem.proper_of_normalLocation located) (under confined)

theorem gives_inside (confined : r.sandbox = .confineToRoot) : r.Gives r.root.path.Inside :=
  fun _ workflow step _ means =>
    inside_of_answer confined (.seen step.workflow workflow.directory.path) means

theorem inside_of_resolveTarget (confined : r.sandbox = .confineToRoot) {target : Target}
    (given : target.Given) : ∀ l, r.resolveTarget fs target = .ok l → r.root.path.Inside l.path := by
  intro l resolved
  cases target with
  | reference reference => exact inside_of_answer confined (.entry reference) resolved
  | location m =>
    obtain ⟨_, _, _, answered⟩ := given
    obtain ⟨_, _, located, _⟩ := written_of_answer answered
    have under := isUnder_of_confine resolved confined
    obtain rfl : l = m := eq_of_confine resolved
    exact Location.inside_path (FileSystem.proper_of_normalLocation located) under

end Resolver

variable {σ : Type}

/-- All paths of an answer: of the edges and documents of a graph, of the log and the open documents of a run,
and of a failure with its chain. -/
def Answer.paths : Answer → List Path
  | .document (.ok d) => [d.location.path]
  | .document (.error e) => e.paths
  | .graph (.ok g) => g.paths
  | .graph (.error failure) => failure.paths
  | .result outcome events => outcome.paths ++ events.flatMap RunEvent.paths
  | .done => []

def Call.Given : Call → Prop
  | .load _ => False
  | .resolve target => target.Given
  | .execute _ target _ => target.Given
  | .reset => True

theorem RunEvent.paths_withoutCache (e : RunEvent) : e.withoutCache.paths = e.paths := by
  cases e <;> rfl

namespace Cache

def Within (c : Cache) (Q : Path → Prop) : Prop := ∀ l ∈ c.locations, Q l.path

variable {Q : Path → Prop} {c : Cache}

theorem within_empty : empty.Within Q := fun _ member => nomatch member

theorem Within.replay (within : c.Within Q) {accesses : List Access}
    (all : ∀ access ∈ accesses, ∀ path ∈ access.paths, Q path) : (c.replay accesses).Within Q := by
  induction accesses generalizing c with
  | nil => exact within
  | cons access later ih =>
    obtain ⟨first, others⟩ := List.forall_mem_cons.1 all
    refine ih (fun l member => ?_) others
    obtain ⟨d, found⟩ := Dictionary.mem_keys.1 member
    cases access with
    | clear => cases found
    | load files m =>
      have kept : (c.load files m).2.find? l = some d := found
      rw [find?_load] at kept
      split at kept
      · rename_i same
        exact same ▸ first m.path (List.mem_singleton_self _)
      · exact within l (Dictionary.mem_keys.2 ⟨d, kept⟩)

end Cache

namespace Setup

variable {s next start later : Setup σ} {call : Call} {answer : Answer}

/-- What a call does with the documents, also if it is a run that does not come to its end on its budget. -/
def accesses (s : Setup σ) : Call → List Access
  | .load l => [.load s.host.files l]
  | .resolve target =>
    match s.engine.resolver.resolveTarget s.host.files target with
    | .error _ => []
    | .ok entry => s.engine.resolver.graphAccesses s.host.files s.engine.cache entry
  | .execute budget target params =>
    s.engine.runner.runAccesses budget target params ⟨s.host, s.engine.cache⟩
  | .reset => [.clear]

theorem serve_resolve_eq (s : Setup σ) (target : Target) : s.serve (.resolve target) =
    some (.graph (s.engine.resolveGraph s.host.files target).1,
      { s with engine := (s.engine.resolveGraph s.host.files target).2 }) := rfl

theorem serve_resolve {target : Target} (served : s.serve (.resolve target) = some (answer, next)) :
    answer = .graph (s.engine.resolver.resolveTargetGraph s.host.files s.engine.cache target).1 ∧
      next.engine.cache = (s.engine.resolver.resolveTargetGraph s.host.files s.engine.cache target).2 := by
  cases (serve_resolve_eq s target).symm.trans served
  exact ⟨rfl, rfl⟩

theorem replay_accesses (served : s.serve call = some (answer, next)) :
    s.engine.cache.replay (s.accesses call) = next.engine.cache := by
  cases call with
  | load l =>
    cases served
    rfl
  | resolve target =>
    rw [accesses, (serve_resolve served).2, Resolver.resolveTargetGraph]
    cases s.engine.resolver.resolveTarget s.host.files target with
    | error e => rfl
    | ok entry => exact s.engine.resolver.replay_graphAccesses s.host.files s.engine.cache entry
  | execute budget target params =>
    obtain ⟨finished, ran, rfl⟩ := serve_execute served
    exact (Runner.tracks_run ran).1
  | reset =>
    cases served
    rfl

/-- What given calls have led to, whatever has become of the host in between. -/
inductive Uses (start : Setup σ) : Setup σ → Prop
  | start : Uses start start
  | served {s next : Setup σ} {call : Call} {answer : Answer} :
      Uses start s → call.Given → s.serve call = some (answer, next) → Uses start next
  | changed {s : Setup σ} {host : Host σ} : Uses start s → Uses start { s with host }

theorem Uses.resolver_eq (uses : start.Uses later) : later.engine.resolver = start.engine.resolver := by
  induction uses with
  | start => rfl
  | served _ _ served ih =>
    have same := congrArg Engine.resolver (cold_engine_eq served)
    exact same.trans ih
  | changed _ ih => exact ih

section Confined

variable (confined : s.engine.resolver.sandbox = .confineToRoot)

include confined

theorem accesses_inside (given : call.Given) :
    ∀ access ∈ s.accesses call, ∀ path ∈ access.paths, s.engine.root.path.Inside path := by
  have gives := Resolver.gives_inside confined
  cases call with
  | load l => exact given.elim
  | resolve target =>
    rw [accesses]
    split
    · simp
    · rename_i entry means
      have inside := Resolver.inside_of_resolveTarget confined given entry means
      refine List.forall_mem_map.2 fun l member => List.forall_mem_singleton.2 ?_
      exact gives.graphLoads inside l member
  | execute budget target params =>
    exact Runner.paths_runAccesses (r := s.engine.runner) gives
      (Resolver.inside_of_resolveTarget confined given) budget params
  | reset => simp [accesses, Access.paths]

theorem answer_inside (given : call.Given) (served : s.serve call = some (answer, next)) :
    ∀ path ∈ answer.paths, s.engine.root.path.Inside path := by
  have gives := Resolver.gives_inside confined
  cases call with
  | load l => exact given.elim
  | resolve target =>
    rw [(serve_resolve served).1]
    cases resolved : (s.engine.resolver.resolveTargetGraph s.host.files s.engine.cache target).1 with
    | error failure =>
      exact gives.paths_targetFailure (Resolver.inside_of_resolveTarget confined given) resolved
    | ok g => exact gives.paths_targetGraph (Resolver.inside_of_resolveTarget confined given) resolved
  | execute budget target params =>
    obtain ⟨⟨_, _⟩, ran, left⟩ := Option.map_eq_some_iff.1 served
    obtain ⟨finished, ended, same⟩ := Option.map_eq_some_iff.1 ran
    cases left
    cases same
    obtain ⟨events, result⟩ := Runner.run_within (r := s.engine.runner) gives
      (Resolver.inside_of_resolveTarget confined given) ended
    refine List.forall_mem_append.2 ⟨result, fun path member => ?_⟩
    obtain ⟨_, mapped, named⟩ := List.mem_flatMap.1 member
    obtain ⟨event, happened, rfl⟩ := List.mem_map.1 mapped
    -- What was in the cache is left out of an answer, and it names no other paths.
    rw [RunEvent.paths_withoutCache] at named
    exact events event happened path named
  | reset =>
    cases served
    simp [Answer.paths]

end Confined

theorem Uses.cache_inside (uses : start.Uses later) (fresh : start.engine.cache = .empty)
    (confined : start.engine.resolver.sandbox = .confineToRoot) :
    later.engine.cache.Within start.engine.root.path.Inside := by
  induction uses with
  | start => exact fresh ▸ Cache.within_empty
  | served uses given served ih =>
    -- A call leaves what its accesses leave, and these load nothing outside.
    rw [← replay_accesses served]
    have same := uses.resolver_eq
    have inside := accesses_inside (same ▸ confined) given
    rw [Engine.root, same] at inside
    exact ih.replay inside
  | changed _ ih => exact ih

/-- A confined engine that is new loads only documents inside its root, however often it is called and whatever the
documents say, and no others come up in its answers. -/
theorem uses_inside (start : Setup σ) (fresh : start.engine.cache = .empty)
    (confined : start.engine.resolver.sandbox = .confineToRoot) (later : Setup σ)
    (uses : start.Uses later) :
    (∀ l ∈ later.engine.cache.locations, start.engine.root.path.Inside l.path) ∧
    ∀ call : Call, call.Given →
      (∀ files l, .load files l ∈ later.accesses call → start.engine.root.path.Inside l.path) ∧
      ∀ answer next, later.serve call = some (answer, next) →
        later.engine.cache.replay (later.accesses call) = next.engine.cache ∧
        ∀ path ∈ answer.paths, start.engine.root.path.Inside path := by
  have same := uses.resolver_eq
  have root : later.engine.root = start.engine.root := congrArg Resolver.root same
  have still : later.engine.resolver.sandbox = .confineToRoot := same ▸ confined
  refine ⟨uses.cache_inside fresh confined, fun call given => ⟨fun files l loaded => ?_,
    fun answer next served => ⟨replay_accesses served, ?_⟩⟩⟩
  · rw [← root]
    exact accesses_inside still given _ loaded l.path (List.mem_singleton_self _)
  · rw [← root]
    exact answer_inside still given served

end Setup

namespace Sample

/-- Two documents. The way from the first to the second goes out of the root and comes back. -/
def grounds : FileSystem :=
  ((FileSystem.empty.put ⟨["w"]⟩ .directory).put ⟨["w", "a.y"]⟩
    (.file (.text "steps:\n- type: workflow\n  workflow: ..\\w/./x/../../w\\b\n"))).put ⟨["w", "b.y"]⟩
      (.file (.text "steps: []\n"))

def fenced : Setup Unit where
  engine := ⟨.default, ⟨⟨["w"]⟩, "y", .confineToRoot, .lexical⟩, .empty, .empty⟩
  host := ⟨grounds, ()⟩

def watched : Setup Unit := ⟨(fenced.engine.resolveGraph grounds (.reference ⟨"a"⟩)).2, fenced.host⟩

end Sample

namespace Setup

theorem uses_inside_sample : Sample.fenced.Uses Sample.watched ∧
    Sample.watched.engine.cache.locations = [⟨["w", "a.y"]⟩, ⟨["w", "b.y"]⟩] ∧
    ∃ answer next, Sample.watched.serve (.execute 2 (.location ⟨["w", "a.y"]⟩) ∅) = some (answer, next) ∧
      Sample.succeeds answer = true ∧ ⟨"/w/b.y"⟩ ∈ answer.paths ∧
      ∀ path ∈ answer.paths, Path.Inside ⟨"/w"⟩ path := by
  have uses : Sample.fenced.Uses Sample.watched :=
    have asked : Call.Given (.resolve (.reference ⟨"a"⟩)) := trivial
    .served .start asked (serve_resolve_eq Sample.fenced (.reference ⟨"a"⟩))
  have given : Call.Given (.execute 2 (.location ⟨["w", "a.y"]⟩) ∅) :=
    ⟨Sample.fenced.engine.resolver, Sample.grounds, .entry ⟨"./x/../a"⟩, by decide +kernel⟩
  have runs : (Sample.watched.serve (.execute 2 (.location ⟨["w", "a.y"]⟩) ∅)).map (fun (answer, _) =>
      (Sample.succeeds answer, decide (⟨"/w/b.y"⟩ ∈ answer.paths))) = some (true, true) := by
    decide +kernel
  obtain ⟨⟨answer, next⟩, served, facts⟩ := Option.map_eq_some_iff.1 runs
  obtain ⟨succeeds, named⟩ := Prod.mk.inj facts
  obtain ⟨_, calls⟩ := uses_inside Sample.fenced rfl rfl Sample.watched uses
  have inside := ((calls _ given).2 answer next served).2
  have root : Sample.fenced.engine.root.path = ⟨"/w"⟩ := by decide +kernel
  rw [root] at inside
  refine ⟨uses, by decide +kernel, answer, next, served, succeeds, ?_, inside⟩
  exact of_decide_eq_true named

end Setup

end WorkflowEngine
