import WorkflowEngine.Engine
import WorkflowEngine.Proofs.Cache.Operations
import WorkflowEngine.Proofs.Run.Transparency
import Mathlib.Data.List.Perm.Basic

/-! What an engine answers.

An engine is called for documents, graphs and runs, one after the other, and its host may change in between.
What it has read before shows in no answer, as long as the files stay as they are; and a reset makes it a new
engine on the files as they are then.
-/

set_option autoImplicit false

namespace WorkflowEngine

inductive Call where
  | load (l : Location)
  | resolve (target : Target)
  | execute (budget : Nat) (target : Target) (params : Params)
  | reset

inductive Answer where
  | document (document : Except Error Document)
  | graph (graph : Except GraphFailure ImportGraph)
  /-- The result of a run, and what happened in it. -/
  | result (result : RunResult) (events : List RunEvent)
  | done

structure Setup (σ : Type) where
  engine : Engine σ
  host : Host σ

namespace Setup

variable {σ : Type}

/-- The answer to a call, and what it leaves, unless it is a run that has not come to its end on its
budget. -/
def serve (s : Setup σ) : Call → Option (Answer × Setup σ)
  | .load l =>
    let (document, engine) := s.engine.load s.host.files l
    some (.document document, { s with engine })
  | .resolve target =>
    let (graph, engine) := s.engine.resolveGraph s.host.files target
    some (.graph graph, { s with engine })
  | .execute budget target params =>
    (s.engine.run budget target params s.host).map fun (finished, engine) =>
      (.result finished.result (finished.events.map .withoutCache), ⟨engine, finished.session.host⟩)
  | .reset => some (.done, { s with engine := s.engine.reset })

def answer? (s : Setup σ) (call : Call) : Option Answer := (s.serve call).map Prod.fst

def serveAll (s : Setup σ) : List Call → Option (List Answer × Setup σ)
  | [] => some ([], s)
  | call :: later =>
    match s.serve call with
    | none => none
    | some (answer, next) => (next.serveAll later).map fun (answers, last) => (answer :: answers, last)

/-- The same host, with an engine of the same configuration, resolver and registry that has read nothing. -/
def cold (s : Setup σ) : Setup σ :=
  ⟨⟨s.engine.config, s.engine.resolver, .empty, s.engine.registry⟩, s.host⟩

/-- What calls have led to, with changes of the host in between that are allowed. -/
inductive Comes (allowed : Host σ → Prop) (start : Setup σ) : Setup σ → Prop
  | start : Comes allowed start start
  | served {s next : Setup σ} {call : Call} {answer : Answer} :
      Comes allowed start s → s.serve call = some (answer, next) → Comes allowed start next
  | changed {s : Setup σ} {host : Host σ} :
      Comes allowed start s → allowed host → Comes allowed start { s with host }

/-- Two engines on one host, alike but for their caches, which make no difference there. -/
inductive Alike (fs : FileSystem) : Setup σ → Setup σ → Prop
  | intro (engine : Engine σ) (host : Host σ) (cache other : Cache) :
      host.files = fs → cache.Mirrors fs → other.Mirrors fs →
      Alike fs ⟨{ engine with cache }, host⟩ ⟨{ engine with cache := other }, host⟩

variable {fs : FileSystem} {s t next start later : Setup σ} {call : Call} {answer : Answer}

theorem Alike.serve (alike : s.Alike fs t) (steady : s.engine.registry.Steady) (call : Call) :
    Option.Rel (fun first second => first.1 = second.1 ∧ Alike fs first.2 second.2)
      (s.serve call) (t.serve call) := by
  obtain ⟨engine, host, cache, other, files, left, right⟩ := alike
  cases call with
  | load l =>
    obtain ⟨after, first, loaded⟩ := Cache.load_of_mirrors left l
    obtain ⟨further, second, again⟩ := Cache.load_of_mirrors right l
    subst files
    simp only [Setup.serve, Engine.load, loaded, again]
    exact .some ⟨rfl, .intro engine host after further rfl first second⟩
  | resolve target =>
    obtain ⟨after, first, resolved⟩ :=
      Resolver.resolveTargetGraph_of_mirrors (r := engine.resolver) left target
    obtain ⟨further, second, again⟩ :=
      Resolver.resolveTargetGraph_of_mirrors (r := engine.resolver) right target
    subst files
    simp only [Setup.serve, Engine.resolveGraph, resolved, again]
    exact .some ⟨rfl, .intro engine host after further rfl first second⟩
  | execute budget target params =>
    have run := Runner.run_alike (r := engine.runner) (s := ⟨host, cache⟩) (t := ⟨host, other⟩) steady
      ⟨rfl, files, left, right⟩ budget target params
    have first : Engine.runner { engine with cache } = engine.runner := rfl
    have second : Engine.runner { engine with cache := other } = engine.runner := rfl
    simp only [Setup.serve, Engine.run, first, second]
    -- Only the ends of the two runs count from here on.
    generalize engine.runner.run budget target params ⟨host, cache⟩ = p at run ⊢
    generalize engine.runner.run budget target params ⟨host, other⟩ = q at run ⊢
    cases run with
    | none => exact .none
    | @some f g run =>
      obtain ⟨result, events, ends, files, left, right⟩ := run
      refine .some ⟨?_, ?_⟩
      · dsimp only
        rw [result, events]
      · dsimp only
        rw [← ends]
        exact .intro engine f.session.host f.session.cache g.session.cache files left right
  | reset => exact .some ⟨rfl, .intro engine host .empty .empty files rfl rfl⟩

theorem Alike.answer?_eq (alike : s.Alike fs t) (steady : s.engine.registry.Steady)
    (call : Call) : s.answer? call = t.answer? call := by
  have served := alike.serve steady call
  unfold answer?
  generalize s.serve call = first at served ⊢
  generalize t.serve call = second at served ⊢
  cases served with
  | none => rfl
  | some same => exact congrArg some same.1

theorem serve_execute {budget : Nat} {target : Target} {params : Params}
    (served : s.serve (.execute budget target params) = some (answer, next)) :
    ∃ finished, s.engine.runner.run budget target params ⟨s.host, s.engine.cache⟩ = some finished ∧
      next = ⟨{ s.engine with cache := finished.session.cache }, finished.session.host⟩ := by
  obtain ⟨⟨_, _⟩, ran, left⟩ := Option.map_eq_some_iff.1 served
  obtain ⟨finished, ended, same⟩ := Option.map_eq_some_iff.1 ran
  cases left
  cases same
  exact ⟨_, ended, rfl⟩

theorem cold_engine_eq (served : s.serve call = some (answer, next)) :
    next.cold.engine = s.cold.engine := by
  cases call with
  | load l =>
    cases served
    rfl
  | resolve target =>
    cases served
    rfl
  | execute budget target params =>
    obtain ⟨_, _, rfl⟩ := serve_execute served
    rfl
  | reset =>
    cases served
    rfl

theorem Comes.cold_engine_eq {allowed : Host σ → Prop} (comes : start.Comes allowed later) :
    later.cold.engine = start.cold.engine := by
  induction comes with
  | start => rfl
  | served _ served ih => exact (Setup.cold_engine_eq served).trans ih
  | changed _ _ ih => exact ih

theorem Alike.of_mirrors (files : s.host.files = fs) (mirrors : s.engine.cache.Mirrors fs) :
    Alike fs s s.cold := .intro s.engine s.host s.engine.cache .empty files mirrors rfl

theorem Alike.files (alike : s.Alike fs t) : s.host.files = fs := by
  cases alike with
  | intro _ _ _ _ files => exact files

theorem Alike.mirrors (alike : s.Alike fs t) : s.engine.cache.Mirrors fs := by
  cases alike with
  | intro _ _ _ _ _ mirrors => exact mirrors

theorem Comes.registry_eq {allowed : Host σ → Prop} (comes : start.Comes allowed later) :
    later.engine.registry = start.engine.registry := by
  have same := congrArg Engine.registry comes.cold_engine_eq
  exact same

theorem Alike.served (alike : Alike fs s s.cold) (steady : s.engine.registry.Steady)
    (served : s.serve call = some (answer, next)) : Alike fs next next.cold := by
  have both := alike.serve steady call
  rw [served] at both
  generalize s.cold.serve call = second at both
  cases both with
  | some both => exact .of_mirrors both.2.files both.2.mirrors

/-- While the files stay as they are, no cache that a history leaves makes a difference. -/
theorem Comes.alike (comes : start.Comes (fun host => host.files = fs) later)
    (steady : start.engine.registry.Steady) (begins : Alike fs start start.cold) :
    Alike fs later later.cold := by
  induction comes with
  | start => exact begins
  | served comes served ih => exact ih.served (comes.registry_eq ▸ steady) served
  | changed _ allowed ih => exact .of_mirrors allowed ih.mirrors

theorem serve_host_eq (answers : s.engine.registry.Answers)
    (served : s.serve call = some (answer, next)) : next.host = s.host := by
  cases call with
  | load l =>
    cases served
    rfl
  | resolve target =>
    cases served
    rfl
  | execute budget target params =>
    obtain ⟨finished, ran, rfl⟩ := serve_execute served
    exact Runner.run_host_eq answers ran
  | reset =>
    cases served
    rfl

theorem exists_serveAll_iff (answers : s.engine.registry.Answers) (alike : Alike fs s s.cold)
    {calls : List Call} {given : List Answer} :
    (∃ last, s.serveAll calls = some (given, last)) ↔
      List.Forall₂ (fun call answer => s.cold.answer? call = some answer) calls given := by
  induction calls generalizing s given with
  | nil => simp [serveAll, eq_comm]
  | cons call rest ih =>
    have same := alike.answer?_eq answers.steady call
    rw [List.forall₂_cons_left_iff]
    unfold serveAll
    cases served : s.serve call with
    | none =>
      rw [answer?, served, Option.map_none] at same
      simp [← same]
    | some reply =>
      obtain ⟨answer, next⟩ := reply
      rw [answer?, served, Option.map_some] at same
      -- The next call meets the same host, and an engine that differs in its cache only.
      have kept : next.cold = s.cold := by
        rw [cold, serve_host_eq answers served]
        exact congrArg (Setup.mk · s.host) (cold_engine_eq served)
      have registry : next.engine.registry = s.engine.registry :=
        congrArg (fun t => t.engine.registry) kept
      have later := fun given => @ih next (registry ▸ answers) (alike.served answers.steady served) given
      rw [kept] at later
      constructor
      · rintro ⟨last, all⟩
        obtain ⟨⟨others, _⟩, behind, same'⟩ := Option.map_eq_some_iff.1 all
        cases same'
        exact ⟨answer, others, same.symm, (later others).1 ⟨last, behind⟩, rfl⟩
      · rintro ⟨first, others, again, each, rfl⟩
        obtain rfl := Option.some.inj (same.trans again)
        obtain ⟨last, behind⟩ := (later others).2 each
        exact ⟨last, by simp [behind]⟩

/-- While the files stay as they are, an engine answers as if it had read nothing. If actions only answer, it does so
whatever the order of the calls. -/
theorem serve_eq_cold (start : Setup σ) (fresh : start.engine.cache = .empty) :
    (start.engine.registry.Steady →
      ∀ later, start.Comes (fun host => host.files = start.host.files) later →
        (∀ call, later.answer? call = later.cold.answer? call) ∧
        (start.engine.registry.Answers → ∀ calls given last,
          later.serveAll calls = some (given, last) →
            List.Forall₂ (fun call answer => later.cold.answer? call = some answer) calls given ∧
            ∀ others, others.Perm calls → ∃ again last,
              later.serveAll others = some (again, last) ∧ again.Perm given)) ∧
    ∀ later, start.Comes (fun _ => True) later → later.serve .reset =
      some (.done,
        ⟨⟨start.engine.config, start.engine.resolver, .empty, start.engine.registry⟩, later.host⟩) := by
  constructor
  · intro steady later comes
    have begins : Alike start.host.files start start.cold :=
      .of_mirrors rfl (fresh ▸ Cache.mirrors_empty start.host.files)
    have alike := comes.alike steady begins
    have registry := comes.registry_eq
    refine ⟨alike.answer?_eq (registry ▸ steady), fun answers calls given last served => ?_⟩
    rw [← registry] at answers
    have each := (exists_serveAll_iff answers alike).1 ⟨last, served⟩
    refine ⟨each, fun others perm => ?_⟩
    -- Each answer is that of its own call, so the answers go along when the calls change places.
    obtain ⟨again, same, shuffled⟩ := List.perm_comp_forall₂ perm each
    obtain ⟨other, anew⟩ := (exists_serveAll_iff answers alike).2 same
    exact ⟨again, other, anew, shuffled⟩
  · intro later comes
    have kept : later.cold = ⟨start.cold.engine, later.host⟩ :=
      congrArg (Setup.mk · later.host) comes.cold_engine_eq
    exact congrArg (fun s => some (Answer.done, s)) kept

end Setup

namespace Sample

/-- A new engine beside the note, with an action of its name that does nothing. -/
def porter : Setup Unit where
  engine := ⟨.default, resolver, .empty, Registry.empty.register "tidy" .noop⟩
  host := ⟨early, ()⟩

theorem porter_answers : porter.engine.registry.Answers := by
  intro name action found
  simp only [porter, Registry.register, Registry.find?, Dictionary.find?_insert] at found
  split at found
  · cases found
    exact ⟨_, rfl⟩
  · cases found

def read : Setup Unit := ⟨(porter.engine.load early note).2, porter.host⟩

def succeeds : Answer → Bool
  | .result result _ => result.succeeded
  | _ => false

end Sample

namespace Setup

theorem serve_eq_cold_sample :
    (Sample.read.engine.cache.find? Sample.note).map Document.actionNames = some ["tidy"] ∧
    Sample.read.cold.engine.cache = .empty ∧
    (∃ answer, Sample.succeeds answer = true ∧
      Sample.read.answer? (.execute 1 (.location Sample.note) ∅) = some answer ∧
      Sample.read.cold.answer? (.execute 1 (.location Sample.note) ∅) = some answer) ∧
    ∃ after, Setup.serve { Sample.read with host := ⟨Sample.late, ()⟩ } .reset = some (.done, after) ∧
      after.engine.cache = .empty := by
  have served : Sample.porter.serve (.load Sample.note) =
      some (.document (Sample.porter.engine.load Sample.early Sample.note).1, Sample.read) := rfl
  have comes : Sample.porter.Comes (fun host => host.files = Sample.porter.host.files) Sample.read :=
    .served .start served
  obtain ⟨answers, reset⟩ := serve_eq_cold Sample.porter rfl
  have same := (answers Sample.porter_answers.steady Sample.read comes).1
  have runs : (Sample.read.answer? (.execute 1 (.location Sample.note) ∅)).map Sample.succeeds =
      some true := by
    decide +kernel
  obtain ⟨answer, given, succeeds⟩ := Option.map_eq_some_iff.1 runs
  refine ⟨by decide +kernel, rfl, ⟨answer, succeeds, given, ?_⟩, _, reset _ ?_, rfl⟩
  · rw [← same]
    exact given
  · exact .changed (.served .start served) trivial

end Setup

end WorkflowEngine
