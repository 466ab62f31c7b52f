import WorkflowEngine.Proofs.Cache.Accesses

/-! Histories of a cache.

Loads, searches for import graphs and runs follow each other on one cache, each on the files as they are at
its time, and runs may change the files and have all documents forgotten. At every moment, also inside of a
search or a run, a cache remembers the accesses made so far.
-/

set_option autoImplicit false

namespace WorkflowEngine

/-- What is done with a cache, by resolvers and runners of any kind. -/
inductive Operation (σ : Type) where
  | load (files : FileSystem) (l : Location)
  | clear
  | resolve (resolver : Resolver) (files : FileSystem) (entry : Location)
  | execute (runner : Runner σ) (budget : Nat) (target : Target) (params : Params) (host : Host σ)

namespace Operation

variable {σ : Type}

/-- The cache that an operation leaves, unless it is a run that has not come to its end on its budget. -/
def after (c : Cache) : Operation σ → Option Cache
  | .load files l => some (c.load files l).2
  | .clear => some .empty
  | .resolve resolver files entry => some (resolver.resolveGraph files c entry).2
  | .execute runner budget target params host =>
    (runner.run budget target params ⟨host, c⟩).map fun finished => finished.session.cache

def accesses (c : Cache) : Operation σ → List Access
  | .load files l => [.load files l]
  | .clear => [.clear]
  | .resolve resolver files entry => resolver.graphAccesses files c entry
  | .execute runner budget target params host => runner.runAccesses budget target params ⟨host, c⟩

def seen (c : Cache) : Operation σ → List Cache
  | .execute runner budget target params host =>
    match runner.run budget target params ⟨host, c⟩ with
    | some finished => RunEvent.caches finished.events
    | none => []
  | _ => []

def afterAll (c : Cache) : List (Operation σ) → Option Cache
  | [] => some c
  | operation :: later =>
    match operation.after c with
    | some next => afterAll next later
    | none => none

/-- The accesses of operations in order, up to where one does not come to its end. -/
def history (c : Cache) : List (Operation σ) → List Access
  | [] => []
  | operation :: later =>
    operation.accesses c ++ match operation.after c with
      | some next => history next later
      | none => []

def seenAll (c : Cache) : List (Operation σ) → List Cache
  | [] => []
  | operation :: later =>
    operation.seen c ++ match operation.after c with
      | some next => seenAll next later
      | none => []

theorem replay_accesses {c next : Cache} {operation : Operation σ}
    (left : operation.after c = some next) : c.replay (operation.accesses c) = next := by
  cases operation with
  | load files l => exact Option.some.inj left
  | clear => exact Option.some.inj left
  | resolve resolver files entry =>
    rw [← Option.some.inj left]
    exact resolver.replay_graphAccesses files c entry
  | execute runner budget target params host =>
    obtain ⟨finished, ran, rfl⟩ := Option.map_eq_some_iff.1 left
    exact (Runner.tracks_run ran).1

theorem replay_seen {c now : Cache} {operation : Operation σ} (shown : now ∈ operation.seen c) :
    ∃ done, done <+: operation.accesses c ∧ now = c.replay done := by
  cases operation with
  | execute runner budget target params host =>
    rw [seen] at shown
    cases ran : runner.run budget target params ⟨host, c⟩ with
    | none => simp [ran] at shown
    | some finished =>
      simp only [ran] at shown
      exact (Runner.tracks_run ran).2 now shown
  | _ => cases shown

theorem replay_history {c last : Cache} {operations : List (Operation σ)}
    (left : afterAll c operations = some last) : c.replay (history c operations) = last := by
  induction operations generalizing c with
  | nil => exact Option.some.inj left
  | cons operation later ih =>
    unfold afterAll at left
    unfold history
    cases next : operation.after c with
    | none => simp [next] at left
    | some between =>
      simp only [next] at left ⊢
      rw [Cache.replay_append, replay_accesses next, ih left]

theorem replay_seenAll {c now : Cache} {operations : List (Operation σ)}
    (shown : now ∈ seenAll c operations) :
    ∃ done, done <+: history c operations ∧ now = c.replay done := by
  induction operations generalizing c with
  | nil => cases shown
  | cons operation later ih =>
    unfold seenAll at shown
    unfold history
    rcases List.mem_append.1 shown with inside | behind
    · obtain ⟨done, before, rfl⟩ := replay_seen inside
      exact ⟨done, before.trans (List.prefix_append _ _), rfl⟩
    · cases next : operation.after c with
      | none => simp [next] at behind
      | some between =>
        simp only [next] at behind ⊢
        obtain ⟨done, before, rfl⟩ := ih behind
        refine ⟨_, (List.prefix_append_right_inj _).2 before, ?_⟩
        rw [Cache.replay_append, replay_accesses next]

/-- A cache that was empty remembers, at every moment of a history, the accesses made so far: those of
failed searches and runs, and those inside of a run that changes the files or has everything forgotten. -/
theorem remembers_history (operations : List (Operation σ)) :
    (∀ c, afterAll .empty operations = some c → c = Cache.empty.replay (history .empty operations)) ∧
    (∀ c ∈ seenAll .empty operations,
      ∃ done, done <+: history .empty operations ∧ c = Cache.empty.replay done) ∧
    ∀ done, done <+: history .empty operations → Cache.Remembers done (Cache.empty.replay done) := by
  refine ⟨fun c left => ?_, fun c shown => replay_seenAll shown, fun done _ => Cache.remembers done⟩
  exact (replay_history left).symm

end Operation

namespace Sample

def note : Location := ⟨["a.y"]⟩

def noted (text : String) : FileSystem :=
  ⟨(∅ : Dictionary Location Entry).insert note (.file (.text text)), .top⟩

def early : FileSystem := noted "steps:\n- action: tidy\n"

def late : FileSystem := noted "steps: []\n"

def tidying : Runner Unit where
  resolver := resolver
  registry := Registry.empty.register "tidy" fun _ host => ⟨.ok true, host, true, []⟩
  defaultPause := 0

/-- The note is missing, then written, then rewritten; it is run, and is missing again for a while. -/
def diary : List (Operation Unit) :=
  [.load .empty note, .load early note, .load late note, .execute tidying 1 (.location note) ∅ ⟨late, ()⟩,
    .load .empty note, .load late note]

end Sample

namespace Operation

/-- The run of a note goes by its first text, and the second text shows once the run has it forgotten. -/
theorem remembers_history_sample : ∃ c, afterAll .empty Sample.diary = some c ∧
    (c.find? Sample.note).map Document.actionNames = some [] ∧
    Cache.Remembers (history .empty Sample.diary) c ∧
    ∃ done, done <+: history .empty Sample.diary ∧ Cache.Remembers done (Cache.empty.replay done) ∧
      ((Cache.empty.replay done).find? Sample.note).map Document.actionNames = some ["tidy"] := by
  obtain ⟨replayed, _, remembers⟩ := remembers_history Sample.diary
  have ends : (afterAll .empty Sample.diary).map
      (fun c => (c.find? Sample.note).map Document.actionNames) = some (some []) := by
    decide +kernel
  have between : ((Cache.empty.replay ((history .empty Sample.diary).take 4)).find? Sample.note).map
      Document.actionNames = some ["tidy"] := by
    decide +kernel
  obtain ⟨c, left, last⟩ := Option.map_eq_some_iff.1 ends
  refine ⟨c, left, last, ?_, _, List.take_prefix 4 _, remembers _ (List.take_prefix 4 _), between⟩
  rw [replayed c left]
  exact remembers _ List.prefix_rfl

end Operation

end WorkflowEngine
