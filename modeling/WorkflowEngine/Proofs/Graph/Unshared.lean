import WorkflowEngine.Proofs.Graph.Resolution

/-! Checking imports without sharing.

A check goes through the imports of a document with nothing but the chain of open documents in hand, and
enters a document again wherever it is imported. It comes to the same end as the search for a graph, since
what is settled leads to settled locations only and to none that is open.
-/

set_option autoImplicit false

namespace WorkflowEngine

namespace Sources

variable (S : Sources)

/-- Check the imports of the innermost open document in order, up to the first one that is rejected;
`enter` checks a document found there. -/
def checkImports (enter : Document → Option (Except GraphFailure Unit)) (chain : List Location)
    (w : Location) : List (Nat × WorkflowStep) → Option (Except GraphFailure Unit)
  | [] => some (.ok ())
  | (stepIndex, step) :: rest =>
    let reject (e : Error) := some (.error ⟨some ⟨w, stepIndex⟩, chain, e⟩)
    match S.target w step with
    | .error e => reject e
    | .ok target =>
      if target ∈ chain then reject (.cyclicImport chain target)
      else match S.document target with
        | .error e => reject e
        | .ok child =>
          match enter child with
          | some (.ok ()) => checkImports enter chain w rest
          | stopped => stopped

/-- Check a document below a chain of open ones, with a budget of documents that may be open. None, when
the budget was used up. -/
def check : Nat → List Location → Document → Option (Except GraphFailure Unit)
  | 0, _, _ => none
  | budget + 1, above, d =>
    let chain := above ++ [d.location]
    S.checkImports (check budget chain) chain d.location d.imports

def checkFrom (budget : Nat) (entry : Location) : Option (Except GraphFailure Unit) :=
  match S.document entry with
  | .error e => some (.error ⟨none, [], e⟩)
  | .ok d => S.check budget [] d

def Concludes (above : List Location) (d : Document) (verdict : Except GraphFailure Unit) : Prop :=
  ∃ budget, S.check budget above d = some verdict

def ConcludesImports (chain : List Location) (w : Location) (imports : List (Nat × WorkflowStep))
    (verdict : Except GraphFailure Unit) : Prop :=
  ∃ budget, S.checkImports (S.check budget chain) chain w imports = some verdict

variable {S}

section Budget

variable {enter further : Document → Option (Except GraphFailure Unit)} {chain : List Location}
  {w : Location} {verdict : Except GraphFailure Unit}

theorem checkImports_mono (same : ∀ d v, enter d = some v → further d = some v)
    {imports : List (Nat × WorkflowStep)}
    (checked : S.checkImports enter chain w imports = some verdict) :
    S.checkImports further chain w imports = some verdict := by
  induction imports with
  | nil => exact checked
  | cons first rest ih =>
    obtain ⟨stepIndex, step⟩ := first
    rw [checkImports] at checked ⊢
    cases means : S.target w step with
    | error e => simpa only [means] using checked
    | ok target =>
      simp only [means] at checked ⊢
      by_cases again : target ∈ chain
      · simpa only [again, if_true] using checked
      simp only [again, if_false] at checked ⊢
      cases loaded : S.document target with
      | error e => simpa only [loaded] using checked
      | ok child =>
        simp only [loaded] at checked ⊢
        cases entered : enter child with
        | none => simp [entered] at checked
        | some verdict =>
          rw [same child verdict entered]
          cases verdict with
          | error failure => simpa only [entered] using checked
          | ok _ => exact ih (by simpa only [entered] using checked)

theorem check_mono {budget more : Nat} (le : budget ≤ more) {above : List Location} {d : Document}
    (checked : S.check budget above d = some verdict) : S.check more above d = some verdict := by
  induction budget generalizing more above d verdict with
  | zero => cases checked
  | succ budget ih =>
    cases more with
    | zero => cases le
    | succ more => exact checkImports_mono (fun _ _ => ih (Nat.le_of_succ_le_succ le)) checked

theorem checkFrom_mono {budget more : Nat} (le : budget ≤ more) {entry : Location}
    (checked : S.checkFrom budget entry = some verdict) : S.checkFrom more entry = some verdict := by
  unfold checkFrom at checked ⊢
  cases loaded : S.document entry with
  | error e => simpa only [loaded] using checked
  | ok d => exact check_mono le (by simpa only [loaded] using checked)

end Budget

section Rules

variable {chain : List Location} {w target : Location} {stepIndex : Nat} {step : WorkflowStep}
  {rest : List (Nat × WorkflowStep)} {child : Document} {verdict : Except GraphFailure Unit}

theorem ConcludesImports.concludes {above : List Location} {d : Document}
    (concludes : S.ConcludesImports (above ++ [d.location]) d.location d.imports verdict) :
    S.Concludes above d verdict := by
  obtain ⟨budget, checked⟩ := concludes
  exact ⟨budget + 1, checked⟩

theorem Concludes.accepted (means : S.target w step = .ok target) (closed : target ∉ chain)
    (loaded : S.document target = .ok child) (inner : S.Concludes chain child (.ok ()))
    (later : S.ConcludesImports chain w rest verdict) :
    S.ConcludesImports chain w ((stepIndex, step) :: rest) verdict := by
  obtain ⟨inside, entered⟩ := inner
  obtain ⟨behind, checked⟩ := later
  refine ⟨max inside behind, ?_⟩
  rw [checkImports]
  simp only [means, closed, if_false, loaded, check_mono (Nat.le_max_left inside behind) entered]
  exact checkImports_mono (fun _ _ => check_mono (Nat.le_max_right inside behind)) checked

theorem Concludes.rejected {failure : GraphFailure} (means : S.target w step = .ok target)
    (closed : target ∉ chain) (loaded : S.document target = .ok child)
    (inner : S.Concludes chain child (.error failure)) :
    S.ConcludesImports chain w ((stepIndex, step) :: rest) (.error failure) := by
  obtain ⟨budget, entered⟩ := inner
  refine ⟨budget, ?_⟩
  rw [checkImports]
  simp only [means, closed, if_false, loaded, entered]

theorem ConcludesImports.of_forall {imports : List (Nat × WorkflowStep)}
    (each : ∀ i ∈ imports, ∃ m e, S.target w i.2 = .ok m ∧ m ∉ chain ∧ S.document m = .ok e ∧
      S.Concludes chain e (.ok ())) :
    S.ConcludesImports chain w imports (.ok ()) := by
  induction imports with
  | nil => exact ⟨0, rfl⟩
  | cons first rest ih =>
    obtain ⟨⟨m, e, means, closed, loaded, inner⟩, others⟩ := List.forall_mem_cons.1 each
    exact inner.accepted means closed loaded (ih others)

/-- What is settled is accepted below any chain that has nothing settled on it. -/
theorem Settled.concludes {settled : List Location} (ordered : S.Settled settled) {l : Location}
    (member : l ∈ settled) {above : List Location} (apart : ∀ m ∈ settled, m ∉ above) :
    ∃ d, S.document l = .ok d ∧ S.Concludes above d (.ok ()) := by
  induction settled generalizing l above with
  | nil => cases member
  | cons first before ih =>
    obtain ⟨fresh, ⟨d, loaded, leads⟩, earlier⟩ := ordered
    obtain ⟨_, others⟩ := List.forall_mem_cons.1 apart
    rcases List.mem_cons.1 member with rfl | member
    · obtain rfl : d.location = l := S.located _ _ loaded
      -- The head leads to locations behind it, and it is not one of these itself.
      have closed : ∀ m ∈ before, m ∉ above ++ [d.location] := by
        intro m inner there
        rcases List.mem_append.1 there with there | there
        · exact others m inner there
        · exact fresh (List.mem_singleton.1 there ▸ inner)
      have imports : S.ConcludesImports (above ++ [d.location]) d.location d.imports (.ok ()) := by
        refine .of_forall fun i inside => ?_
        obtain ⟨m, inner, means⟩ := leads i.1 i.2 inside
        obtain ⟨e, stands, accepted⟩ := ih earlier inner closed
        exact ⟨m, e, means, closed m inner, stands, accepted⟩
      exact ⟨d, loaded, imports.concludes⟩
    · exact ih earlier member others

end Rules

end Sources

section Walks

variable {S : Sources} {fs : FileSystem} {chain : List Location} {w : Location}
  {imports : List (Nat × WorkflowStep)} {settled : List Location} {cache : Cache}

theorem Explores.concludes {f : Findings} (explored : Explores S fs chain w imports settled cache f)
    (before : S.Coloured chain settled) : S.ConcludesImports chain w imports (.ok ()) := by
  induction explored with
  | done => exact ⟨0, rfl⟩
  | again means closed known _ ih =>
    obtain ⟨child, loaded, inner⟩ := before.ordered.concludes known before.apart
    exact inner.accepted means closed loaded (ih before)
  | entered means closed new loaded explored _ ihInner ihLater =>
    obtain rfl := S.located _ _ loaded
    have inner := (ihInner (before.inside new)).concludes
    have later := ihLater (explored.coloured_behind before closed new loaded)
    exact inner.accepted means closed loaded later

/-- What a search rejects first is also what a check rejects first. -/
theorem Rejects.concludes {failure : GraphFailure}
    (rejected : Rejects S fs chain w imports settled cache failure)
    (before : S.Coloured chain settled) : S.ConcludesImports chain w imports (.error failure) := by
  induction rejected with
  | unresolved failed => exact ⟨0, by simp [Sources.checkImports, failed]⟩
  | cyclic means again => exact ⟨0, by simp [Sources.checkImports, means, again]⟩
  | unloaded means closed _ unread =>
    exact ⟨0, by simp [Sources.checkImports, means, closed, unread]⟩
  | inside means closed new loaded _ ih =>
    obtain rfl := S.located _ _ loaded
    exact (ih (before.inside new)).concludes.rejected means closed loaded
  | behindEdge means closed known _ ih =>
    -- What the search passes over is checked again, and accepted again.
    obtain ⟨child, loaded, inner⟩ := before.ordered.concludes known before.apart
    exact inner.accepted means closed loaded (ih before)
  | behindImport means closed new loaded explored _ ih =>
    obtain rfl := S.located _ _ loaded
    have inner := (explored.concludes (before.inside new)).concludes
    have later := ih (explored.coloured_behind before closed new loaded)
    exact inner.accepted means closed loaded later

end Walks

namespace Sample

def stray : Document where
  location := ⟨["w", "c.y"]⟩
  description := none
  defaults := ∅
  steps := [.workflow ⟨⟨"b"⟩, none, ∅⟩, .workflow ⟨⟨"./b"⟩, none, ∅⟩, .workflow ⟨⟨"c"⟩, none, ∅⟩]

def strayCache : Cache := (Cache.empty.insert leaf).insert stray

end Sample

namespace Resolver

theorem exists_checkFrom (r : Resolver) (fs : FileSystem) (cache : Cache) (entry : Location) :
    ∃ budget, (r.sources fs cache).checkFrom budget entry =
      some ((r.resolveGraph fs cache entry).1.map fun _ => ()) := by
  cases read : cache.document fs entry with
  | error e =>
    have unread : (r.sources fs cache).document entry = .error e := read
    refine ⟨0, ?_⟩
    simp [Sources.checkFrom, unread, resolveGraph, Cache.load_of_document_error read, Except.map]
  | ok d =>
    obtain rfl : d.location = entry := Cache.location_of_document read
    have loaded : (r.sources fs cache).document d.location = .ok d := read
    have before := (r.sources fs cache).coloured_nil ([] ++ [d.location])
    simp only [Sources.checkFrom, loaded]
    rcases explores_or_rejects (r := r) read with ⟨f, explored, found⟩ | ⟨failure, _, rejects, failed⟩
    · rw [found]
      exact (explored.concludes before).concludes
    · rw [failed]
      exact (rejects.concludes before).concludes

/-- The search for a graph, which passes over what is settled, comes to the same end as a check that enters every
import, on every budget that is large enough. -/
theorem checkFrom_eq_resolveGraph (r : Resolver) (fs : FileSystem) (cache : Cache) (entry : Location) :
    (∃ enough, ∀ budget, enough ≤ budget → (r.sources fs cache).checkFrom budget entry =
      some ((r.resolveGraph fs cache entry).1.map fun _ => ())) ∧
    ∀ budget verdict, (r.sources fs cache).checkFrom budget entry = some verdict →
      verdict = (r.resolveGraph fs cache entry).1.map fun _ => () := by
  obtain ⟨enough, checked⟩ := r.exists_checkFrom fs cache entry
  refine ⟨⟨enough, fun budget le => Sources.checkFrom_mono le checked⟩, fun budget verdict other => ?_⟩
  have first := Sources.checkFrom_mono (Nat.le_max_left enough budget) checked
  have second := Sources.checkFrom_mono (Nat.le_max_right enough budget) other
  exact Option.some.inj (second.symm.trans first)

/-- A check enters the leaf twice where the search passes over it, and both reject the import behind. -/
theorem checkFrom_eq_resolveGraph_sample : ∃ f,
    (Sample.resolver.sources .empty Sample.strayCache).checkFrom 2 Sample.stray.location =
      some (.error f) ∧
    (Sample.resolver.resolveGraph .empty Sample.strayCache Sample.stray.location).1.map (fun _ => ()) =
      .error f ∧
    f.site = some ⟨Sample.stray.location, 2⟩ := by
  obtain ⟨_, only⟩ := checkFrom_eq_resolveGraph Sample.resolver .empty Sample.strayCache
    Sample.stray.location
  have same := only 2 _ rfl
  exact ⟨_, rfl, same.symm, rfl⟩

end Resolver

end WorkflowEngine
