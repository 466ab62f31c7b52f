import WorkflowEngine.Proofs.Cache.Accesses
import WorkflowEngine.Proofs.Graph.Search

/-! Which documents a search visits.

A search follows the walk of a resolver through the imports, so its visits are what the walk loads, but for a last
load that fails. Only finitely many documents load for a resolver at all: those in the cache, and those that the names
of the file system can spell. So the search for a graph has an end, and no document is visited or loaded twice.
-/

set_option autoImplicit false

namespace WorkflowEngine

open Relation

/-- The visits of a search are some loads, but for a last one that fails. -/
def Search.Tried (S : Sources) (s : Search) (loads : List Location) : Prop :=
  ∃ failed : Option Location, loads = s.visits ++ failed.toList ∧ ∀ l ∈ failed, ∃ e, S.document l = .error e

def Search.behind (s : Search) (opened : List OpenDocument) (f : Findings) : Search :=
  ⟨opened, f.settled, s.graph.extend f, s.visits ++ f.locations⟩

/-- A search comes to have found what a walk finds, with some documents left open, or to the failure that the walk is
rejected with; and it visits what the walk loads. -/
def Resolver.Follows (r : Resolver) (fs : FileSystem) (S : Sources) (s : Search) (left : List OpenDocument)
    (loads : List Location) : WalkResult → Prop
  | .found f => r.sources fs f.cache = S ∧ loads = f.locations ∧ ReflTransGen (Search.Moves S) s (s.behind left f)
  | .rejected failure _ => ∃ t, ReflTransGen (Search.Moves S) s t ∧ t.move S = .ended (.error failure) ∧
      t.Tried S (s.visits ++ loads)
  | .exhausted => True

namespace Resolver.Follows

variable {r : Resolver} {fs : FileSystem} {S : Sources} {s t : Search} {left between : List OpenDocument}
  {loads inside later : List Location} {result : WalkResult} {edge : ImportEdge} {child : Document}

theorem leave {w : Location} {outer : List OpenDocument}
    (follows : r.Follows fs S s (⟨w, []⟩ :: outer) loads result) :
    r.Follows fs S s outer loads (result.map (.settle w)) := by
  cases result with
  | found f =>
    obtain ⟨unchanged, loaded, moves⟩ := follows
    exact ⟨unchanged, loaded, moves.tail .leave⟩
  | rejected => exact follows
  | exhausted => trivial

theorem behindEdge (moves : Search.Moves S s t) (graph : t.graph = s.graph.addEdge edge)
    (visits : t.visits = s.visits) (follows : r.Follows fs S t left loads result) :
    r.Follows fs S s left loads (result.map (.behindEdge edge)) := by
  cases result with
  | found f =>
    obtain ⟨unchanged, loaded, after⟩ := follows
    have same : t.behind left f = s.behind left (f.behindEdge edge) := by
      rw [Search.behind, Search.behind, ImportGraph.extend_behindEdge, graph, visits]
      rfl
    exact ⟨unchanged, loaded, .head moves (same ▸ after)⟩
  | rejected =>
    obtain ⟨u, after, failed, tried⟩ := follows
    exact ⟨u, .head moves after, failed, visits ▸ tried⟩
  | exhausted => trivial

variable (moves : Search.Moves S s t) (visits : t.visits = s.visits ++ [child.location])
include moves visits

theorem entered {failure : GraphFailure} {cache : Cache}
    (follows : r.Follows fs S t between inside (.rejected failure cache)) :
    r.Follows fs S s left (child.location :: inside) (.rejected failure cache) := by
  obtain ⟨u, after, failed, tried⟩ := follows
  rw [visits, List.append_assoc] at tried
  exact ⟨u, .head moves after, failed, tried⟩

theorem behindImport {inner : Findings} (graph : t.graph = (s.graph.addEdge edge).addDocument child)
    (below : r.Follows fs S t between inside (.found inner))
    (follows : r.Follows fs S (t.behind between inner) left later result) :
    r.Follows fs S s left (child.location :: (inside ++ later)) (result.map (.behindImport edge child inner)) := by
  obtain ⟨_, rfl, through⟩ := below
  have visited : (t.behind between inner).visits ++ later =
      s.visits ++ child.location :: (inner.locations ++ later) := by
    simp [Search.behind, visits]
  cases result with
  | found f =>
    obtain ⟨unchanged, rfl, after⟩ := follows
    have locations : child.location :: (inner.locations ++ f.locations) =
        (Findings.behindImport edge child inner f).locations := by
      simp [Findings.locations, Findings.behindImport]
    have same : (t.behind between inner).behind left f = s.behind left (.behindImport edge child inner f) := by
      simp only [Search.behind, ImportGraph.extend_behindImport, graph, visits, ← locations]
      simp [Findings.behindImport]
    exact ⟨unchanged, locations, .head moves (through.trans (same ▸ after))⟩
  | rejected =>
    obtain ⟨u, after, failed, tried⟩ := follows
    exact ⟨u, .head moves (through.trans after), failed, visited ▸ tried⟩
  | exhausted => trivial

end Resolver.Follows

namespace Resolver

variable {r : Resolver} {fs : FileSystem} {S : Sources}

theorem importLoads_follow {enter : Document → List Location → Cache → WalkResult}
    {enters : Document → List Location → Cache → List Location} {outer : List OpenDocument} {w : Location}
    {chain : List Location} (above : chain = Search.chainOf outer ++ [w])
    (entering : ∀ child settled cache graph visits rest, r.sources fs cache = S →
      r.Follows fs S ⟨⟨child.location, child.imports⟩ :: ⟨w, rest⟩ :: outer, settled, graph, visits⟩
        (⟨w, rest⟩ :: outer) (enters child settled cache) (enter child settled cache))
    (imports : List (Nat × WorkflowStep)) (settled : List Location) (cache : Cache) (graph : ImportGraph)
    (visits : List Location) (unchanged : r.sources fs cache = S) :
    r.Follows fs S ⟨⟨w, imports⟩ :: outer, settled, graph, visits⟩ (⟨w, []⟩ :: outer)
      (r.importLoads fs enter enters chain w imports settled cache)
      (r.walkImports fs enter chain w imports settled cache) := by
  -- At each import the search has the chain and the settled locations of the walk.
  induction imports generalizing settled cache graph visits with
  | nil =>
    refine ⟨unchanged, rfl, ?_⟩
    rw [Search.behind, ImportGraph.extend_nothing, Findings.locations, Findings.nothing, List.map_nil,
      List.append_nil]
  | cons first rest ih =>
    obtain ⟨stepIndex, step⟩ := first
    have target : S.target w step = r.importTarget fs w step := by rw [← unchanged, sources_target]
    have document : S.document = cache.document fs := by rw [← unchanged, sources_document]
    have opened : Search.chain ⟨⟨w, (stepIndex, step) :: rest⟩ :: outer, settled, graph, visits⟩ = chain :=
      (Search.chainOf_cons _ _).trans above.symm
    rw [walkImports, importLoads]
    cases means : r.importTarget fs w step with
    | error e =>
      rw [means] at target
      exact ⟨_, .refl, by simp [Search.move, opened, target], none, rfl, by simp⟩
    | ok m =>
      rw [means] at target
      dsimp only
      by_cases again : m ∈ chain
      · simp only [List.contains_eq_mem, again, decide_true, if_true]
        exact ⟨_, .refl, by simp [Search.move, opened, target, again], none, rfl, by simp⟩
      by_cases known : m ∈ settled
      · simp only [List.contains_eq_mem, again, known, decide_true, decide_false, if_true,
          Bool.false_eq_true, if_false]
        exact .behindEdge (.pass target (above ▸ again) known) rfl rfl (ih settled cache _ visits unchanged)
      simp only [List.contains_eq_mem, again, known, decide_false, Bool.false_eq_true, if_false]
      cases read : cache.document fs m with
      | error e =>
        rw [Cache.load_of_document_error read]
        have unread : S.document m = .error e := (congrFun document m).trans read
        refine ⟨_, .refl, ?_, some m, rfl, by simpa using ⟨e, unread⟩⟩
        simp [Search.move, opened, target, again, known, unread]
      | ok child =>
        rw [Cache.load_of_document read]
        obtain rfl : child.location = m := Cache.location_of_document read
        have stands : S.document child.location = .ok child := (congrFun document _).trans read
        have moves := @Search.Moves.enter S w child.location stepIndex step rest outer settled visits graph child
          target (above ▸ again) known stands
        have below := entering child settled (cache.load fs child.location).2
          ((graph.addEdge ⟨⟨w, stepIndex⟩, child.location⟩).addDocument child) (visits ++ [child.location]) rest
          ((r.sources_load fs cache _).trans unchanged)
        dsimp only
        cases walked : enter child settled (cache.load fs child.location).2 with
        | rejected failure after =>
          rw [walked] at below
          rw [List.append_nil]
          exact .entered moves rfl below
        | exhausted => trivial
        | found inner =>
          rw [walked] at below
          exact .behindImport moves rfl rfl below (ih inner.settled inner.cache _ _ below.1)

theorem walkLoads_follow (budget : Nat) (outer : List OpenDocument) (d : Document) (settled : List Location)
    (cache : Cache) (graph : ImportGraph) (visits : List Location) (unchanged : r.sources fs cache = S) :
    r.Follows fs S ⟨⟨d.location, d.imports⟩ :: outer, settled, graph, visits⟩ outer
      (r.walkLoads fs budget (Search.chainOf outer) d settled cache)
      (r.walk fs budget (Search.chainOf outer) d settled cache) := by
  induction budget generalizing outer d settled cache graph visits with
  | zero => trivial
  | succ budget ih =>
    refine .leave (importLoads_follow rfl ?_ d.imports settled cache graph visits unchanged)
    intro child settled cache graph visits rest unchanged
    have below := ih (⟨d.location, rest⟩ :: outer) child settled cache graph visits unchanged
    rwa [Search.chainOf_cons] at below

theorem exists_search_last {cache : Cache} {entry : Location} {d : Document}
    (read : cache.document fs entry = .ok d) :
    ∃ n s, (r.sources fs cache).search entry n = .searching s ∧
      s.move (r.sources fs cache) = .ended (r.resolveGraph fs cache entry).1 ∧
      s.Tried (r.sources fs cache) (r.graphLoads fs cache entry) := by
  have begun : (r.sources fs cache).search entry 0 = .searching (.start entry d) := by
    rw [Sources.search, sources_document, read]
  obtain rfl : d.location = entry := Cache.location_of_document read
  rw [resolveGraph, graphLoads, Cache.load_of_document read]
  have follows := walkLoads_follow (walkBudget fs (cache.load fs d.location).2) [] d [] _ ⟨d.location, d, [], []⟩
    [d.location] (r.sources_load fs cache d.location)
  dsimp only
  cases walked : r.walk fs (walkBudget fs (cache.load fs d.location).2) [] d [] (cache.load fs d.location).2 with
  | exhausted => exact absurd walked (walk_ne_exhausted read)
  | found f =>
    rw [show Search.chainOf [] = [] from rfl, walked] at follows
    obtain ⟨_, loaded, moves⟩ := follows
    obtain ⟨n, reached⟩ := Sources.exists_search_of_moves begun moves
    exact ⟨n, _, reached, rfl, none, by simp [Search.behind, loaded], by simp⟩
  | rejected failure after =>
    rw [show Search.chainOf [] = [] from rfl, walked] at follows
    obtain ⟨s, moves, failed, tried⟩ := follows
    obtain ⟨n, reached⟩ := Sources.exists_search_of_moves begun moves
    exact ⟨n, s, reached, failed, tried⟩

/-- The search over what a resolver goes by ends with what that answers, and visits what that loads, in its order. -/
theorem search_tried (r : Resolver) (fs : FileSystem) (cache : Cache) (entry : Location) :
    (∃ n, (r.sources fs cache).search entry n = .ended (r.resolveGraph fs cache entry).1) ∧
    ∀ n s, (r.sources fs cache).search entry n = .searching s →
      s.visits <+: r.graphLoads fs cache entry ∧
      ∀ verdict, s.move (r.sources fs cache) = .ended verdict →
        s.Tried (r.sources fs cache) (r.graphLoads fs cache entry) := by
  cases read : cache.document fs entry with
  | error e =>
    have past : (r.sources fs cache).search entry 0 = .ended (r.resolveGraph fs cache entry).1 := by
      rw [Sources.search, sources_document, read, resolveGraph, Cache.load_of_document_error read]
    refine ⟨⟨0, past⟩, fun n s searched => ?_⟩
    cases (Sources.search_ended past (Nat.zero_le n)).symm.trans searched
  | ok d =>
    -- There is one last state, and every other one has some of its visits, the first ones.
    obtain ⟨m, t, last, ends, tried⟩ := exists_search_last (r := r) read
    have ended : (r.sources fs cache).search entry (m + 1) = .ended (r.resolveGraph fs cache entry).1 := by
      rw [Sources.search, last]
      exact ends
    refine ⟨⟨m + 1, ended⟩, fun n s searched => ⟨?_, fun verdict stops => ?_⟩⟩
    · obtain ⟨failed, loads, _⟩ := tried
      have before := Sources.visits_isPrefix searched last (Sources.le_of_move_ended last ends searched)
      exact loads ▸ before.trans (List.prefix_append _ _)
    · obtain rfl : n = m := Nat.le_antisymm (Sources.le_of_move_ended last ends searched)
        (Sources.le_of_move_ended searched stops last)
      cases searched.symm.trans last
      exact tried

variable (r : Resolver) (fs : FileSystem)

/-- No location is loaded twice for a graph. -/
theorem nodup_graphLoads (cache : Cache) (entry : Location) : (r.graphLoads fs cache entry).Nodup := by
  cases read : cache.document fs entry with
  | error e =>
    rw [graphLoads, Cache.load_of_document_error read]
    exact List.nodup_singleton _
  | ok d =>
    obtain ⟨n, s, last, _, failed, loads, unread⟩ := exists_search_last (r := r) read
    obtain ⟨tidy, _⟩ := Sources.search_accounts last
    rw [loads]
    refine List.nodup_append.2 ⟨tidy.once, by cases failed <;> simp, ?_⟩
    -- What was visited has been read, so it is not what cannot be.
    rintro l member m fails rfl
    obtain ⟨e, error⟩ := unread l (Option.mem_toList.1 fails)
    rw [← tidy.documents] at member
    obtain ⟨d, inside, rfl⟩ := List.mem_map.1 member
    cases (tidy.stands d inside).symm.trans error

/-- Only finitely many documents load for a resolver: those that it has in the cache, and those at words over
the names of the file system, which are not longer than look-ups go deep. -/
theorem exists_loadable (cache : Cache) :
    ∃ loadable : List Location, ∀ l, (r.sources fs cache).Loadable l → l ∈ loadable := by
  refine ⟨cache.locations ++
    (words fs.lastNames ((FileSystem.linkLimit + 1) * (fs.depth + 1))).map Location.mk, ?_⟩
  rintro l ⟨⟨w, step, means⟩, d, read⟩
  rw [sources_target] at means
  rw [sources_document, Cache.document] at read
  split at read
  · rename_i found
    exact List.mem_append_left _ (Dictionary.mem_keys.2 ⟨_, found⟩)
  · obtain ⟨known, bounded⟩ := FileSystem.names_of_readDocument (proper_of_importTarget means) read
    exact List.mem_append_right _ (List.mem_map.2 ⟨l.names, mem_words known bounded, rfl⟩)

/-- Where only finitely many documents load, the search for a graph ends as a resolver does and visits what that
loads. Nothing is visited, loaded or found twice. -/
theorem resolveGraph_visits_once (S : Sources) (loadable : List Location)
    (finite : ∀ l, S.Loadable l → l ∈ loadable) (entry : Location) :
    (∃ verdict, S.search entry (S.movesAt (entry :: loadable) + 1) = .ended verdict ∧
      (∀ g, verdict = .ok g → g.locations.Nodup) ∧
      ∀ (r : Resolver) (fs : FileSystem) (cache : Cache), r.sources fs cache = S →
        (r.resolveGraph fs cache entry).1 = verdict ∧ (r.graphLoads fs cache entry).Nodup ∧
        ∀ n s, S.search entry n = .searching s →
          s.visits <+: r.graphLoads fs cache entry ∧
          (s.move S = .ended verdict → s.Tried S (r.graphLoads fs cache entry))) ∧
    ∀ n s, S.search entry n = .searching s →
      s.visits.Nodup ∧ s.chain.Nodup ∧ s.chain.Disjoint s.settled ∧
      s.graph.locations = s.visits ∧ n + s.pending = s.work := by
  obtain ⟨verdict, ended⟩ := Sources.exists_ended finite entry
  refine ⟨⟨verdict, ended, ?_, ?_⟩, ?_⟩
  · rintro g rfl
    obtain ⟨n, s, reached, rfl⟩ := Sources.exists_search_of_ended ended
    obtain ⟨tidy, _⟩ := Sources.search_accounts reached
    rw [ImportGraph.locations, tidy.documents]
    exact tidy.once
  · rintro r fs cache rfl
    obtain ⟨⟨n, own⟩, tried⟩ := r.search_tried fs cache entry
    refine ⟨Sources.ended_unique own ended, r.nodup_graphLoads fs cache entry, fun n s searched => ?_⟩
    obtain ⟨before, last⟩ := tried n s searched
    exact ⟨before, last verdict⟩
  · intro n s reached
    obtain ⟨tidy, counted⟩ := Sources.search_accounts reached
    obtain ⟨open', _, apart⟩ := List.nodup_append'.1 tidy.nodup_append
    exact ⟨tidy.once, open', apart, tidy.documents, counted⟩

/-- A document that is imported twice is entered once, and its second import makes one move. -/
theorem resolveGraph_visits_once_sample : ∃ s n,
    (Sample.resolver.sources .empty Sample.cache).search Sample.entry.location 3 = .searching s ∧
      s.visits = [Sample.entry.location, Sample.leaf.location] ∧ s.visits.Nodup ∧
      s.visits <+: Sample.resolver.graphLoads .empty Sample.cache Sample.entry.location ∧
      s.chain.Disjoint s.settled ∧ 3 + s.pending = s.work ∧
      (Sample.resolver.sources .empty Sample.cache).search Sample.entry.location n =
        .ended (.ok Sample.graph) := by
  obtain ⟨loadable, finite⟩ := exists_loadable Sample.resolver .empty Sample.cache
  obtain ⟨⟨verdict, ended, _, same⟩, along⟩ := resolveGraph_visits_once
    (Sample.resolver.sources .empty Sample.cache) loadable finite Sample.entry.location
  obtain ⟨once, _, apart, _, counted⟩ := along 3 _ rfl
  obtain ⟨own, _, tried⟩ := same Sample.resolver .empty Sample.cache rfl
  obtain rfl : .ok Sample.graph = verdict := own
  exact ⟨_, _, rfl, rfl, once, (tried 3 _ rfl).1, apart, counted, ended⟩

end Resolver

end WorkflowEngine
