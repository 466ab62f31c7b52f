import WorkflowEngine.Proofs.Graph.Resolution
import Mathlib.Data.List.Flatten
import Mathlib.Data.List.Perm.Subperm

/-! A search move by move.

A search for a graph keeps the open documents, each with the imports that it still has ahead. A move takes the
next import of the innermost one, or leaves it. No document is entered twice, so a search makes no more moves
than the documents that it finds have imports and ends, and where only finitely many load it comes to an end.
For what a resolver goes by, that end is what the resolver answers, with no budget to be used up.
-/

set_option autoImplicit false

namespace WorkflowEngine

open Relation

namespace ImportGraph

def addEdge (g : ImportGraph) (edge : ImportEdge) : ImportGraph := { g with edges := g.edges ++ [edge] }

def addDocument (g : ImportGraph) (d : Document) : ImportGraph := { g with imported := g.imported ++ [d] }

def extend (g : ImportGraph) (f : Findings) : ImportGraph :=
  { g with imported := g.imported ++ f.documents, edges := g.edges ++ f.edges }

end ImportGraph

/-- A document that was entered and not left, with the imports that are still to be gone through. -/
structure OpenDocument where
  location : Location
  ahead : List (Nat × WorkflowStep)

structure Search where
  /-- The open documents, the innermost one first. -/
  opened : List OpenDocument
  settled : List Location
  /-- What was found so far. -/
  graph : ImportGraph
  /-- The documents that were entered, in order. -/
  visits : List Location

inductive SearchState where
  | searching (search : Search)
  | ended (verdict : Except GraphFailure ImportGraph)

def Sources.Loadable (S : Sources) (l : Location) : Prop :=
  (∃ w step, S.target w step = .ok l) ∧ ∃ d, S.document l = .ok d

namespace Search

def chainOf (opened : List OpenDocument) : List Location := (opened.map OpenDocument.location).reverse

def chain (s : Search) : List Location := chainOf s.opened

theorem chainOf_cons (o : OpenDocument) (outer : List OpenDocument) :
    chainOf (o :: outer) = chainOf outer ++ [o.location] := by
  simp [chainOf]

def enter (s : Search) (l : Location) (d : Document) : Search where
  opened := ⟨l, d.imports⟩ :: s.opened
  settled := s.settled
  graph := s.graph.addDocument d
  visits := s.visits ++ [l]

def start (entry : Location) (d : Document) : Search :=
  ⟨[⟨entry, d.imports⟩], [], ⟨entry, d, [], []⟩, [entry]⟩

/-- One move: leave the innermost document if it has nothing ahead, or else take up its next import. -/
def move (S : Sources) (s : Search) : SearchState :=
  match s.opened with
  | [] => .ended (.ok s.graph)
  | ⟨w, []⟩ :: outer => .searching ⟨outer, w :: s.settled, s.graph, s.visits⟩
  | ⟨w, (stepIndex, step) :: rest⟩ :: outer =>
    let reject (e : Error) : SearchState := .ended (.error ⟨some ⟨w, stepIndex⟩, s.chain, e⟩)
    match S.target w step with
    | .error e => reject e
    | .ok target =>
      if s.chain.contains target then reject (.cyclicImport s.chain target)
      else
        let passed : Search :=
          ⟨⟨w, rest⟩ :: outer, s.settled, s.graph.addEdge ⟨⟨w, stepIndex⟩, target⟩, s.visits⟩
        if s.settled.contains target then .searching passed
        else match S.document target with
          | .error e => reject e
          | .ok child => .searching (passed.enter target child)

inductive Moves (S : Sources) : Search → Search → Prop
  | leave {w : Location} {outer : List OpenDocument} {settled visits : List Location}
      {graph : ImportGraph} :
      Moves S ⟨⟨w, []⟩ :: outer, settled, graph, visits⟩ ⟨outer, w :: settled, graph, visits⟩
  | pass {w target : Location} {stepIndex : Nat} {step : WorkflowStep}
      {rest : List (Nat × WorkflowStep)} {outer : List OpenDocument} {settled visits : List Location}
      {graph : ImportGraph} :
      S.target w step = .ok target → target ∉ chainOf outer ++ [w] → target ∈ settled →
      Moves S ⟨⟨w, (stepIndex, step) :: rest⟩ :: outer, settled, graph, visits⟩
        ⟨⟨w, rest⟩ :: outer, settled, graph.addEdge ⟨⟨w, stepIndex⟩, target⟩, visits⟩
  | enter {w target : Location} {stepIndex : Nat} {step : WorkflowStep}
      {rest : List (Nat × WorkflowStep)} {outer : List OpenDocument} {settled visits : List Location}
      {graph : ImportGraph} {child : Document} :
      S.target w step = .ok target → target ∉ chainOf outer ++ [w] → target ∉ settled →
      S.document target = .ok child →
      Moves S ⟨⟨w, (stepIndex, step) :: rest⟩ :: outer, settled, graph, visits⟩
        (enter ⟨⟨w, rest⟩ :: outer, settled, graph.addEdge ⟨⟨w, stepIndex⟩, target⟩, visits⟩ target child)

variable {S : Sources} {entry : Location} {s t : Search}

theorem move_of_moves (moves : Moves S s t) : s.move S = .searching t := by
  cases moves with
  | leave => rfl
  | pass means closed known => simp [move, chain, chainOf_cons, means, closed, known]
  | enter means closed new stands => simp [move, chain, chainOf_cons, means, closed, new, stands]

theorem moves_of_move (moved : s.move S = .searching t) : Moves S s t := by
  obtain ⟨opened, settled, graph, visits⟩ := s
  unfold move at moved
  split at moved
  · cases moved
  · rename_i w outer same
    obtain rfl : opened = _ := same
    cases moved
    exact .leave
  · rename_i w stepIndex step rest outer same
    obtain rfl : opened = _ := same
    dsimp only at moved
    split at moved
    · cases moved
    · rename_i target means
      split at moved
      · cases moved
      · rename_i open'
        have closed : target ∉ chainOf outer ++ [w] := by
          simpa [chain, chainOf_cons] using open'
        split at moved
        · rename_i known
          cases moved
          exact .pass means closed (by simpa using known)
        · rename_i new
          split at moved
          · cases moved
          · rename_i child stands
            cases moved
            exact .enter means closed (by simpa using new) stands

theorem graph_of_move {g : ImportGraph} (ended : s.move S = .ended (.ok g)) : s.graph = g := by
  unfold move at ended
  split at ended
  · cases ended
    rfl
  · cases ended
  · dsimp only at ended
    split at ended
    · cases ended
    · split at ended
      · cases ended
      · split at ended
        · cases ended
        · split at ended <;> cases ended

theorem Moves.visits_isPrefix (moves : Moves S s t) : s.visits <+: t.visits := by
  cases moves with
  | leave | pass => exact List.prefix_rfl
  | enter => exact List.prefix_append _ _

/-- The moves that open documents still make for: one by each import ahead, and one to leave each. -/
def pending (s : Search) : Nat := (s.opened.flatMap OpenDocument.ahead).length + s.opened.length

/-- The moves that the documents found so far make for: one by each of their imports, and one to leave
each. -/
def work (s : Search) : Nat :=
  (s.graph.documents.flatMap Document.imports).length + s.graph.documents.length

/-- A move is one of the pending ones, and what is entered adds its own to these. -/
theorem Moves.work (moves : Moves S s t) : t.pending + 1 + s.work = s.pending + t.work := by
  cases moves with
  | leave =>
    simp only [pending, Search.work, List.flatMap_cons, List.nil_append, List.length_cons]
    omega
  | pass =>
    simp only [pending, Search.work, ImportGraph.addEdge, ImportGraph.documents, List.flatMap_cons,
      List.length_append, List.length_cons]
    omega
  | enter =>
    simp only [pending, Search.work, Search.enter, ImportGraph.addEdge, ImportGraph.addDocument,
      ImportGraph.documents, List.flatMap_cons, List.flatMap_append, List.flatMap_nil,
      List.length_append, List.length_cons, List.length_nil]
    omega

theorem pending_start (entry : Location) (d : Document) :
    (start entry d).pending = (start entry d).work := by
  simp [start, pending, work, ImportGraph.documents]

/-- Each visit is to another document, which is open or settled since, and has been found. -/
structure Tidy (S : Sources) (entry : Location) (s : Search) : Prop where
  once : s.visits.Nodup
  parted : s.visits.Perm (s.chain ++ s.settled)
  documents : s.graph.documents.map Document.location = s.visits
  stands : ∀ d ∈ s.graph.documents, S.document d.location = .ok d
  loadable : ∀ l ∈ s.visits, l = entry ∨ S.Loadable l

theorem Tidy.nodup_append (tidy : s.Tidy S entry) : (s.chain ++ s.settled).Nodup :=
  tidy.parted.nodup_iff.1 tidy.once

theorem tidy_start {d : Document} (loaded : S.document entry = .ok d) : (start entry d).Tidy S entry where
  once := List.nodup_singleton _
  parted := .refl _
  documents := congrArg (fun l => [l]) (S.located _ _ loaded)
  stands e member := by
    obtain rfl := List.mem_singleton.1 member
    rwa [S.located _ _ loaded]
  loadable l member := .inl (List.mem_singleton.1 member)

theorem Moves.tidy (moves : Moves S s t) (tidy : s.Tidy S entry) : t.Tidy S entry := by
  cases moves with
  | @leave w outer settled visits graph =>
    refine ⟨tidy.once, ?_, tidy.documents, tidy.stands, tidy.loadable⟩
    have parted := tidy.parted
    simp only [chain, chainOf_cons, List.append_assoc, List.singleton_append] at parted
    exact parted
  | @pass w _ _ _ _ outer =>
    refine ⟨tidy.once, ?_, tidy.documents, tidy.stands, tidy.loadable⟩
    have parted := tidy.parted
    simp only [chain, chainOf_cons] at parted ⊢
    exact parted
  | @enter w target stepIndex step rest outer settled visits graph child means closed new stands =>
    have parted : visits.Perm ((chainOf outer ++ [w]) ++ settled) := by
      have same := tidy.parted
      simp only [chain, chainOf_cons] at same
      exact same
    have located : child.location = target := S.located _ _ stands
    -- What was visited is open or settled, and the target is neither.
    have fresh : target ∉ visits := fun member => by
      rcases List.mem_append.1 (parted.mem_iff.1 member) with again | known
      · exact closed again
      · exact new known
    have documents : ((graph.addEdge ⟨⟨w, stepIndex⟩, target⟩).addDocument child).documents =
        graph.documents ++ [child] := rfl
    constructor
    case once => exact List.nodup_append.2 ⟨tidy.once, List.nodup_singleton _, by
      rintro l member m same rfl
      exact fresh (List.mem_singleton.1 same ▸ member)⟩
    case parted =>
      simp only [Search.enter, chain, chainOf_cons]
      refine (parted.append_right [target]).trans ?_
      rw [List.append_assoc _ settled, List.append_assoc _ [target]]
      exact List.perm_append_comm.append_left _
    case documents =>
      have before : graph.documents.map Document.location = visits := tidy.documents
      simp only [Search.enter, documents, List.map_append, List.map_singleton, before, located]
    case stands =>
      intro d member
      simp only [Search.enter, documents] at member
      rcases List.mem_append.1 member with member | member
      · exact tidy.stands d member
      · obtain rfl := List.mem_singleton.1 member
        rwa [located]
    case loadable =>
      intro l member
      rcases List.mem_append.1 member with member | member
      · exact tidy.loadable l member
      · obtain rfl := List.mem_singleton.1 member
        exact .inr ⟨⟨w, step, means⟩, child, stands⟩

end Search

namespace Sources

variable (S : Sources)

def search (entry : Location) : Nat → SearchState
  | 0 =>
    match S.document entry with
    | .error e => .ended (.error ⟨none, [], e⟩)
    | .ok d => .searching (.start entry d)
  | n + 1 =>
    match search entry n with
    | .searching s => s.move S
    | .ended verdict => .ended verdict

def importsAt (l : Location) : List (Nat × WorkflowStep) :=
  match S.document l with
  | .ok d => d.imports
  | .error _ => []

def movesAt (ls : List Location) : Nat := (ls.flatMap S.importsAt).length + ls.length

variable {S : Sources} {entry : Location} {s t : Search} {verdict : Except GraphFailure ImportGraph}

theorem search_ended {n : Nat} (ended : S.search entry n = .ended verdict) {more : Nat} (le : n ≤ more) :
    S.search entry more = .ended verdict := by
  induction le with
  | refl => exact ended
  | step _ ih => rw [search, ih]

theorem ended_unique {n m : Nat} {other : Except GraphFailure ImportGraph}
    (ended : S.search entry n = .ended verdict) (again : S.search entry m = .ended other) :
    verdict = other := by
  have both := (search_ended ended (Nat.le_max_left n m)).symm.trans
    (search_ended again (Nat.le_max_right n m))
  exact SearchState.ended.inj both

theorem visits_isPrefix {n m : Nat} (searched : S.search entry n = .searching s)
    (later : S.search entry m = .searching t) (le : n ≤ m) : s.visits <+: t.visits := by
  induction le generalizing t with
  | refl =>
    cases searched.symm.trans later
    exact List.prefix_rfl
  | step _ ih =>
    rw [search] at later
    split at later
    · rename_i before reached
      exact (ih reached).trans (Search.moves_of_move later).visits_isPrefix
    · cases later

theorem le_of_move_ended {n m : Nat} (last : S.search entry n = .searching s) (ends : s.move S = .ended verdict)
    (searched : S.search entry m = .searching t) : m ≤ n := by
  refine Nat.le_of_lt_succ (Nat.lt_of_not_le fun after => ?_)
  have past : S.search entry (n + 1) = .ended verdict := by
    rw [search, last]
    exact ends
  cases (search_ended past after).symm.trans searched

/-- The moves made and those that are pending are all that the documents found so far make for. -/
theorem search_accounts {n : Nat} (searched : S.search entry n = .searching s) :
    s.Tidy S entry ∧ n + s.pending = s.work := by
  induction n generalizing s with
  | zero =>
    rw [search] at searched
    split at searched
    · cases searched
    · rename_i d loaded
      cases searched
      exact ⟨Search.tidy_start loaded, (Nat.zero_add _).trans (Search.pending_start entry d)⟩
  | succ n ih =>
    rw [search] at searched
    split at searched
    · rename_i before reached
      obtain ⟨tidy, counted⟩ := ih reached
      have moves := Search.moves_of_move searched
      refine ⟨moves.tidy tidy, ?_⟩
      -- The move that was made is one less that is pending.
      have work := moves.work
      omega
    · cases searched

theorem work_le {loadable : List Location} (finite : ∀ l, S.Loadable l → l ∈ loadable)
    (tidy : s.Tidy S entry) : s.work ≤ S.movesAt (entry :: loadable) := by
  have inside : s.visits ⊆ entry :: loadable := fun l member => by
    rcases tidy.loadable l member with rfl | there
    · exact List.mem_cons_self
    · exact List.mem_cons_of_mem _ (finite l there)
  have counted : s.work = S.movesAt s.visits := by
    have own : ∀ d ∈ s.graph.documents, d.imports = S.importsAt d.location := fun d member => by
      rw [importsAt, tidy.stands d member]
    rw [movesAt, ← tidy.documents, List.flatMap_map, List.length_map, Search.work]
    rw [List.flatMap_congr own]
  rw [counted, movesAt, movesAt]
  -- No location is visited twice, so the visits are, in some order, among those that can come up.
  obtain ⟨found, perm, sublist⟩ := List.subperm_of_subset tidy.once inside
  have imports := (sublist.flatMap S.importsAt).length_le
  rw [(perm.flatMap_right S.importsAt).length_eq] at imports
  have documents := tidy.once.length_le_of_subset inside
  omega

theorem exists_ended {loadable : List Location} (finite : ∀ l, S.Loadable l → l ∈ loadable)
    (entry : Location) :
    ∃ verdict, S.search entry (S.movesAt (entry :: loadable) + 1) = .ended verdict := by
  cases reached : S.search entry (S.movesAt (entry :: loadable) + 1) with
  | ended verdict => exact ⟨verdict, rfl⟩
  | searching s =>
    -- It would have made more moves than its documents make for.
    obtain ⟨tidy, counted⟩ := search_accounts reached
    have bounded := work_le finite tidy
    omega

theorem exists_search_of_ended {g : ImportGraph} {n : Nat} (ended : S.search entry n = .ended (.ok g)) :
    ∃ m s, S.search entry m = .searching s ∧ s.graph = g := by
  induction n with
  | zero =>
    rw [search] at ended
    split at ended <;> cases ended
  | succ n ih =>
    rw [search] at ended
    split at ended
    · rename_i s reached
      exact ⟨n, s, reached, Search.graph_of_move ended⟩
    · rename_i verdict reached
      cases ended
      exact ih reached

theorem exists_search_of_moves {n : Nat} (searched : S.search entry n = .searching s)
    (moves : ReflTransGen (Search.Moves S) s t) : ∃ m, S.search entry m = .searching t := by
  induction moves with
  | refl => exact ⟨n, searched⟩
  | tail _ moves ih =>
    obtain ⟨m, reached⟩ := ih
    exact ⟨m + 1, by rw [search, reached]; exact Search.move_of_moves moves⟩

end Sources

namespace ImportGraph

variable (g : ImportGraph)

theorem extend_nothing (settled : List Location) (cache : Cache) :
    g.extend (.nothing settled cache) = g := by
  simp [extend, Findings.nothing]

theorem extend_behindEdge (edge : ImportEdge) (later : Findings) :
    g.extend (later.behindEdge edge) = (g.addEdge edge).extend later := by
  simp [extend, addEdge, Findings.behindEdge]

theorem extend_behindImport (edge : ImportEdge) (child : Document) (inner later : Findings) :
    g.extend (.behindImport edge child inner later) =
      (((g.addEdge edge).addDocument child).extend inner).extend later := by
  simp [extend, addEdge, addDocument, Findings.behindImport]

end ImportGraph

end WorkflowEngine
