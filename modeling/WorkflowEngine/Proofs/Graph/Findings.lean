import WorkflowEngine.Proofs.Graph.Walk

/-! What a walk finds.

A walk settles what it leaves, so its documents are new, and each of them brings its own edges. Taken
together they are the first occurrences in the preorder of the import tree in which nothing is shared.
-/

set_option autoImplicit false

namespace WorkflowEngine

open Relation

section FirstOccurrences

variable {α : Type} [DecidableEq α]

theorem removeAll_eq_nil_of_subset {items known : List α} (subset : items ⊆ known) :
    items.removeAll known = [] := by
  refine List.filter_eq_nil_iff.2 fun item member => ?_
  simpa using subset member

theorem removeAll_append (first second known : List α) :
    (first ++ second).removeAll known = first.removeAll known ++ second.removeAll known :=
  List.filter_append ..

/-- First occurrences behind a new item: those of what stands below it, and then of the rest. -/
theorem eraseDups_removeAll_cons {item : α} {below later known after : List α}
    (new : item ∉ known) (apart : item ∉ below)
    (covered : ∀ other, other ∈ after ↔ other ∈ below ∨ other ∈ known) :
    ((item :: (below ++ later)).removeAll known).eraseDups =
      item :: ((below.removeAll known).eraseDups ++ (later.removeAll (item :: after)).eraseDups) := by
  have kept : (below.removeAll known).filter (fun other => !other == item) =
      below.removeAll known := by
    refine List.filter_eq_self.2 fun other member => ?_
    have inside : other ∈ below := (List.mem_filter.1 member).1
    have other_ne : other ≠ item := fun same => apart (same ▸ inside)
    simpa using other_ne
  have rest : ((later.removeAll known).filter fun other => !other == item).removeAll
      (below.removeAll known) = later.removeAll (item :: after) := by
    simp only [List.removeAll, List.filter_filter]
    refine List.filter_congr fun other _ => ?_
    rw [Bool.eq_iff_iff]
    simp [covered]
    grind
  rw [List.cons_removeAll]
  simp only [List.elem_eq_mem, new, decide_false, if_true]
  rw [List.eraseDups_cons, removeAll_append, List.filter_append, kept, List.eraseDups_append, rest]

end FirstOccurrences

namespace Sources

/-- Settled locations lead to settled ones only, and none of them is open. -/
structure Coloured (S : Sources) (chain settled : List Location) : Prop where
  ordered : S.Settled settled
  apart : ∀ l ∈ settled, l ∉ chain

def Makes (S : Sources) (w : Location) (i : Nat × WorkflowStep) (edge : ImportEdge) : Prop :=
  edge.site = ⟨w, i.1⟩ ∧ S.target w i.2 = .ok edge.target

/-- The locations below imports, as they come up when each import is gone through again wherever it
stands. -/
inductive Unfolds (S : Sources) : Location → List (Nat × WorkflowStep) → List Location → Prop
  | done {w : Location} : Unfolds S w [] []
  | step {w : Location} {stepIndex : Nat} {step : WorkflowStep} {rest : List (Nat × WorkflowStep)}
      {target : Location} {child : Document} {below later : List Location} :
      S.target w step = .ok target → S.document target = .ok child →
      Unfolds S target child.imports below → Unfolds S w rest later →
      Unfolds S w ((stepIndex, step) :: rest) (target :: (below ++ later))

variable {S : Sources}

theorem Coloured.inside {chain settled : List Location} {target : Location}
    (coloured : S.Coloured chain settled) (new : target ∉ settled) :
    S.Coloured (chain ++ [target]) settled where
  ordered := coloured.ordered
  apart l member there := by
    rcases List.mem_append.1 there with there | there
    · exact coloured.apart l member there
    · exact new (List.mem_singleton.1 there ▸ member)

theorem Coloured.settle {chain settled : List Location} {target : Location}
    (coloured : S.Coloured (chain ++ [target]) settled) (leads : S.LeadsInto target settled)
    (closed : target ∉ chain) : S.Coloured chain (target :: settled) where
  ordered := ⟨fun member => coloured.apart target member (by simp), leads, coloured.ordered⟩
  apart l member there := by
    rcases List.mem_cons.1 member with rfl | member
    · exact closed there
    · exact coloured.apart l member (List.mem_append_left _ there)

theorem Unfolds.subset {settled : List Location} (ordered : S.Settled settled) {w : Location}
    {imports : List (Nat × WorkflowStep)} {tree : List Location} (unfolded : S.Unfolds w imports tree)
    (inside : ∀ i ∈ imports, ∃ m ∈ settled, S.target w i.2 = .ok m) : tree ⊆ settled := by
  induction unfolded with
  | done => exact List.nil_subset _
  | @step w stepIndex step rest target child below later means loaded _ _ ihBelow ihLater =>
    obtain ⟨m, member, same⟩ := inside _ List.mem_cons_self
    obtain rfl : m = target := Except.ok.inj (same.symm.trans means)
    obtain ⟨d, again, leads⟩ := ordered.leadsInto member
    obtain rfl : d = child := Except.ok.inj (again.symm.trans loaded)
    refine List.cons_subset.2 ⟨member, List.append_subset.2 ⟨?_, ?_⟩⟩
    · exact ihBelow fun i inner => leads i.1 i.2 inner
    · exact ihLater fun i inner => inside i (List.mem_cons_of_mem _ inner)

theorem Unfolds.exists_of_forall {w : Location} {imports : List (Nat × WorkflowStep)}
    (each : ∀ i ∈ imports, ∃ target child below, S.target w i.2 = .ok target ∧
      S.document target = .ok child ∧ S.Unfolds target child.imports below) :
    ∃ tree, S.Unfolds w imports tree := by
  induction imports with
  | nil => exact ⟨[], .done⟩
  | cons first rest ih =>
    obtain ⟨target, child, below, means, loaded, unfolded⟩ := each _ List.mem_cons_self
    obtain ⟨later, others⟩ := ih fun i member => each i (List.mem_cons_of_mem _ member)
    exact ⟨_, .step means loaded unfolded others⟩

theorem Settled.unfolds {settled : List Location} (ordered : S.Settled settled) {l : Location}
    (member : l ∈ settled) :
    ∃ d tree, S.document l = .ok d ∧ S.Unfolds l d.imports tree := by
  induction settled generalizing l with
  | nil => cases member
  | cons first before ih =>
    obtain ⟨_, ⟨d, loaded, leads⟩, earlier⟩ := ordered
    rcases List.mem_cons.1 member with rfl | member
    · have unfolds : ∃ tree, S.Unfolds l d.imports tree := Unfolds.exists_of_forall fun i inner => by
        obtain ⟨m, settled, means⟩ := leads i.1 i.2 inner
        obtain ⟨child, below, stands, unfolded⟩ := ih earlier settled
        exact ⟨m, child, below, means, stands, unfolded⟩
      obtain ⟨tree, unfolded⟩ := unfolds
      exact ⟨d, tree, loaded, unfolded⟩
    · exact ih earlier member

end Sources

namespace Findings

def locations (f : Findings) : List Location := f.documents.map Document.location

def edgesFrom (f : Findings) (l : Location) : List ImportEdge :=
  f.edges.filter fun edge => edge.site.workflow = l

theorem edgesFrom_behindEdge (edge : ImportEdge) (f : Findings) (l : Location) :
    (f.behindEdge edge).edgesFrom l =
      if edge.site.workflow = l then edge :: f.edgesFrom l else f.edgesFrom l := by
  simp [edgesFrom, behindEdge, List.filter_cons]

theorem edgesFrom_behindImport (edge : ImportEdge) (child : Document) (inner later : Findings)
    (l : Location) :
    (behindImport edge child inner later).edgesFrom l =
      if edge.site.workflow = l then edge :: (inner.edgesFrom l ++ later.edgesFrom l)
      else inner.edgesFrom l ++ later.edgesFrom l := by
  simp [edgesFrom, behindImport, List.filter_cons]

end Findings

namespace Explores

variable {S : Sources} {fs : FileSystem} {chain : List Location} {w : Location}
  {imports : List (Nat × WorkflowStep)} {settled : List Location} {cache : Cache} {f : Findings}

theorem settled_perm (explored : Explores S fs chain w imports settled cache f) :
    f.settled.Perm (f.locations ++ settled) := by
  induction explored with
  | done => exact .refl _
  | again _ _ _ _ ih => exact ih
  | @entered _ _ _ _ _ settled _ target child inner later _ _ _ loaded _ _ ihInner ihLater =>
    have located : child.location = target := S.located _ _ loaded
    have behind : (later.locations ++ target :: inner.settled).Perm
        (target :: (inner.locations ++ (later.locations ++ settled))) := by
      refine List.perm_middle.trans (.cons _ ?_)
      refine (ihInner.append_left _).trans ?_
      rw [← List.append_assoc, ← List.append_assoc]
      exact List.perm_append_comm.append_right _
    have whole := ihLater.trans behind
    simpa [Findings.locations, Findings.behindImport, located] using whole

theorem subset_settled (explored : Explores S fs chain w imports settled cache f) :
    settled ⊆ f.settled := fun _ member =>
  explored.settled_perm.mem_iff.2 (List.mem_append_right _ member)

theorem mem_settled (explored : Explores S fs chain w imports settled cache f) {l : Location}
    (found : l ∈ f.locations) : l ∈ f.settled :=
  explored.settled_perm.mem_iff.2 (List.mem_append_left _ found)

theorem coloured (explored : Explores S fs chain w imports settled cache f)
    (before : S.Coloured chain settled) :
    S.Coloured chain f.settled ∧ ∀ i ∈ imports, ∃ m ∈ f.settled, S.target w i.2 = .ok m := by
  induction explored with
  | done => exact ⟨before, by simp⟩
  | again means _ known explored ih =>
    obtain ⟨later, leads⟩ := ih before
    refine ⟨later, fun i member => ?_⟩
    rcases List.mem_cons.1 member with rfl | member
    · exact ⟨_, explored.subset_settled known, means⟩
    · exact leads i member
  | @entered _ _ _ _ _ _ _ target child _ _ means fresh new loaded _ behind ihInner ihLater =>
    obtain ⟨inner, leads⟩ := ihInner (before.inside new)
    -- The child leads to what is settled by now, so it can be settled in its turn.
    have leadsInto : S.LeadsInto target _ :=
      ⟨child, loaded, fun stepIndex step member => leads (stepIndex, step) member⟩
    obtain ⟨later, others⟩ := ihLater (inner.settle leadsInto fresh)
    refine ⟨later, fun i member => ?_⟩
    rcases List.mem_cons.1 member with rfl | member
    · exact ⟨target, behind.subset_settled List.mem_cons_self, means⟩
    · exact others i member

theorem coloured_behind {target : Location} {child : Document}
    (explored : Explores S fs (chain ++ [target]) target child.imports settled cache f)
    (before : S.Coloured chain settled) (fresh : target ∉ chain) (new : target ∉ settled)
    (loaded : S.document target = .ok child) : S.Coloured chain (target :: f.settled) := by
  obtain ⟨inner, leads⟩ := explored.coloured (before.inside new)
  exact inner.settle ⟨child, loaded, fun stepIndex step member => leads (stepIndex, step) member⟩
    fresh

theorem documents_stand (explored : Explores S fs chain w imports settled cache f) :
    ∀ d ∈ f.documents, S.document d.location = .ok d := by
  induction explored with
  | done => simp [Findings.nothing]
  | again _ _ _ _ ih => exact ih
  | entered _ _ _ loaded _ _ ihInner ihLater =>
    intro d member
    rcases List.mem_cons.1 member with rfl | member
    · rwa [S.located _ _ loaded]
    · rcases List.mem_append.1 member with member | member
      · exact ihInner d member
      · exact ihLater d member

theorem reaches (explored : Explores S fs chain w imports settled cache f) {d : Document}
    (loaded : S.document w = .ok d) (inside : ∀ i ∈ imports, i ∈ d.imports) :
    ∀ l ∈ f.locations, S.Reaches w l := by
  induction explored generalizing d with
  | done => simp [Findings.locations, Findings.nothing]
  | again _ _ _ _ ih => exact ih loaded fun i member => inside i (List.mem_cons_of_mem _ member)
  | @entered _ w stepIndex step _ _ _ target child _ _ means _ _ stands _ _ ihInner ihLater =>
    have imported : S.Imports w target :=
      ⟨d, loaded, stepIndex, step, inside _ List.mem_cons_self, means⟩
    intro l member
    simp only [Findings.locations, Findings.behindImport, List.map_cons, List.map_append,
      List.mem_cons, List.mem_append] at member
    rcases member with rfl | member | member
    · rw [S.located _ _ stands]
      exact .single imported
    · exact .head imported (ihInner stands (fun _ => id) l member)
    · exact ihLater loaded (fun i inner => inside i (List.mem_cons_of_mem _ inner)) l member

theorem locations_nodup (explored : Explores S fs chain w imports settled cache f)
    (before : S.Coloured chain settled) : (f.locations ++ settled).Nodup :=
  explored.settled_perm.nodup_iff.1 (explored.coloured before).1.ordered.nodup

theorem not_mem_settled (explored : Explores S fs chain w imports settled cache f)
    (before : S.Coloured chain settled) {l : Location} (found : l ∈ f.locations) : l ∉ settled :=
  fun known => (List.nodup_append.1 (explored.locations_nodup before)).2.2 l found l known rfl

theorem not_mem_chain (explored : Explores S fs chain w imports settled cache f)
    (before : S.Coloured chain settled) {l : Location} (found : l ∈ f.locations) : l ∉ chain :=
  (explored.coloured before).1.apart l (explored.mem_settled found)

theorem edges_from (explored : Explores S fs chain w imports settled cache f) :
    ∀ edge ∈ f.edges, edge.site.workflow = w ∨ edge.site.workflow ∈ f.locations := by
  induction explored with
  | done => simp [Findings.nothing]
  | again _ _ _ _ ih =>
    intro edge member
    rcases List.mem_cons.1 member with rfl | member
    · exact .inl rfl
    · exact ih edge member
  | entered _ _ _ loaded _ _ ihInner ihLater =>
    intro edge member
    simp only [Findings.locations, Findings.behindImport, List.map_cons, List.map_append,
      List.mem_cons, List.mem_append] at member ⊢
    rcases member with rfl | member | member
    · exact .inl rfl
    · rcases ihInner edge member with same | inner
      · exact .inr (.inl (same.trans (S.located _ _ loaded).symm))
      · exact .inr (.inr (.inl inner))
    · rcases ihLater edge member with same | later
      · exact .inl same
      · exact .inr (.inr (.inr later))

theorem edgesFrom_eq_nil (explored : Explores S fs chain w imports settled cache f) {l : Location}
    (other : l ≠ w) (missing : l ∉ f.locations) : f.edgesFrom l = [] := by
  refine List.filter_eq_nil_iff.2 fun edge member => ?_
  rcases explored.edges_from edge member with same | found
  · simpa [same] using Ne.symm other
  · simp only [decide_eq_true_eq]
    rintro rfl
    exact missing found

theorem edgesFrom_self (explored : Explores S fs chain w imports settled cache f)
    (before : S.Coloured chain settled) (innermost : w ∈ chain) :
    List.Forall₂ (S.Makes w) imports (f.edgesFrom w) := by
  induction explored with
  | done => exact .nil
  | again means _ _ _ ih =>
    rw [Findings.edgesFrom_behindEdge, if_pos rfl]
    exact .cons ⟨rfl, means⟩ (ih before innermost)
  | @entered _ w _ _ _ _ _ target _ inner _ means fresh new loaded explored _ _ ihLater =>
    have apart : w ≠ target := fun same => fresh (same ▸ innermost)
    have missing : w ∉ inner.locations := fun found =>
      explored.not_mem_chain (before.inside new) found (List.mem_append_left _ innermost)
    rw [Findings.edgesFrom_behindImport, if_pos rfl, explored.edgesFrom_eq_nil apart missing]
    exact .cons ⟨rfl, means⟩ (ihLater (explored.coloured_behind before fresh new loaded) innermost)

theorem edgesFrom_document (explored : Explores S fs chain w imports settled cache f)
    (before : S.Coloured chain settled) (innermost : w ∈ chain) :
    ∀ d ∈ f.documents, List.Forall₂ (S.Makes d.location) d.imports (f.edgesFrom d.location) := by
  induction explored with
  | done => simp [Findings.nothing]
  | @again _ w _ _ _ _ _ _ later means _ _ explored ih =>
    intro d member
    have apart : w ≠ d.location := fun same =>
      explored.not_mem_chain before (List.mem_map_of_mem member) (same ▸ innermost)
    rw [Findings.edgesFrom_behindEdge, if_neg apart]
    exact ih before innermost d member
  | @entered _ w _ _ _ settled _ target child inner later means fresh new loaded explored behind
      ihInner ihLater =>
    have located : child.location = target := S.located _ _ loaded
    have below := before.inside new
    have after := explored.coloured_behind before fresh new loaded
    intro d member
    rw [Findings.edgesFrom_behindImport]
    -- The document is the child, or comes up inside it, or later; its edges are found there alone.
    rcases List.mem_cons.1 member with rfl | member
    · have apart : w ≠ d.location := fun same => fresh (located ▸ same ▸ innermost)
      have missing : d.location ∉ later.locations := fun found =>
        behind.not_mem_settled after found (located ▸ List.mem_cons_self)
      rw [if_neg apart, behind.edgesFrom_eq_nil apart.symm missing, List.append_nil, located]
      exact explored.edgesFrom_self below (by simp)
    rcases List.mem_append.1 member with member | member
    · have found : d.location ∈ inner.locations := List.mem_map_of_mem member
      have apart : w ≠ d.location := fun same =>
        explored.not_mem_chain below found (List.mem_append_left _ (same ▸ innermost))
      have missing : d.location ∉ later.locations := fun again =>
        behind.not_mem_settled after again (List.mem_cons_of_mem _ (explored.mem_settled found))
      rw [if_neg apart, behind.edgesFrom_eq_nil apart.symm missing, List.append_nil]
      exact ihInner below (by simp) d member
    · have found : d.location ∈ later.locations := List.mem_map_of_mem member
      have apart : w ≠ d.location := fun same => behind.not_mem_chain after found (same ▸ innermost)
      have unsettled := behind.not_mem_settled after found
      have other : d.location ≠ target := fun same => unsettled (same ▸ List.mem_cons_self)
      have missing : d.location ∉ inner.locations := fun again =>
        unsettled (List.mem_cons_of_mem _ (explored.mem_settled again))
      rw [if_neg apart, explored.edgesFrom_eq_nil other missing, List.nil_append]
      exact ihLater after innermost d member

/-- The documents found are the first occurrences, in the unfolded tree, of what was not settled. -/
theorem locations_eq (explored : Explores S fs chain w imports settled cache f)
    (before : S.Coloured chain settled) {tree : List Location}
    (unfolded : S.Unfolds w imports tree) :
    f.locations = (tree.removeAll settled).eraseDups := by
  induction explored generalizing tree with
  | done =>
    cases unfolded
    rfl
  | @again _ _ _ _ _ settled _ target _ means _ known _ ih =>
    cases unfolded with
    | @step _ _ _ _ target' child below later means' stands inner rest =>
      obtain rfl : target = target' := Except.ok.inj (means.symm.trans means')
      obtain ⟨d, loaded, leads⟩ := before.ordered.leadsInto known
      obtain rfl : d = child := Except.ok.inj (loaded.symm.trans stands)
      -- What comes up below a settled location is settled as well: this branch has nothing new.
      have covered : target :: below ⊆ settled := List.cons_subset.2
        ⟨known, inner.subset before.ordered fun i member => leads i.1 i.2 member⟩
      rw [← List.cons_append, removeAll_append, removeAll_eq_nil_of_subset covered]
      exact ih before rest
  | @entered _ _ _ _ _ settled _ target child inner _ means fresh new loaded explored _ ihInner
      ihLater =>
    cases unfolded with
    | @step _ _ _ _ target' child' below later' means' stands unfolded rest =>
      obtain rfl : target = target' := Except.ok.inj (means.symm.trans means')
      obtain rfl : child = child' := Except.ok.inj (loaded.symm.trans stands)
      have first := ihInner (before.inside new) unfolded
      have later := ihLater (explored.coloured_behind before fresh new loaded) rest
      obtain ⟨coloured, leads⟩ := explored.coloured (before.inside new)
      have apart : target ∉ below := fun member =>
        coloured.apart target (unfolded.subset coloured.ordered leads member) (by simp)
      have covered : ∀ l, l ∈ inner.settled ↔ l ∈ below ∨ l ∈ settled := by
        intro l
        rw [explored.settled_perm.mem_iff, first, List.mem_append, List.mem_eraseDups]
        simp only [List.removeAll, List.mem_filter, List.elem_eq_mem, Bool.not_eq_true',
          decide_eq_false_iff_not]
        grind
      rw [eraseDups_removeAll_cons new apart covered, ← first, ← later, ← S.located _ _ loaded]
      exact List.map_cons.trans (congrArg _ List.map_append)

end Explores

end WorkflowEngine
