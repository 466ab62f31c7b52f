import WorkflowEngine.Proofs.Graph.Printing

/-! What the tree of a graph shows.

The tree of a graph that was resolved has an entry for each edge besides that of the entry document, in the order
in which the edges were found, and it stands one level below the entry at which the importing document is expanded.
A document is expanded where it first comes up, so each one is expanded once. What the tree goes through is told
beside it without a bound on its depth, and is shown to be what the tree is made of. A report prints all of it.
-/

set_option autoImplicit false

namespace WorkflowEngine

namespace TreeEntry

/-- The entries below one: those that follow it, as long as they are deeper. -/
def below (e : TreeEntry) (later : List TreeEntry) : List TreeEntry :=
  later.takeWhile fun other => e.depth < other.depth

def children (e : TreeEntry) (later : List TreeEntry) : List TreeEntry :=
  (e.below later).filter fun other => other.depth = e.depth + 1

/-- The edge that an entry shows behind others, the last one of these first: it leads there from the nearest entry
before it that is less deep, if that one is expanded and one level up. -/
def edge? (before : List TreeEntry) (e : TreeEntry) : Option ImportEdge :=
  match before.find? fun other => other.depth < e.depth, e.stepIndex with
  | some parent, some stepIndex =>
    if parent.depth + 1 = e.depth ∧ parent.again = false then some ⟨⟨parent.location, stepIndex⟩, e.location⟩
    else none
  | _, _ => none

def edges (before : List TreeEntry) : List TreeEntry → List ImportEdge
  | [] => []
  | e :: later => (edge? before e).toList ++ edges (e :: before) later

def expansions (entries : List TreeEntry) : List Location :=
  (entries.filter fun e => !e.again).map location

end TreeEntry

namespace ImportGraph

/-- The entries for edges out of a document, however deep they go, with the locations that are expanded before and
after them. -/
inductive Lists (g : ImportGraph) :
    Nat → List ImportEdge → List Location → List TreeEntry → List Location → Prop
  | done {depth : Nat} {expanded : List Location} : Lists g depth [] expanded [] expanded
  | again {depth : Nat} {edge : ImportEdge} {rest : List ImportEdge} {expanded after : List Location}
      {later : List TreeEntry} :
      edge.target ∈ expanded → Lists g depth rest expanded later after →
      Lists g depth (edge :: rest) expanded
        (⟨depth, some edge.site.stepIndex, edge.target, true⟩ :: later) after
  | first {depth : Nat} {edge : ImportEdge} {rest : List ImportEdge} {expanded between after : List Location}
      {below later : List TreeEntry} :
      edge.target ∉ expanded →
      Lists g (depth + 1) (g.importsOf edge.target) (edge.target :: expanded) below between →
      Lists g depth rest between later after →
      Lists g depth (edge :: rest) expanded
        (⟨depth, some edge.site.stepIndex, edge.target, false⟩ :: (below ++ later)) after

def top (g : ImportGraph) : TreeEntry := ⟨0, none, g.entry, false⟩

/-- Below an entry stand those of the edges out of its location, in order, if it is expanded, and nothing stands
below it if it is not. -/
structure Opens (g : ImportGraph) (e : TreeEntry) (later : List TreeEntry) : Prop where
  closed : e.again = true → e.below later = []
  opened : e.again = false → (e.children later).map (fun child => (child.stepIndex, child.location)) =
    (g.importsOf e.location).map fun edge => (some edge.site.stepIndex, edge.target)

/-- There is one entry for the entry of a graph and one for each edge, below the one at which the importing document
is expanded. Each document is expanded where it first comes up. -/
structure ShownBy (g : ImportGraph) (tree : List TreeEntry) : Prop where
  size : tree.length = 1 + g.edges.length
  starts : ∃ later, tree = g.top :: later ∧ ∀ e ∈ later, 0 < e.depth
  edges : TreeEntry.edges [] tree = g.edges
  again : ∀ before e later, tree = before ++ e :: later →
    (e.again = true ↔ e.location ∈ before.map TreeEntry.location)
  opens : ∀ before e later, tree = before ++ e :: later → g.Opens e later
  ordered : ∀ l, ((g.importsOf l).map fun edge => edge.site.stepIndex).Pairwise (· < ·)
  expanded : TreeEntry.expansions tree = g.locations
  once : g.locations.Nodup

section Budget

/-- How many edges lead out of locations that are not expanded yet. -/
def unspent (g : ImportGraph) (expanded : List Location) : Nat :=
  g.edges.countP fun edge => edge.site.workflow ∉ expanded

variable {g : ImportGraph} {depth budget : Nat} {stepIndex : Option Nat} {l : Location} {es : List ImportEdge}
  {expanded wider after : List Location} {entries : List TreeEntry}

theorem treeFrom_again (known : l ∈ expanded) :
    g.treeFrom (budget + 1) depth stepIndex l expanded = ⟨[⟨depth, stepIndex, l, true⟩], expanded⟩ := by
  simp [treeFrom, known]

theorem treeFrom_first (fresh : l ∉ expanded)
    (below : TreePart.ofEdges (fun edge => g.treeFrom budget (depth + 1) (some edge.site.stepIndex) edge.target)
      (g.importsOf l) (l :: expanded) = ⟨entries, after⟩) :
    g.treeFrom (budget + 1) depth stepIndex l expanded = ⟨⟨depth, stepIndex, l, false⟩ :: entries, after⟩ := by
  simp [treeFrom, fresh, below]

theorem unspent_le_of_subset (subset : expanded ⊆ wider) : g.unspent wider ≤ g.unspent expanded := by
  refine List.countP_mono_left fun edge _ outside => ?_
  simp only [decide_eq_true_eq] at outside ⊢
  exact fun inside => outside (subset inside)

theorem unspent_eq_add (fresh : l ∉ expanded) :
    g.unspent expanded = g.unspent (l :: expanded) + (g.importsOf l).length := by
  rw [unspent, unspent, importsOf, ← List.countP_eq_length_filter]
  induction g.edges with
  | nil => rfl
  | cons edge rest ih =>
    simp only [List.countP_cons, ih, List.mem_cons]
    by_cases here : edge.site.workflow = l
    · simp only [here, fresh]
      simp
      omega
    · simp only [here, false_or, decide_false, Bool.false_eq_true, if_false]
      omega

theorem unspent_cons_lt (fresh : l ∉ expanded) (leads : g.importsOf l ≠ []) :
    g.unspent (l :: expanded) < g.unspent expanded := by
  rw [unspent_eq_add fresh]
  exact Nat.lt_add_of_pos_right (List.length_pos_of_ne_nil leads)

theorem Lists.subset (listed : g.Lists depth es expanded entries after) : expanded ⊆ after := by
  induction listed with
  | done => exact fun _ => id
  | again _ _ ih => exact ih
  | first _ _ _ ihBelow ihLater => exact fun l inside => ihLater (ihBelow (List.mem_cons_of_mem _ inside))

/-- Each level of the tree uses up edges, so a budget of as many levels is enough. -/
theorem ofEdges_of_lists (listed : g.Lists depth es expanded entries after)
    (enough : es ≠ [] → g.unspent expanded < budget) :
    TreePart.ofEdges (fun edge => g.treeFrom budget depth (some edge.site.stepIndex) edge.target) es expanded =
      ⟨entries, after⟩ := by
  induction listed generalizing budget with
  | done => rfl
  | again known _ ih =>
    obtain ⟨budget, rfl⟩ := Nat.exists_eq_add_one_of_ne_zero (Nat.ne_zero_of_lt (enough (by simp)))
    have later := @ih (budget + 1) fun _ => enough (by simp)
    rw [TreePart.ofEdges, treeFrom_again known, later]
    rfl
  | first fresh below _ ihBelow ihLater =>
    obtain ⟨budget, rfl⟩ := Nat.exists_eq_add_one_of_ne_zero (Nat.ne_zero_of_lt (enough (by simp)))
    have room := enough (by simp)
    -- An expanded location uses up its edges, so one level less is enough below it.
    have inner := @ihBelow budget fun leads =>
      Nat.lt_of_lt_of_le (unspent_cons_lt fresh leads) (Nat.le_of_lt_succ room)
    have later := @ihLater (budget + 1) fun _ =>
      Nat.lt_of_le_of_lt (unspent_le_of_subset fun l inside => below.subset (List.mem_cons_of_mem _ inside)) room
    rw [TreePart.ofEdges, treeFrom_first fresh inner, later]
    rfl

theorem tree_of_lists (listed : g.Lists 1 (g.importsOf g.entry) [g.entry] entries after) :
    g.tree = g.top :: entries := by
  have enough : g.importsOf g.entry ≠ [] → g.unspent [g.entry] < g.edges.length := fun leads =>
    Nat.lt_of_lt_of_le (unspent_cons_lt List.not_mem_nil leads) List.countP_le_length
  have inner := ofEdges_of_lists listed enough
  rw [tree, treeFrom_first List.not_mem_nil inner]
  rfl

end Budget

section Entries

variable {g : ImportGraph} {depth : Nat} {es : List ImportEdge} {expanded after : List Location}
  {entries before rest others : List TreeEntry} {e : TreeEntry}

theorem Lists.depth_le (listed : g.Lists depth es expanded entries after) : ∀ e ∈ entries, depth ≤ e.depth := by
  induction listed with
  | done => simp
  | again _ _ ih => exact List.forall_mem_cons.2 ⟨Nat.le_refl _, ih⟩
  | first _ _ _ ihBelow ihLater =>
    refine List.forall_mem_cons.2 ⟨Nat.le_refl _, List.forall_mem_append.2 ⟨fun e inside => ?_, ihLater⟩⟩
    exact Nat.le_of_succ_le (ihBelow e inside)

theorem Lists.mem_after (listed : g.Lists depth es expanded entries after) {l : Location} :
    l ∈ after ↔ l ∈ expanded ∨ l ∈ entries.map TreeEntry.location := by
  induction listed with
  | done => simp
  | again known _ ih =>
    rw [ih, List.map_cons, List.mem_cons]
    constructor
    · rintro (earlier | later)
      · exact .inl earlier
      · exact .inr (.inr later)
    · rintro (earlier | rfl | later)
      · exact .inl earlier
      · exact .inl known
      · exact .inr later
  | first _ _ _ ihBelow ihLater =>
    rw [ihLater, ihBelow]
    simp only [List.mem_cons, List.map_cons, List.map_append, List.mem_append]
    grind

theorem Lists.again_iff (listed : g.Lists depth es expanded entries after)
    (split : entries = before ++ e :: rest) :
    e.again = true ↔ e.location ∈ expanded ∨ e.location ∈ before.map TreeEntry.location := by
  induction listed generalizing before rest with
  | done => simp at split
  | again known _ ih =>
    rcases List.cons_eq_append_iff.1 split with ⟨rfl, same⟩ | ⟨front, rfl, behind⟩
    · obtain ⟨rfl, rfl⟩ := List.cons.inj same
      simp [known]
    · rw [ih behind, List.map_cons, List.mem_cons]
      grind
  | first fresh below _ ihBelow ihLater =>
    rcases List.cons_eq_append_iff.1 split with ⟨rfl, same⟩ | ⟨front, rfl, behind⟩
    · obtain ⟨rfl, rfl⟩ := List.cons.inj same
      simp [fresh]
    -- The entry stands among those below the first one, or behind them.
    rcases exists_of_append_eq behind with ⟨between, inside, _⟩ | ⟨between, rfl, outside⟩
    · rw [ihBelow inside, List.mem_cons, List.map_cons, List.mem_cons]
      grind
    · rw [ihLater outside, below.mem_after]
      simp only [List.mem_cons, List.map_cons, List.map_append, List.mem_append]
      grind

theorem Lists.filter_depth (listed : g.Lists depth es expanded entries after) :
    (entries.filter fun e => e.depth = depth).map (fun e => (e.stepIndex, e.location)) =
      es.map fun edge => (some edge.site.stepIndex, edge.target) := by
  induction listed with
  | done => rfl
  | again _ _ ih => simp [ih]
  | @first depth _ _ _ _ _ inner _ _ below _ _ ihLater =>
    have deeper : inner.filter (fun e => e.depth = depth) = [] :=
      List.filter_eq_nil_iff.2 fun e inside => by
        simpa using Nat.ne_of_gt (below.depth_le e inside)
    simp [deeper, ihLater]

def Ends (depth : Nat) (others : List TreeEntry) : Prop := ∀ e ∈ others.head?, e.depth < depth

theorem Lists.ends (listed : g.Lists depth es expanded entries after) (ends : Ends depth others) :
    Ends (depth + 1) (entries ++ others) := by
  cases listed with
  | done => exact fun e next => Nat.lt_succ_of_lt (ends e next)
  | again _ _ => simp [Ends]
  | first _ _ _ => simp [Ends]

theorem Ends.below_eq_nil (ends : Ends (e.depth + 1) others) : e.below others = [] := by
  cases others with
  | nil => rfl
  | cons next _ =>
    have level : ¬ e.depth < next.depth := Nat.not_lt.2 (Nat.le_of_lt_succ (ends next rfl))
    simp [TreeEntry.below, level]

theorem Ends.below_append (ends : Ends (e.depth + 1) others)
    (deeper : ∀ other ∈ entries, e.depth + 1 ≤ other.depth) : e.below (entries ++ others) = entries := by
  have inside : ∀ other ∈ entries, decide (e.depth < other.depth) = true := fun other member =>
    decide_eq_true (deeper other member)
  have stops := ends.below_eq_nil
  rw [TreeEntry.below] at stops ⊢
  rw [List.takeWhile_append_of_pos inside, stops, List.append_nil]

theorem Lists.opens (listed : g.Lists depth es expanded entries after) (ends : Ends depth others)
    (split : entries = before ++ e :: rest) : g.Opens e (rest ++ others) := by
  induction listed generalizing before rest others with
  | done => simp at split
  | again known later ih =>
    rcases List.cons_eq_append_iff.1 split with ⟨rfl, same⟩ | ⟨front, rfl, behind⟩
    · obtain ⟨rfl, rfl⟩ := List.cons.inj same
      exact ⟨fun _ => Ends.below_eq_nil (later.ends ends), nofun⟩
    · exact ih ends behind
  | first fresh below later ihBelow ihLater =>
    rcases List.cons_eq_append_iff.1 split with ⟨rfl, same⟩ | ⟨front, rfl, behind⟩
    · -- The entries of its own edges end where those of the next edge start.
      obtain ⟨rfl, rfl⟩ := List.cons.inj same
      refine ⟨nofun, fun _ => ?_⟩
      rw [List.append_assoc, TreeEntry.children, Ends.below_append (later.ends ends) below.depth_le]
      exact below.filter_depth
    rcases exists_of_append_eq behind with ⟨between, inside, rfl⟩ | ⟨between, rfl, outside⟩
    · rw [List.append_assoc]
      exact ihBelow (later.ends ends) inside
    · exact ihLater ends outside

end Entries

end ImportGraph

namespace TreeEntry

def Under (w : Location) (depth : Nat) (before : List TreeEntry) : Prop :=
  ∃ parent, (before.find? fun other => other.depth < depth) = some parent ∧ parent.depth + 1 = depth ∧
    parent.again = false ∧ parent.location = w

variable {w : Location} {depth : Nat} {before entries : List TreeEntry} {e : TreeEntry}

theorem Under.cons (under : Under w depth before) (deep : depth ≤ e.depth) : Under w depth (e :: before) := by
  obtain ⟨parent, found, rest⟩ := under
  refine ⟨parent, ?_, rest⟩
  rw [List.find?_cons_of_neg (by simpa using deep), found]

theorem Under.append (under : Under w depth before) (deep : ∀ e ∈ entries, depth ≤ e.depth) :
    Under w depth (entries.reverse ++ before) := by
  induction entries generalizing before with
  | nil => exact under
  | cons e rest ih =>
    rw [List.reverse_cons, List.append_assoc]
    exact ih (under.cons (deep e List.mem_cons_self)) fun other inside => deep other (List.mem_cons_of_mem _ inside)

theorem Under.inside (opened : e.again = false) : Under e.location (e.depth + 1) (e :: before) :=
  ⟨e, by simp, rfl, opened, rfl⟩

theorem edge?_of_under {stepIndex : Nat} {l : Location} {again : Bool} (under : Under w depth before) :
    edge? before ⟨depth, some stepIndex, l, again⟩ = some ⟨⟨w, stepIndex⟩, l⟩ := by
  obtain ⟨parent, found, level, opened, rfl⟩ := under
  simp [edge?, found, level, opened]

theorem edges_append (before first second : List TreeEntry) :
    edges before (first ++ second) = edges before first ++ edges (first.reverse ++ before) second := by
  induction first generalizing before with
  | nil => rfl
  | cons e rest ih => simp [edges, ih]

end TreeEntry

theorem Sources.Makes.eq {S : Sources} {w target : Location} {i : Nat × WorkflowStep} {edge : ImportEdge}
    (makes : S.Makes w i edge) (means : S.target w i.2 = .ok target) : edge = ⟨⟨w, i.1⟩, target⟩ := by
  obtain ⟨site, target'⟩ := edge
  obtain ⟨rfl, resolved⟩ := makes
  obtain rfl : target' = target := Except.ok.inj (resolved.symm.trans means)
  rfl

theorem Sources.stepIndices_eq {S : Sources} {w : Location} {imports : List (Nat × WorkflowStep)}
    {es : List ImportEdge} (makes : List.Forall₂ (S.Makes w) imports es) :
    es.map (fun edge => edge.site.stepIndex) = imports.map Prod.fst := by
  induction makes with
  | nil => rfl
  | cons first _ ih => rw [List.map_cons, List.map_cons, ih, first.1]

/-- The tree goes the way that the walk went. Where the walk passes over what is settled the tree has come before,
and what the walk enters the tree expands. -/
theorem Explores.lists {S : Sources} {fs : FileSystem} {chain : List Location} {w : Location}
    {imports : List (Nat × WorkflowStep)} {settled : List Location} {cache : Cache} {f : Findings}
    (explored : Explores S fs chain w imports settled cache f) {g : ImportGraph} {es : List ImportEdge}
    (makes : List.Forall₂ (S.Makes w) imports es)
    (recorded : ∀ d ∈ f.documents, List.Forall₂ (S.Makes d.location) d.imports (g.importsOf d.location))
    {expanded : List Location} (open_or_settled : ∀ l, l ∈ expanded ↔ l ∈ chain ∨ l ∈ settled)
    {depth : Nat} {before : List TreeEntry} (under : TreeEntry.Under w depth before) :
    ∃ entries after, g.Lists depth es expanded entries after ∧
      (∀ l, l ∈ after ↔ l ∈ chain ∨ l ∈ f.settled) ∧
      TreeEntry.edges before entries = f.edges ∧ entries.length = f.edges.length ∧
      TreeEntry.expansions entries = f.locations := by
  induction explored generalizing es expanded depth before with
  | done =>
    cases makes
    exact ⟨[], expanded, .done, open_or_settled, rfl, rfl, rfl⟩
  | @again _ w stepIndex _ _ _ _ target f means _ known _ ih =>
    obtain ⟨edge, rest, first, others, rfl⟩ := List.forall₂_cons_left_iff.1 makes
    obtain rfl := first.eq means
    obtain ⟨entries, after, listed, colours, edges, size, expansions⟩ :=
      ih others recorded open_or_settled (under.cons (e := ⟨depth, some stepIndex, target, true⟩) (Nat.le_refl _))
    refine ⟨_, after, .again ((open_or_settled _).2 (.inr known)) listed, colours, ?_, ?_, ?_⟩
    · rw [TreeEntry.edges, TreeEntry.edge?_of_under under, edges]
      rfl
    · rw [List.length_cons, size]
      rfl
    · exact expansions
  | @entered chain w stepIndex _ _ settled _ target child inner later means fresh new loaded _ _ ihInner ihLater =>
    obtain ⟨edge, rest, first, others, rfl⟩ := List.forall₂_cons_left_iff.1 makes
    obtain rfl := first.eq means
    have located : child.location = target := S.located _ _ loaded
    obtain ⟨ofChild, behind⟩ := List.forall_mem_cons.1 recorded
    obtain ⟨ofInner, ofLater⟩ := List.forall_mem_append.1 behind
    rw [located] at ofChild
    have unexpanded : target ∉ expanded := fun inside => ((open_or_settled _).1 inside).elim fresh new
    let e : TreeEntry := ⟨depth, some stepIndex, target, false⟩
    have colours : ∀ l, l ∈ target :: expanded ↔ l ∈ chain ++ [target] ∨ l ∈ settled := fun l => by
      rw [List.mem_cons, open_or_settled, List.mem_append, List.mem_singleton]
      grind
    obtain ⟨below, between, listedBelow, coloursBelow, edgesBelow, sizeBelow, expansionsBelow⟩ :=
      ihInner ofChild ofInner colours (TreeEntry.Under.inside (e := e) rfl)
    -- What stands between is deeper, so the next edge still hangs below the same entry.
    have underLater : TreeEntry.Under w depth (below.reverse ++ e :: before) :=
      (under.cons (Nat.le_refl _)).append fun other inside => Nat.le_of_succ_le (listedBelow.depth_le other inside)
    have coloursLater : ∀ l, l ∈ between ↔ l ∈ chain ∨ l ∈ target :: inner.settled := fun l => by
      rw [coloursBelow, List.mem_append, List.mem_singleton, List.mem_cons]
      grind
    obtain ⟨entries, after, listed, colours, edges, size, expansions⟩ :=
      ihLater others ofLater coloursLater underLater
    refine ⟨_, after, .first unexpanded listedBelow listed, colours, ?_, ?_, ?_⟩
    · rw [TreeEntry.edges, TreeEntry.edge?_of_under under, TreeEntry.edges_append, edgesBelow, edges]
      rfl
    · rw [List.length_cons, List.length_append, sizeBelow, size, ← List.length_append]
      rfl
    · simp only [TreeEntry.expansions, List.filter_cons, List.filter_append, List.map_append, Bool.not_false, if_true,
        List.map_cons] at expansionsBelow expansions ⊢
      simp [Findings.locations, Findings.behindImport, located, expansionsBelow, expansions]

namespace Document

theorem pairwise_importsFrom (start : Nat) (steps : List Step) :
    ((importsFrom start steps).map Prod.fst).Pairwise (· < ·) := by
  induction steps generalizing start with
  | nil => exact .nil
  | cons step rest ih =>
    cases step with
    | action _ => exact ih (start + 1)
    | workflow _ =>
      refine List.pairwise_cons.2 ⟨fun index later => ?_, ih (start + 1)⟩
      obtain ⟨⟨_, _⟩, inside, rfl⟩ := List.mem_map.1 later
      exact (mem_importsFrom.1 inside).1

end Document

namespace ImportGraph

variable {g : ImportGraph} {S : Sources} {entry : Location} {entries : List TreeEntry} {after : List Location}

theorem Represents.ordered (represents : g.Represents S entry) (l : Location) :
    ((g.importsOf l).map fun edge => edge.site.stepIndex).Pairwise (· < ·) := by
  by_cases inside : l ∈ g.locations
  · obtain ⟨d, member, rfl⟩ := List.mem_map.1 inside
    rw [Sources.stepIndices_eq (represents.imports d member)]
    exact Document.pairwise_importsFrom 0 d.steps
  · have none_out : g.importsOf l = [] := List.filter_eq_nil_iff.2 fun edge member => by
      simp only [decide_eq_true_eq]
      rintro rfl
      exact inside (represents.sites edge member)
    rw [none_out]
    exact .nil

theorem Lists.shownBy (listed : g.Lists 1 (g.importsOf g.entry) [g.entry] entries after)
    (represents : g.Represents S entry) (edges : TreeEntry.edges [g.top] entries = g.edges)
    (size : entries.length = g.edges.length)
    (expanded : TreeEntry.expansions entries = g.imported.map Document.location) :
    g.ShownBy (g.top :: entries) where
  size := by rw [List.length_cons, size, Nat.add_comm]
  starts := ⟨entries, rfl, listed.depth_le⟩
  edges := edges
  again := fun before e later split => by
    rcases List.cons_eq_append_iff.1 split with ⟨rfl, same⟩ | ⟨front, rfl, behind⟩
    · obtain ⟨rfl, rfl⟩ := List.cons.inj same
      simp [top]
    · rw [listed.again_iff behind, List.mem_singleton, List.map_cons, List.mem_cons]
      rfl
  opens := fun before e later split => by
    have ends : Ends 1 [] := nofun
    rcases List.cons_eq_append_iff.1 split with ⟨rfl, same⟩ | ⟨front, rfl, behind⟩
    · obtain ⟨rfl, rfl⟩ := List.cons.inj same
      refine ⟨nofun, fun _ => ?_⟩
      have below := @Ends.below_append later [] g.top nofun listed.depth_le
      rw [List.append_nil] at below
      rw [TreeEntry.children, below]
      exact listed.filter_depth
    · have opened := listed.opens ends behind
      rwa [List.append_nil] at opened
  ordered := represents.ordered
  expanded := by
    have first : g.entryDocument.location = g.entry := represents.entered.trans represents.starts.symm
    rw [locations, documents, List.map_cons, first, ← expanded]
    rfl
  once := represents.distinct

end ImportGraph

namespace Resolver

variable {r : Resolver} {fs : FileSystem} {cache after : Cache} {entry : Location} {g : ImportGraph}

/-- Going through a graph that was resolved comes to an end with the tree, which shows the graph and is printed entry
by entry. -/
theorem resolveGraph_tree (resolved : r.resolveGraph fs cache entry = (.ok g, after)) :
    (∃ entries expanded, g.Lists 1 (g.importsOf g.entry) [g.entry] entries expanded ∧
      g.tree = g.top :: entries) ∧
    g.ShownBy g.tree ∧ ∀ root, g.Printed root g.tree (Report.graphText root g) := by
  have represents := represents_of_resolveGraph resolved
  obtain ⟨d, f, _, explored, rfl, _⟩ := explores_of_resolveGraph resolved
  obtain ⟨ofEntry, ofOthers⟩ := List.forall_mem_cons.1 represents.imports
  have located : d.location = entry := represents.entered
  rw [located] at ofEntry
  have open_entry : ∀ l, l ∈ [entry] ↔ l ∈ [entry] ∨ l ∈ [] := by simp
  have under : TreeEntry.Under entry 1 [(⟨entry, d, f.documents, f.edges⟩ : ImportGraph).top] :=
    TreeEntry.Under.inside (e := ImportGraph.top _) rfl
  obtain ⟨entries, expanded, listed, _, edges, size, expansions⟩ :=
    explored.lists ofEntry ofOthers open_entry under
  have whole := ImportGraph.tree_of_lists listed
  have shown := listed.shownBy represents edges size expansions
  rw [← whole] at shown
  refine ⟨⟨entries, expanded, listed, whole⟩, shown, fun root => Report.printed_graphText root represents ?_⟩
  intro e member opened
  rw [← shown.expanded]
  exact List.mem_map_of_mem (List.mem_filter.2 ⟨member, by simp [opened]⟩)

end Resolver

namespace Sample

def room : Document := ⟨⟨["w", "room.y"]⟩, some "quiet", ∅, [.action ⟨"rest", none, ∅, false, none⟩]⟩

def stair : Document := ⟨⟨["w", "stair.y"]⟩, none, ∅, [.workflow ⟨⟨"room"⟩, none, ∅⟩]⟩

/-- A document that leads to another one twice, first over a third. -/
def hall : Document where
  location := ⟨["w", "hall.y"]⟩
  description := none
  defaults := ∅
  steps := [.workflow ⟨⟨"stair"⟩, none, ∅⟩, .action ⟨"rest", none, ∅, false, none⟩, .workflow ⟨⟨"room"⟩, none, ∅⟩]

def house : Cache := ((Cache.empty.insert room).insert stair).insert hall

def floorPlan : ImportGraph where
  entry := hall.location
  entryDocument := hall
  imported := [stair, room]
  edges := [⟨⟨hall.location, 0⟩, stair.location⟩, ⟨⟨stair.location, 0⟩, room.location⟩,
    ⟨⟨hall.location, 2⟩, room.location⟩]

end Sample

namespace Resolver

/-- A document that came up two levels down is not expanded again one level up. -/
theorem resolveGraph_tree_sample :
    (∃ after, Sample.resolver.resolveGraph .empty Sample.house Sample.hall.location = (.ok Sample.floorPlan, after)) ∧
      Sample.floorPlan.ShownBy Sample.floorPlan.tree ∧
      Sample.floorPlan.tree = [⟨0, none, Sample.hall.location, false⟩, ⟨1, some 0, Sample.stair.location, false⟩,
        ⟨2, some 0, Sample.room.location, false⟩, ⟨1, some 2, Sample.room.location, true⟩] ∧
      Sample.floorPlan.Printed ⟨["w"]⟩ Sample.floorPlan.tree (Report.graphText ⟨["w"]⟩ Sample.floorPlan) ∧
      Report.graphText ⟨["w"]⟩ Sample.floorPlan =
        "hall.y\n  [0] stair.y\n    [0] room.y  # quiet\n  [2] room.y (see above)\n" ++
          "3 documents, 3 imports, 1 distinct actions\n" := by
  have resolved :
      Sample.resolver.resolveGraph .empty Sample.house Sample.hall.location = (.ok Sample.floorPlan, _) := rfl
  obtain ⟨_, shown, printed⟩ := resolveGraph_tree resolved
  exact ⟨⟨_, resolved⟩, shown, by decide +kernel, printed ⟨["w"]⟩, by decide +kernel⟩

end Resolver

end WorkflowEngine
