import WorkflowEngine.Proofs.Graph.Findings
import Mathlib.Data.List.Nodup

/-! What an import graph represents.

A graph that was resolved has the documents that come up below its entry, and the edges of their workflow
steps. Nothing that comes up leads back to itself. All its documents are in the cache afterwards. At the
end stands the graph of a document that imports another one twice.
-/

set_option autoImplicit false

namespace WorkflowEngine

open Relation

namespace Document

theorem mem_importsFrom {steps : List Step} {start index : Nat} {step : WorkflowStep} :
    (index, step) ∈ importsFrom start steps ↔
      start ≤ index ∧ steps[index - start]? = some (.workflow step) := by
  induction steps generalizing start with
  | nil => simp [importsFrom]
  | cons first rest ih =>
    have shift : start + 1 ≤ index → (first :: rest)[index - start]? = rest[index - (start + 1)]? := by
      intro later
      rw [show index - start = index - (start + 1) + 1 by omega, List.getElem?_cons_succ]
    cases first with
    | action other =>
      simp only [importsFrom, ih]
      constructor
      · rintro ⟨later, found⟩
        exact ⟨by omega, (shift later).trans found⟩
      · rintro ⟨from', found⟩
        rcases Nat.eq_or_lt_of_le from' with rfl | later
        · simp at found
        · exact ⟨later, (shift later).symm.trans found⟩
    | workflow other =>
      simp only [importsFrom, List.mem_cons, Prod.mk.injEq, ih]
      constructor
      · rintro (⟨rfl, rfl⟩ | ⟨later, found⟩)
        · simp
        · exact ⟨by omega, (shift later).trans found⟩
      · rintro ⟨from', found⟩
        rcases Nat.eq_or_lt_of_le from' with rfl | later
        · simp only [Nat.sub_self, List.getElem?_cons_zero, Option.some.injEq,
            Step.workflow.injEq] at found
          exact .inl ⟨rfl, found.symm⟩
        · exact .inr ⟨later, (shift later).symm.trans found⟩

theorem mem_imports {d : Document} {index : Nat} {step : WorkflowStep} :
    (index, step) ∈ d.imports ↔ d.steps[index]? = some (.workflow step) := by
  simp [imports, mem_importsFrom]

end Document

namespace ImportGraph

def locations (g : ImportGraph) : List Location := g.documents.map Document.location

structure Represents (g : ImportGraph) (S : Sources) (entry : Location) : Prop where
  starts : g.entry = entry
  entered : g.entryDocument.location = entry
  stands : ∀ d ∈ g.documents, S.document d.location = .ok d
  reached : ∀ l, l ∈ g.locations ↔ S.Reaches entry l
  preorder : ∃ tree, S.Unfolds entry g.entryDocument.imports tree ∧
    g.locations = (entry :: tree).eraseDups
  distinct : g.locations.Nodup
  imports : ∀ d ∈ g.documents,
    List.Forall₂ (S.Makes d.location) d.imports (g.importsOf d.location)
  sites : ∀ edge ∈ g.edges, edge.site.workflow ∈ g.locations
  complete : S.Complete entry
  acyclic : S.Acyclic entry

structure Leads (g : ImportGraph) (workflow : Location) (stepIndex : Nat) (target : Location)
    (child : Document) : Prop where
  recorded : ⟨⟨workflow, stepIndex⟩, target⟩ ∈ g.edges
  only : ∀ edge ∈ g.edges, edge.site = ⟨workflow, stepIndex⟩ → edge.target = target
  document : g.document? target = some child

theorem Leads.unique {g : ImportGraph} {workflow target other : Location} {stepIndex : Nat}
    {child twin : Document} (leads : g.Leads workflow stepIndex target child)
    (recorded : ⟨⟨workflow, stepIndex⟩, other⟩ ∈ g.edges) (document : g.document? other = some twin) :
    target = other ∧ child = twin := by
  obtain rfl : other = target := leads.only _ recorded rfl
  exact ⟨rfl, Option.some.inj (leads.document.symm.trans document)⟩

theorem mem_of_document? {g : ImportGraph} {l : Location} {d : Document}
    (found : g.document? l = some d) : d ∈ g.documents ∧ d.location = l :=
  ⟨List.mem_of_find?_eq_some found, by simpa using List.find?_some found⟩

namespace Represents

variable {g : ImportGraph} {S : Sources} {entry : Location} {d : Document}

theorem document?_of_mem (represents : g.Represents S entry) (member : d ∈ g.documents) :
    g.document? d.location = some d := by
  have found : (g.document? d.location).isSome := by
    rw [document?, List.find?_isSome]
    exact ⟨d, member, by simp⟩
  obtain ⟨e, same⟩ := Option.isSome_iff_exists.1 found
  obtain ⟨inner, located⟩ := mem_of_document? same
  rw [same, List.inj_on_of_nodup_map represents.distinct inner member located]

theorem exists_document? (represents : g.Represents S entry) {l : Location} (inner : l ∈ g.locations) :
    ∃ d, g.document? l = some d := by
  obtain ⟨d, member, rfl⟩ := List.mem_map.1 inner
  exact ⟨d, represents.document?_of_mem member⟩

theorem target_of_edge (represents : g.Represents S entry) (member : d ∈ g.documents)
    {stepIndex : Nat} {step : WorkflowStep} (found : d.steps[stepIndex]? = some (.workflow step))
    {edge : ImportEdge} (inside : edge ∈ g.edges) (placed : edge.site = ⟨d.location, stepIndex⟩) :
    S.target d.location step = .ok edge.target := by
  have listed : edge ∈ g.importsOf d.location := List.mem_filter.2 ⟨inside, by simp [placed]⟩
  obtain ⟨⟨index, other⟩, known, same, means⟩ :=
    (exists_of_forall₂ (represents.imports d member)).2 edge listed
  obtain rfl : stepIndex = index := (ImportSite.mk.inj (placed.symm.trans same)).2
  obtain rfl : other = step := by
    simpa using (Document.mem_imports.1 known).symm.trans found
  exact means

theorem exists_edge (represents : g.Represents S entry) (member : d ∈ g.documents) {stepIndex : Nat}
    {step : WorkflowStep} (found : d.steps[stepIndex]? = some (.workflow step)) :
    ∃ edge ∈ g.edges, edge.site = ⟨d.location, stepIndex⟩ ∧
      S.target d.location step = .ok edge.target ∧
      ∀ other ∈ g.edges, other.site = ⟨d.location, stepIndex⟩ → other = edge := by
  obtain ⟨edge, inside, placed, means⟩ := (exists_of_forall₂ (represents.imports d member)).1 _
    (Document.mem_imports.2 found)
  refine ⟨edge, (List.mem_filter.1 inside).1, placed, means, fun other listed same => ?_⟩
  have again := represents.target_of_edge member found listed same
  have target : other.target = edge.target := Except.ok.inj (again.symm.trans means)
  cases other
  cases edge
  simp_all

theorem exists_leads (represents : g.Represents S entry) (member : d ∈ g.documents) {stepIndex : Nat}
    {step : WorkflowStep} (found : d.steps[stepIndex]? = some (.workflow step)) :
    ∃ child, g.Leads d.location stepIndex child.location child ∧
      S.target d.location step = .ok child.location ∧ S.Imports d.location child.location := by
  obtain ⟨⟨site, target⟩, recorded, placed, means, only⟩ := represents.exists_edge member found
  obtain rfl : site = _ := placed
  have imported : S.Imports d.location target :=
    ⟨d, represents.stands d member, stepIndex, step, Document.mem_imports.2 found, means⟩
  have path : S.Reaches entry d.location := (represents.reached _).1 (List.mem_map_of_mem member)
  obtain ⟨child, document⟩ :=
    represents.exists_document? ((represents.reached _).2 (path.tail imported))
  obtain ⟨_, rfl⟩ := mem_of_document? document
  exact ⟨child, ⟨recorded, fun edge listed same => congrArg ImportEdge.target (only edge listed same),
    document⟩, means, imported⟩

end Represents

end ImportGraph

theorem Sources.coloured_nil (S : Sources) (chain : List Location) : S.Coloured chain [] :=
  ⟨trivial, by simp⟩

namespace Explores

variable {S : Sources} {fs : FileSystem} {entry : Location} {d : Document} {cache : Cache}
  {f : Findings}

theorem settled_entry (explored : Explores S fs [entry] entry d.imports [] cache f)
    (loaded : S.document entry = .ok d) : S.Settled (entry :: f.settled) := by
  have below : Explores S fs ([] ++ [entry]) entry d.imports [] cache f := explored
  exact (below.coloured_behind (S.coloured_nil []) (by simp) (by simp) loaded).ordered

theorem represents (explored : Explores S fs [entry] entry d.imports [] cache f)
    (loaded : S.document entry = .ok d) :
    (⟨entry, d, f.documents, f.edges⟩ : ImportGraph).Represents S entry := by
  have located : d.location = entry := S.located _ _ loaded
  have before : S.Coloured [entry] [] := S.coloured_nil _
  have settled := explored.settled_entry loaded
  have perm : f.settled.Perm f.locations := by simpa using explored.settled_perm
  obtain ⟨e, tree, again, unfolded⟩ := settled.unfolds List.mem_cons_self
  obtain rfl : d = e := Except.ok.inj (loaded.symm.trans again)
  have locations : (⟨entry, d, f.documents, f.edges⟩ : ImportGraph).locations =
      entry :: f.locations := congrArg (· :: f.locations) located
  -- The entry is settled behind all that comes up below it.
  have apart : entry ∉ tree := fun member => settled.1 (unfolded.subset settled.2.2
    (fun i inner => (explored.coloured before).2 i inner) member)
  exact {
    starts := rfl
    entered := located
    stands := fun e member => by
      rcases List.mem_cons.1 member with rfl | member
      · rwa [located]
      · exact explored.documents_stand e member
    reached := fun l => by
      rw [locations]
      constructor
      · intro member
        rcases List.mem_cons.1 member with rfl | member
        · exact .refl
        · exact explored.reaches loaded (fun _ => id) l member
      · intro path
        rcases List.mem_cons.1 (settled.mem_of_reaches List.mem_cons_self path) with rfl | member
        · exact List.mem_cons_self
        · exact List.mem_cons_of_mem _ (perm.mem_iff.1 member)
    preorder := ⟨tree, unfolded, by
      have found := explored.locations_eq before unfolded
      have kept : tree.filter (fun l => !l == entry) = tree := List.filter_eq_self.2 fun l member => by
        have other : l ≠ entry := fun same => apart (same ▸ member)
        simpa using other
      rw [locations, found, List.removeAll_nil, List.eraseDups_cons, kept]⟩
    distinct := by
      rw [locations]
      exact (List.Perm.cons entry perm).nodup_iff.1 settled.nodup
    imports := fun e member => by
      rcases List.mem_cons.1 member with rfl | member
      · rw [located]
        exact explored.edgesFrom_self before (by simp)
      · exact explored.edgesFrom_document before (by simp) e member
    sites := fun edge member => by
      rw [locations]
      rcases explored.edges_from edge member with same | found
      · exact same ▸ List.mem_cons_self
      · exact List.mem_cons_of_mem _ found
    complete := settled.complete List.mem_cons_self
    acyclic := settled.acyclic List.mem_cons_self }

/-- Everything that was found is in the cache, and nothing has left it. -/
theorem find?_cache {chain : List Location} {w : Location} {imports : List (Nat × WorkflowStep)}
    {settled : List Location} {r : Resolver}
    (explored : Explores S fs chain w imports settled cache f) (unchanged : r.sources fs cache = S) :
    (∀ l e, cache.find? l = some e → f.cache.find? l = some e) ∧
      ∀ e ∈ f.documents, f.cache.find? e.location = some e := by
  induction explored with
  | done => exact ⟨fun _ _ => id, by simp [Findings.nothing]⟩
  | again _ _ _ _ ih => exact ih unchanged
  | @entered _ _ _ _ _ _ cache target child inner later _ _ _ stands explored _ ihInner ihLater =>
    have loaded := (r.sources_load fs cache target).trans unchanged
    obtain ⟨keptInner, foundInner⟩ := ihInner loaded
    obtain ⟨keptLater, foundLater⟩ := ihLater ((explored.sources_eq r).trans loaded)
    have there : (cache.load fs target).2.find? target = some child := by
      refine Cache.find?_load_self ?_
      rw [← unchanged] at stands
      exact stands
    -- What is in the cache stays there while the rest is gone through.
    refine ⟨fun l e found => keptLater l e (keptInner l e (Cache.find?_load_of_find? fs target found)),
      fun e member => ?_⟩
    rcases List.mem_cons.1 member with rfl | member
    · rw [S.located _ _ stands]
      exact keptLater _ _ (keptInner _ _ there)
    · rcases List.mem_append.1 member with member | member
      · exact keptLater _ _ (foundInner e member)
      · exact foundLater e member

end Explores

namespace Resolver

variable {r : Resolver} {fs : FileSystem} {cache after : Cache} {entry : Location} {g : ImportGraph}

def conclude (entry : Location) (d : Document) (loaded : Cache) :
    WalkResult → Except GraphFailure ImportGraph × Cache
  | .found f => (.ok ⟨entry, d, f.documents, f.edges⟩, f.cache)
  | .rejected failure cache => (.error failure, cache)
  | .exhausted => (.error ⟨none, [], .cyclicImport [] entry⟩, loaded)

theorem resolveGraph_of_document {d : Document} (read : cache.document fs entry = .ok d) :
    ∃ result, Accounted (r.sources fs cache) fs entry (walkBudget fs (cache.load fs entry).2 + 1)
        [entry] entry d.imports [] (cache.load fs entry).2 result ∧
      r.resolveGraph fs cache entry = conclude entry d (cache.load fs entry).2 result := by
  obtain rfl : d.location = entry := Cache.location_of_document read
  obtain ⟨result, walked, accounted⟩ := walk_accounted
    (walkBudget fs (cache.load fs d.location).2) [] d [] (cache.load fs d.location).2
    (r.sources_load fs cache d.location) read (Sources.opened_entry read)
  refine ⟨result, by simpa using accounted, ?_⟩
  unfold resolveGraph
  rw [Cache.load_of_document read]
  dsimp only
  rw [walked]
  cases result <;> rfl

theorem explores_of_resolveGraph (resolved : r.resolveGraph fs cache entry = (.ok g, after)) :
    ∃ d f, cache.document fs entry = .ok d ∧
      Explores (r.sources fs cache) fs [entry] entry d.imports [] (cache.load fs entry).2 f ∧
      g = ⟨entry, d, f.documents, f.edges⟩ ∧ after = f.cache := by
  cases read : cache.document fs entry with
  | error e => simp [resolveGraph, Cache.load_of_document_error read] at resolved
  | ok d =>
    obtain ⟨result, accounted, concluded⟩ := resolveGraph_of_document (r := r) read
    rw [resolved] at concluded
    cases result with
    | found f =>
      simp only [conclude, Prod.mk.injEq, Except.ok.injEq] at concluded
      exact ⟨d, f, rfl, accounted, concluded.1, concluded.2⟩
    | rejected failure _ => simp [conclude] at concluded
    | exhausted => simp [conclude] at concluded

theorem represents_of_resolveGraph (resolved : r.resolveGraph fs cache entry = (.ok g, after)) :
    g.Represents (r.sources fs cache) entry := by
  obtain ⟨d, f, read, explored, rfl, _⟩ := explores_of_resolveGraph resolved
  exact explored.represents read

theorem find?_of_resolveGraph (resolved : r.resolveGraph fs cache entry = (.ok g, after)) :
    ∀ d ∈ g.documents, after.find? d.location = some d := by
  obtain ⟨d, f, read, explored, rfl, rfl⟩ := explores_of_resolveGraph resolved
  obtain ⟨kept, found⟩ := explored.find?_cache (r.sources_load fs cache entry)
  intro e member
  rcases List.mem_cons.1 member with rfl | member
  · rw [Cache.location_of_document read]
    exact kept _ _ (Cache.find?_load_self read)
  · exact found e member

variable {target : Target}

theorem resolveGraph_of_resolveTargetGraph
    (resolved : r.resolveTargetGraph fs cache target = (.ok g, after)) :
    r.resolveGraph fs cache g.entry = (.ok g, after) := by
  unfold resolveTargetGraph at resolved
  split at resolved
  · cases resolved
  · rwa [(represents_of_resolveGraph resolved).starts]

end Resolver

namespace Sample

/-- A document whose only step is fatal once the files are gone. -/
def leaf : Document where
  location := ⟨["w", "b.y"]⟩
  description := none
  defaults := ∅
  steps := [.action ⟨"wipe", none, ∅, false, none⟩]

/-- A document that imports the leaf under two spellings before a step of its own. -/
def entry : Document where
  location := ⟨["w", "a.y"]⟩
  description := none
  defaults := ∅
  steps := [.workflow ⟨⟨"b"⟩, none, ∅⟩, .workflow ⟨⟨"./b"⟩, none, ∅⟩,
    .action ⟨"wipe", none, ∅, true, none⟩]

def cache : Cache := (Cache.empty.insert leaf).insert entry

def resolver : Resolver := ⟨⟨["w"]⟩, "y", .unrestricted, .lexical⟩

def graph : ImportGraph where
  entry := entry.location
  entryDocument := entry
  imported := [leaf]
  edges := [⟨⟨entry.location, 0⟩, leaf.location⟩, ⟨⟨entry.location, 1⟩, leaf.location⟩]

end Sample

end WorkflowEngine
