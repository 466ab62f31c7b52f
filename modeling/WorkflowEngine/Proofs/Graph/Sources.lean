import WorkflowEngine.Graph
import WorkflowEngine.Proofs.ListsAndResults
import Mathlib.Logic.Relation

/-! What imports what.

The sources of import graphs are what stands at each location and what each workflow step there means.
Loading a document does not change them: what is in the cache from then on is what was read. Locations
that are settled one after the other, each leading only to earlier ones, lead to no cycle.
-/

set_option autoImplicit false

namespace WorkflowEngine

open Relation

/-- What stands at each location, and what a workflow step of the document there means. -/
@[ext]
structure Sources where
  document : Location → Except Error Document
  target : Location → WorkflowStep → Except Error Location
  located : ∀ l d, document l = .ok d → d.location = l

def Resolver.sources (r : Resolver) (fs : FileSystem) (cache : Cache) : Sources :=
  ⟨cache.document fs, r.importTarget fs, fun _ _ => Cache.location_of_document⟩

theorem Resolver.sources_target (r : Resolver) (fs : FileSystem) (cache : Cache) :
    (r.sources fs cache).target = r.importTarget fs := by
  rw [sources]

theorem Resolver.sources_document (r : Resolver) (fs : FileSystem) (cache : Cache) :
    (r.sources fs cache).document = cache.document fs := by
  rw [sources]

@[simp]
theorem Resolver.sources_load (r : Resolver) (fs : FileSystem) (cache : Cache) (l : Location) :
    r.sources fs (cache.load fs l).2 = r.sources fs cache :=
  Sources.ext (cache.document_load fs l) rfl

namespace Sources

variable (S : Sources)

def Imports (l m : Location) : Prop :=
  ∃ d, S.document l = .ok d ∧
    ∃ stepIndex step, (stepIndex, step) ∈ d.imports ∧ S.target l step = .ok m

abbrev Reaches : Location → Location → Prop := ReflTransGen S.Imports

def Complete (entry : Location) : Prop :=
  ∀ l, S.Reaches entry l → ∃ d, S.document l = .ok d ∧
    ∀ stepIndex step, (stepIndex, step) ∈ d.imports → ∃ m, S.target l step = .ok m

def Acyclic (entry : Location) : Prop :=
  ∀ l, S.Reaches entry l → ¬ TransGen S.Imports l l

def LeadsInto (l : Location) (inside : List Location) : Prop :=
  ∃ d, S.document l = .ok d ∧
    ∀ stepIndex step, (stepIndex, step) ∈ d.imports → ∃ m ∈ inside, S.target l step = .ok m

/-- Different locations, the last one first, of which each leads only to those behind it. -/
def Settled : List Location → Prop
  | [] => True
  | l :: before => l ∉ before ∧ S.LeadsInto l before ∧ Settled before

variable {S : Sources}

theorem LeadsInto.mono {l : Location} {inside wider : List Location} (leads : S.LeadsInto l inside)
    (subset : inside ⊆ wider) : S.LeadsInto l wider := by
  obtain ⟨d, loaded, means⟩ := leads
  refine ⟨d, loaded, fun stepIndex step member => ?_⟩
  obtain ⟨m, inner, resolved⟩ := means stepIndex step member
  exact ⟨m, subset inner, resolved⟩

theorem LeadsInto.mem_of_imports {l m : Location} {inside : List Location}
    (leads : S.LeadsInto l inside) (imported : S.Imports l m) : m ∈ inside := by
  obtain ⟨d, loaded, means⟩ := leads
  obtain ⟨e, again, stepIndex, step, member, resolved⟩ := imported
  obtain rfl : d = e := Except.ok.inj (loaded.symm.trans again)
  obtain ⟨n, inner, same⟩ := means stepIndex step member
  obtain rfl : n = m := Except.ok.inj (same.symm.trans resolved)
  exact inner

namespace Settled

theorem leadsInto {settled : List Location} (ordered : S.Settled settled) {l : Location}
    (member : l ∈ settled) : S.LeadsInto l settled := by
  induction settled with
  | nil => cases member
  | cons first before ih =>
    obtain ⟨_, leads, earlier⟩ := ordered
    rcases List.mem_cons.1 member with rfl | member
    · exact leads.mono (List.subset_cons_self _ _)
    · exact (ih earlier member).mono (List.subset_cons_self _ _)

theorem mem_of_reaches {settled : List Location} (ordered : S.Settled settled) {l m : Location}
    (member : l ∈ settled) (path : S.Reaches l m) : m ∈ settled := by
  induction path with
  | refl => exact member
  | tail _ imported ih => exact (ordered.leadsInto ih).mem_of_imports imported

theorem not_transGen {settled : List Location} (ordered : S.Settled settled) {l : Location}
    (member : l ∈ settled) : ¬ TransGen S.Imports l l := by
  induction settled with
  | nil => cases member
  | cons first before ih =>
    obtain ⟨fresh, leads, earlier⟩ := ordered
    intro cycle
    rcases List.mem_cons.1 member with rfl | member
    -- Ways go down the list, so one from its head does not come back to it.
    · obtain ⟨m, imported, back⟩ := TransGen.head'_iff.1 cycle
      exact fresh (mem_of_reaches earlier (leads.mem_of_imports imported) back)
    · exact ih earlier member cycle

theorem nodup {settled : List Location} (ordered : S.Settled settled) : settled.Nodup := by
  induction settled with
  | nil => exact .nil
  | cons first before ih => exact List.nodup_cons.2 ⟨ordered.1, ih ordered.2.2⟩

theorem complete {settled : List Location} (ordered : S.Settled settled) {entry : Location}
    (member : entry ∈ settled) : S.Complete entry := by
  intro l path
  obtain ⟨d, loaded, means⟩ := ordered.leadsInto (ordered.mem_of_reaches member path)
  refine ⟨d, loaded, fun stepIndex step inner => ?_⟩
  obtain ⟨m, _, resolved⟩ := means stepIndex step inner
  exact ⟨m, resolved⟩

theorem acyclic {settled : List Location} (ordered : S.Settled settled) {entry : Location}
    (member : entry ∈ settled) : S.Acyclic entry := fun _ path =>
  ordered.not_transGen (ordered.mem_of_reaches member path)

end Settled

end Sources

end WorkflowEngine
