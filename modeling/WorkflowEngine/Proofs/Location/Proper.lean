import WorkflowEngine.Graph
import WorkflowEngine.Proofs.FileSystem.Lookup

/-! Proper locations.

A name is proper if a look-up descends to it: there is no slash in it, and it is neither idle nor climbs.
Normal locations have proper names only, in either mode, so what a workflow step means is always found
again under the path that spells it.
-/

set_option autoImplicit false

namespace WorkflowEngine

theorem Location.ext_names {l m : Location} (same : l.names = m.names) : l = m := by
  cases l
  cases m
  exact congrArg Location.mk same

structure ProperName (name : String) : Prop where
  slashless : '/' ∉ name.toList
  busy : Path.isIdle name = false
  level : name ≠ ".."

def Location.Proper (l : Location) : Prop := ∀ name ∈ l.names, ProperName name

theorem Path.slashless_of_mem_pieces {p : Path} {piece : String} (member : piece ∈ p.pieces) :
    '/' ∉ piece.toList := by
  obtain ⟨cs, inside, rfl⟩ := List.mem_map.1 member
  intro slash
  rw [String.toList_ofList] at slash
  have kept := Text.cut_eq_false_of_mem_pieces inside slash
  simp [Path.isSlash] at kept

section Spelling

theorem Descent.proper_of_step {d e : Descent} {piece : String} (slashless : '/' ∉ piece.toList)
    (proper : ∀ name ∈ d.names, ProperName name) (stepped : d.step piece = some e) :
    ∀ name ∈ e.names, ProperName name := by
  unfold Descent.step at stepped
  split at stepped
  · cases stepped
    exact proper
  · rename_i busy
    split at stepped
    · split at stepped
      · cases stepped
      · cases stepped
        exact fun name member => proper name (List.dropLast_subset _ member)
    · rename_i level
      cases stepped
      intro name member
      rcases List.mem_append.1 member with member | member
      · exact proper name member
      · obtain rfl := List.mem_singleton.1 member
        exact ⟨slashless, by simpa using busy, level⟩

theorem Descent.proper_of_follow {pieces : List String} {d e : Descent}
    (slashless : ∀ piece ∈ pieces, '/' ∉ piece.toList)
    (proper : ∀ name ∈ d.names, ProperName name) (followed : d.follow pieces = some e) :
    ∀ name ∈ e.names, ProperName name := by
  induction pieces generalizing d with
  | nil =>
    obtain rfl : d = e := by simpa [Descent.follow] using followed
    exact proper
  | cons piece rest ih =>
    simp only [Descent.follow, List.foldlM_cons, Option.bind_eq_bind, Option.bind_eq_some_iff]
      at followed
    obtain ⟨next, stepped, followed⟩ := followed
    exact ih (fun other member => slashless other (List.mem_cons_of_mem _ member))
      (Descent.proper_of_step (slashless piece List.mem_cons_self) proper stepped) followed

theorem Path.proper_of_spelledLocation {p : Path} {l : Location}
    (spelled : p.spelledLocation = .ok l) : l.Proper := by
  unfold Path.spelledLocation at spelled
  split at spelled
  · split at spelled
    · rename_i d followed
      cases spelled
      exact Descent.proper_of_follow (fun _ => Path.slashless_of_mem_pieces)
        (by simp [Descent.start]) followed
    · cases spelled
  · cases spelled

end Spelling

namespace FileSystem

variable {fs : FileSystem}

theorem Meets.proper {here : List String} {piece : String} {entry : Option Entry}
    (meets : fs.Meets here piece entry) (slashless : '/' ∉ piece.toList)
    (proper : ∀ name ∈ here, ProperName name) : ∀ name ∈ here ++ [piece], ProperName name := by
  intro name member
  rcases List.mem_append.1 member with member | member
  · exact proper name member
  · obtain rfl := List.mem_singleton.1 member
    exact ⟨slashless, meets.busy, meets.level⟩

theorem Looks.proper {links : Nat} {here pieces : List String} {l : Location}
    (looks : fs.Looks links here pieces (.ok l)) (proper : ∀ name ∈ here, ProperName name)
    (slashless : ∀ piece ∈ pieces, '/' ∉ piece.toList) : l.Proper := by
  generalize found : Except.ok l = outcome at looks
  induction looks with
  | done =>
    cases found
    exact proper
  | idle _ _ ih => exact ih proper (List.forall_mem_cons.1 slashless).2 found
  | up _ ih =>
    exact ih (fun name member => proper name (List.dropLast_subset _ member))
      (List.forall_mem_cons.1 slashless).2 found
  | missing => cases found
  | directory meets _ ih =>
    obtain ⟨first, later⟩ := List.forall_mem_cons.1 slashless
    exact ih (meets.proper first proper) later found
  | file meets =>
    cases found
    exact meets.proper (slashless _ List.mem_cons_self) proper
  | blocked => cases found
  | exhausted => cases found
  | link _ _ ih =>
    refine ih ?_ (List.forall_mem_append.2 ⟨?_, (List.forall_mem_cons.1 slashless).2⟩) found
    · split
      · simp
      · exact proper
    · exact fun _ => Path.slashless_of_mem_pieces

theorem names_existingPart (above : List String) :
    (fs.existingPart above).1.names ++ (fs.existingPart above).2 = above.reverse := by
  induction above with
  | nil => rfl
  | cons name above ih =>
    rw [existingPart]
    split
    · simp
    · simpa using congrArg (· ++ [name]) ih

end FileSystem

theorem Location.isAbsolute_path (l : Location) : l.path.isAbsolute = true := by
  unfold Location.path Location.text
  cases l.names with
  | nil => rfl
  | cons name names => simp [Path.isAbsolute, String.join_cons, Path.isSlash]

theorem Path.isSlash_eq_false_of_slashless {cs : List Char} (slashless : '/' ∉ cs) : ∀ c ∈ cs, isSlash c = false := by
  intro c member
  have other : c ≠ '/' := fun same => slashless (same ▸ member)
  simpa [isSlash] using other

theorem Location.pieces_path {l : Location} (proper : l.Proper) (below : l.names ≠ []) :
    l.path.pieces = "" :: l.names := by
  have spelled : l.path.text.toList = [] ++ (l.names.map String.toList).flatMap ('/' :: ·) := by
    unfold Location.path Location.text
    split
    · contradiction
    · simp [String.toList_join, List.flatMap_map]
  have whole : ∀ name ∈ l.names.map String.toList, ∀ c ∈ name, Path.isSlash c = false :=
    List.forall_mem_map.2 fun name member => Path.isSlash_eq_false_of_slashless (proper name member).slashless
  rw [Path.pieces, spelled, Text.pieces_flatMap rfl whole (by simp)]
  simp [Function.comp_def]

/-- No name has a character that ends texts for the system. -/
def Location.NulFree (l : Location) : Prop := ∀ name ∈ l.names, '\x00' ∉ name.toList

theorem Location.contains_nul_path {l : Location} :
    l.path.text.toList.contains '\x00' = false ↔ l.NulFree := by
  unfold Location.path Location.text NulFree
  split
  · rename_i top
    rw [top]
    simp
  · rw [String.toList_join, List.flatMap_map]
    simp

namespace FileSystem

variable {fs : FileSystem}

theorem locate_path {l : Location} (proper : l.Proper) (free : l.NulFree) :
    fs.locate l.path = fs.follow linkLimit [] l.names := by
  have written : l.path.isEmpty = false := by
    have slash := l.isAbsolute_path
    unfold Path.isAbsolute at slash
    unfold Path.isEmpty
    split at slash <;> simp_all
  rw [locate, Location.contains_nul_path.2 free, written, startOf, if_pos l.isAbsolute_path]
  by_cases below : l.names = []
  · obtain rfl : l = .top := Location.ext_names below
    rfl
  · rw [Location.pieces_path proper below]
    rfl

theorem nulFree_of_locate {l real : Location} (located : fs.locate l.path = .ok real) : l.NulFree := by
  unfold locate at located
  split at located
  · cases located
  · rename_i free
    exact Location.contains_nul_path.1 (by simpa using free)

theorem looks_of_locate {l real : Location} (proper : l.Proper) (located : fs.locate l.path = .ok real) :
    fs.Looks linkLimit [] l.names (.ok real) := by
  rw [locate_path proper (nulFree_of_locate located)] at located
  exact located ▸ looks_follow linkLimit [] l.names

theorem proper_of_realLocation {l real : Location} (proper : l.Proper)
    (located : fs.realLocation l = .ok real) : real.Proper := by
  unfold realLocation at located
  have whole := fs.names_existingPart l.names.reverse
  rw [List.reverse_reverse] at whole
  generalize fs.existingPart l.names.reverse = part at located whole
  obtain ⟨found, missing⟩ := part
  dsimp only at located whole
  split at located
  · rename_i start looked
    cases located
    intro name member
    rcases List.mem_append.1 member with member | member
    · have properFound : found.Proper := fun name member =>
        proper name (whole ▸ List.mem_append_left _ member)
      exact (looks_of_locate properFound looked).proper (by simp)
        (fun name member => (properFound name member).slashless) name member
    · exact proper name (whole ▸ List.mem_append_right _ member)
  · cases located

theorem proper_of_normalLocation {mode : Normalization} {p : Path} {l : Location}
    (located : fs.normalLocation mode p = .ok l) : l.Proper := by
  unfold normalLocation at located
  split at located
  · cases located
  · rename_i spelled
    split at located
    · cases located
      exact Path.proper_of_spelledLocation spelled
    · exact proper_of_realLocation (Path.proper_of_spelledLocation spelled) located

end FileSystem

namespace Resolver

variable {r : Resolver} {fs : FileSystem}

theorem eq_of_confine {reference : String} {l confined : Location}
    (inside : r.confine reference l = .ok confined) : confined = l := by
  unfold confine at inside
  split at inside
  · cases inside
  · cases inside
    rfl

theorem proper_of_resolve {reference : Reference} {directory : Path} {l : Location}
    (resolved : r.resolve fs reference directory = .ok l) : l.Proper := by
  unfold resolve at resolved
  split at resolved
  · cases resolved
  split at resolved
  · cases resolved
  split at resolved
  · cases resolved
  dsimp only at resolved
  split at resolved
  · rename_i located
    rw [eq_of_confine resolved]
    exact FileSystem.proper_of_normalLocation located
  · cases resolved

theorem proper_of_importTarget {workflow target : Location} {step : WorkflowStep}
    (means : r.importTarget fs workflow step = .ok target) : target.Proper :=
  proper_of_resolve means

end Resolver

end WorkflowEngine
