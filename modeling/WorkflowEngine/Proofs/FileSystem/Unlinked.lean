import WorkflowEngine.FileSystem.Edit
import WorkflowEngine.Proofs.Location.Proper

/-! File systems without links.

Where there are no links a look-up ends where its names say, or nowhere. What a location is cut into for its
real one is then put together again as it was, wherever the cut falls: at the top, before a missing name or
behind a file. So both normalizations are the same function there. No change but the making of a link takes a
file system out of this.
-/

set_option autoImplicit false

namespace WorkflowEngine

namespace FileSystem

def Unlinked (fs : FileSystem) : Prop := ∀ l target, fs.entryAt? l ≠ some (.link target)

variable {fs : FileSystem}

theorem names_of_looks (unlinked : fs.Unlinked) {links : Nat} {here names : List String} {l : Location}
    (looks : fs.Looks links here names (.ok l)) (proper : ∀ name ∈ names, ProperName name) :
    l.names = here ++ names := by
  generalize found : Except.ok l = outcome at looks
  induction looks with
  | done =>
    cases found
    simp
  | idle idle =>
    have busy := (proper _ List.mem_cons_self).busy
    rw [idle] at busy
    cases busy
  | up => exact absurd rfl (proper _ List.mem_cons_self).level
  | missing => cases found
  | directory _ _ ih => simpa using ih (List.forall_mem_cons.1 proper).2 found
  | file =>
    cases found
    rfl
  | blocked => cases found
  | exhausted => cases found
  | link meets => exact absurd meets.entryAt? (unlinked _ _)

theorem eq_of_locate (unlinked : fs.Unlinked) {l real : Location} (proper : l.Proper)
    (located : fs.locate l.path = .ok real) : real = l :=
  Location.ext_names (names_of_looks unlinked (looks_of_locate proper located) proper)

theorem exists_locate_existingPart (above : List String) :
    ∃ real, fs.locate (fs.existingPart above).1.path = .ok real := by
  induction above with
  | nil =>
    have top : Location.top.Proper := by simp [Location.Proper, Location.top]
    have free : Location.top.NulFree := by simp [Location.NulFree, Location.top]
    have looks : fs.Looks linkLimit [] Location.top.names (.ok .top) := .done
    exact ⟨.top, (locate_path top free).trans looks.follow_eq⟩
  | cons name above ih =>
    rw [existingPart]
    split
    · rename_i present
      cases located : fs.locate (Location.path ⟨above.reverse ++ [name]⟩) with
      | ok real => exact ⟨real, rfl⟩
      | error fault => simp [isPresent, located, Except.isOk, Except.toBool] at present
    · exact ih

theorem realLocation_of_unlinked (unlinked : fs.Unlinked) {l : Location} (proper : l.Proper) :
    fs.realLocation l = .ok l := by
  have whole := fs.names_existingPart l.names.reverse
  rw [List.reverse_reverse] at whole
  obtain ⟨real, located⟩ := fs.exists_locate_existingPart l.names.reverse
  have properFound : (fs.existingPart l.names.reverse).1.Proper := fun name member =>
    proper name (whole ▸ List.mem_append_left _ member)
  obtain rfl := eq_of_locate unlinked properFound located
  simp only [realLocation, located, whole]

/-- Without links every path has one normal location, or none for one reason. -/
theorem normalLocation_of_unlinked (unlinked : fs.Unlinked) (mode other : Normalization) (p : Path) :
    fs.normalLocation mode p = fs.normalLocation other p := by
  have lexical : ∀ mode, fs.normalLocation mode p = fs.normalLocation .lexical p := by
    intro mode
    cases mode with
    | lexical => rfl
    | filesystem =>
      unfold normalLocation
      cases spelled : p.spelledLocation with
      | error fault => rfl
      | ok l => exact realLocation_of_unlinked unlinked (Path.proper_of_spelledLocation spelled)
  rw [lexical mode, lexical other]

section Edits

theorem unlinked_iff :
    fs.Unlinked ↔ ∀ l target, l.names ≠ [] → fs.entries.find? l ≠ some (.link target) := by
  refine forall_congr' fun l => forall_congr' fun target => ?_
  unfold entryAt?
  split
  · rename_i top
    simp [top]
  · rename_i below
    exact ⟨fun plain _ => plain, fun plain => plain below⟩

theorem unlinked_empty : empty.Unlinked := unlinked_iff.2 fun _ _ _ found => nomatch found

theorem Unlinked.put (unlinked : fs.Unlinked) {entry : Entry} (plain : ∀ target, entry ≠ .link target)
    (l : Location) : (fs.put l entry).Unlinked := by
  refine unlinked_iff.2 fun other target below found => ?_
  rw [FileSystem.put, Dictionary.find?_insert] at found
  split at found
  · exact plain target (Option.some.inj found)
  · exact unlinked_iff.1 unlinked other target below found

theorem Unlinked.dropTree (unlinked : fs.Unlinked) (l : Location) : (fs.dropTree l).Unlinked := by
  refine unlinked_iff.2 fun other target below found => ?_
  rw [FileSystem.dropTree, Dictionary.find?_filterKeys] at found
  split at found
  · exact unlinked_iff.1 unlinked other target below found
  · cases found

theorem Unlinked.makeAlong (unlinked : fs.Unlinked) (here pieces : List String) :
    (fs.makeAlong here pieces).1.Unlinked := by
  fun_induction FileSystem.makeAlong fs here pieces with
  | case4 fs here piece rest _ _ _ ih => exact ih (unlinked.put (by simp) _)
  | _ => simp_all

theorem Unlinked.makeDirectory (unlinked : fs.Unlinked) (p : Path) : (fs.makeDirectory p).Unlinked :=
  unlinked.makeAlong _ _

theorem Unlinked.prepare (unlinked : fs.Unlinked) (p : Path) : (fs.prepare p).1.Unlinked := by
  unfold FileSystem.prepare
  split
  · exact unlinked
  · rename_i above _
    have made := unlinked.makeAlong (fs.startOf p) above.reverse
    split <;> rename_i same <;> exact (congrArg Prod.fst same) ▸ made

theorem Unlinked.write (unlinked : fs.Unlinked) (p : Path) (content : Content) :
    (fs.write p content).Unlinked := by
  have prepared := unlinked.prepare p
  unfold FileSystem.write
  split
  · rename_i same
    rw [same] at prepared
    split
    · exact prepared.put (by simp) _
    · exact prepared
  · rename_i same
    rwa [same] at prepared

theorem Unlinked.remove (unlinked : fs.Unlinked) (p : Path) : (fs.remove p).Unlinked := by
  unfold FileSystem.remove
  split
  · exact unlinked
  · split
    · exact unlinked.dropTree _
    · exact unlinked

end Edits

end FileSystem

end WorkflowEngine
