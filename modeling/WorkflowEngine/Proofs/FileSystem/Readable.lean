import WorkflowEngine.Proofs.Location.Proper
import Mathlib.Data.List.Nodup
import Mathlib.Data.List.Basic

/-! How many documents can be read.

A look-up descends by one name of the file system at a time, and between two links no deeper than the
deepest entry. The proper locations that can be read are therefore words over the names of the file
system, of a bounded length, and there are no more of them than its bound says.
-/

set_option autoImplicit false

namespace WorkflowEngine

def words {α : Type} (alphabet : List α) : Nat → List (List α)
  | 0 => [[]]
  | bound + 1 => [] :: alphabet.flatMap fun letter => (words alphabet bound).map (letter :: ·)

theorem mem_words {α : Type} {alphabet word : List α} {bound : Nat} (letters : word ⊆ alphabet)
    (short : word.length ≤ bound) : word ∈ words alphabet bound := by
  induction bound generalizing word with
  | zero =>
    obtain rfl := List.eq_nil_of_length_eq_zero (Nat.le_zero.1 short)
    exact List.mem_cons_self
  | succ bound ih =>
    cases word with
    | nil => exact List.mem_cons_self
    | cons letter rest =>
      obtain ⟨here, later⟩ := List.cons_subset.1 letters
      refine List.mem_cons_of_mem _ (List.mem_flatMap.2 ⟨letter, here, List.mem_map.2 ⟨rest, ?_, rfl⟩⟩)
      exact ih later (Nat.le_of_succ_le_succ short)

theorem length_words_le {α : Type} (alphabet : List α) (bound : Nat) :
    (words alphabet bound).length ≤ Nat.pow (alphabet.length + 1) bound := by
  induction bound with
  | zero => exact Nat.le_refl 1
  | succ bound ih =>
    have split : (words alphabet (bound + 1)).length =
        1 + alphabet.length * (words alphabet bound).length := by
      simp [words, List.length_flatMap, List.map_const', Nat.add_comm]
    have scaled := Nat.mul_le_mul_left alphabet.length ih
    have one : 1 ≤ Nat.pow (alphabet.length + 1) bound := Nat.pow_pos (Nat.succ_pos _)
    have power : Nat.pow (alphabet.length + 1) (bound + 1) =
        Nat.pow (alphabet.length + 1) bound * (alphabet.length + 1) := rfl
    rw [split, power, Nat.mul_comm _ (alphabet.length + 1), Nat.succ_mul]
    omega

namespace FileSystem

variable {fs : FileSystem}

def lastNames (fs : FileSystem) : List String := fs.entries.keys.filterMap fun l => l.names.getLast?

theorem length_lastNames_le (fs : FileSystem) : fs.lastNames.length ≤ fs.entries.size := by
  have fewer := List.length_filterMap_le (fun l : Location => l.names.getLast?) fs.entries.keys
  rwa [Dictionary.keys, List.length_map] at fewer

theorem length_le_depth {l : Location} {entry : Entry} (found : fs.entries.find? l = some entry) :
    l.names.length ≤ fs.depth := by
  -- The induction is on the fold from any start, which it never falls below.
  have grows : ∀ (ls : List Location) (start : Nat),
      start ≤ ls.foldl (fun depth l => max depth l.names.length) start ∧
        ∀ m ∈ ls, m.names.length ≤ ls.foldl (fun depth l => max depth l.names.length) start := by
    intro ls
    induction ls with
    | nil => simp
    | cons first rest ih =>
      intro start
      obtain ⟨above, each⟩ := ih (max start first.names.length)
      refine ⟨by rw [List.foldl_cons]; omega, fun m member => ?_⟩
      rcases List.mem_cons.1 member with rfl | member
      · rw [List.foldl_cons]
        omega
      · exact each m member
  exact (grows _ 0).2 l (Dictionary.mem_keys.2 ⟨_, found⟩)

theorem mem_lastNames {here : List String} {name : String} {entry : Entry}
    (found : fs.entries.find? ⟨here ++ [name]⟩ = some entry) : name ∈ fs.lastNames :=
  List.mem_filterMap.2 ⟨_, Dictionary.mem_keys.2 ⟨_, found⟩, by simp⟩

structure Names (fs : FileSystem) (bound : Nat) (names : List String) : Prop where
  known : names ⊆ fs.lastNames
  bounded : names.length ≤ bound

/-- Proper names behind any pieces are names of the file system, if the pieces and they lead anywhere. -/
def Bounds (fs : FileSystem) (look : List String → List String → Except FileFault Location)
    (bound : Nat) : Prop :=
  ∀ here pieces names l, here.length ≤ fs.depth → (∀ name ∈ names, ProperName name) →
    look here (pieces ++ names) = .ok l → fs.Names bound names

variable {jump : List String → List String → Except FileFault Location} {bound : Nat}

theorem names_of_followWith (jumps : fs.Bounds jump bound) {names here : List String} {l : Location}
    (shallow : here.length ≤ fs.depth) (proper : ∀ name ∈ names, ProperName name)
    (found : fs.followWith jump here names = .ok l) :
    fs.Names (bound + (fs.depth - here.length)) names := by
  induction names generalizing here with
  | nil => exact ⟨List.nil_subset _, Nat.zero_le _⟩
  | cons name rest ih =>
    have later : ∀ other ∈ rest, ProperName other := fun other member =>
      proper other (List.mem_cons_of_mem _ member)
    obtain ⟨_, busy, level⟩ := proper name List.mem_cons_self
    rw [followWith] at found
    simp only [busy, level, Bool.false_eq_true, if_false] at found
    cases entry : fs.entries.find? ⟨here ++ [name]⟩ with
    | none => simp [entry] at found
    | some kind =>
      have deep := length_le_depth entry
      have known := mem_lastNames entry
      simp only [List.length_append, List.length_singleton] at deep
      suffices behind : fs.Names (bound + (fs.depth - here.length) - 1) rest by
        refine ⟨List.cons_subset.2 ⟨known, behind.known⟩, ?_⟩
        have bounded := behind.bounded
        simp only [List.length_cons]
        omega
      rw [entry] at found
      cases kind with
      | directory =>
        obtain ⟨known, bounded⟩ := ih (by simpa using deep) later found
        exact ⟨known, by simp only [List.length_append, List.length_singleton] at bounded; omega⟩
      | file _ =>
        dsimp only at found
        split at found
        · rename_i last
          obtain rfl := List.isEmpty_iff.1 last
          exact ⟨List.nil_subset _, Nat.zero_le _⟩
        · cases found
      | link target =>
        -- Behind a link the names that are left are looked up afresh, with one link fewer to follow.
        obtain ⟨known, bounded⟩ := jumps _ _ _ l (by split <;> simp [shallow]) later found
        exact ⟨known, by omega⟩

theorem bounds_followWith (jumps : fs.Bounds jump bound) :
    fs.Bounds (fs.followWith jump) (bound + fs.depth) := by
  intro here pieces names l shallow proper found
  induction pieces generalizing here with
  | nil =>
    obtain ⟨known, bounded⟩ := names_of_followWith jumps shallow proper found
    exact ⟨known, by omega⟩
  | cons piece rest ih =>
    rw [List.cons_append, followWith] at found
    split at found
    · exact ih here shallow found
    split at found
    · exact ih _ (by simp; omega) found
    split at found
    · cases found
    · rename_i entry
      exact ih _ (length_le_depth entry) found
    · split at found
      · rename_i last
        obtain ⟨_, rfl⟩ := List.append_eq_nil_iff.1 (List.isEmpty_iff.1 last)
        exact ⟨List.nil_subset _, Nat.zero_le _⟩
      · cases found
    -- A link goes on with the names behind its target, from a directory that is no deeper.
    · rw [← List.append_assoc] at found
      obtain ⟨known, bounded⟩ := jumps _ _ names l (by split <;> simp [shallow]) proper found
      exact ⟨known, by omega⟩

theorem bounds_follow (links : Nat) : fs.Bounds (fs.follow links) ((links + 1) * fs.depth) := by
  induction links with
  | zero =>
    have jumps : fs.Bounds (fun _ _ => .error .tooManyLinks) 0 := fun _ _ _ _ _ _ found => nomatch found
    simpa [follow] using bounds_followWith jumps
  | succ links ih => simpa [follow, Nat.succ_mul] using bounds_followWith ih

theorem exists_locate_of_readDocument {l : Location} {d : Document}
    (read : fs.readDocument l = .ok d) : ∃ real, fs.locate l.path = .ok real := by
  cases located : fs.locate l.path with
  | ok real => exact ⟨real, rfl⟩
  | error fault =>
    rw [readDocument, readText, located] at read
    cases fault <;> cases read

theorem names_of_readDocument {l : Location} {d : Document} (proper : l.Proper)
    (read : fs.readDocument l = .ok d) : fs.Names ((linkLimit + 1) * (fs.depth + 1)) l.names := by
  obtain ⟨real, located⟩ := exists_locate_of_readDocument read
  obtain ⟨known, bounded⟩ := bounds_follow linkLimit [] [] l.names real (Nat.zero_le _) proper
    (looks_of_locate proper located).follow_eq
  exact ⟨known, Nat.le_trans bounded (Nat.mul_le_mul_left _ (Nat.le_succ _))⟩

/-- There are no more readable documents at proper locations than the bound. -/
theorem length_le_readableBound {ls : List Location} (distinct : ls.Nodup)
    (proper : ∀ l ∈ ls, l.Proper) (readable : ∀ l ∈ ls, ∃ d, fs.readDocument l = .ok d) :
    ls.length ≤ fs.readableBound := by
  have inside : ls.map Location.names ⊆ words fs.lastNames ((linkLimit + 1) * (fs.depth + 1)) := by
    intro names spelled
    obtain ⟨l, member, rfl⟩ := List.mem_map.1 spelled
    obtain ⟨d, read⟩ := readable l member
    obtain ⟨known, bounded⟩ := names_of_readDocument (proper l member) read
    exact mem_words known bounded
  have apart : (ls.map Location.names).Nodup :=
    distinct.map fun _ _ same => Location.ext_names same
  calc ls.length = (ls.map Location.names).length := (List.length_map _).symm
    _ ≤ (words fs.lastNames ((linkLimit + 1) * (fs.depth + 1))).length := apart.length_le_of_subset inside
    _ ≤ Nat.pow (fs.lastNames.length + 1) ((linkLimit + 1) * (fs.depth + 1)) := length_words_le _ _
    _ ≤ fs.readableBound :=
      Nat.pow_le_pow_left (Nat.succ_le_succ fs.length_lastNames_le) _

end FileSystem

theorem Cache.length_le_of_document {fs : FileSystem} {c : Cache} {ls : List Location}
    (distinct : ls.Nodup) (proper : ∀ l ∈ ls, l.Proper)
    (loaded : ∀ l ∈ ls, ∃ d, c.document fs l = .ok d) : ls.length ≤ fs.readableBound + c.size := by
  have inside : ls.filter c.contains ⊆ c.locations := fun l member => by
    obtain ⟨d, found⟩ := Option.isSome_iff_exists.1 (List.mem_filter.1 member).2
    exact Dictionary.mem_keys.2 ⟨_, found⟩
  have cached : (ls.filter c.contains).length ≤ c.size := by
    have fewer := (distinct.filter _).length_le_of_subset inside
    rwa [locations, Dictionary.keys, List.length_map] at fewer
  have read : (ls.filter fun l => !c.contains l).length ≤ fs.readableBound := by
    refine FileSystem.length_le_readableBound (distinct.filter _)
      (fun l member => proper l (List.mem_filter.1 member).1) fun l member => ?_
    obtain ⟨member, absent⟩ := List.mem_filter.1 member
    obtain ⟨d, read⟩ := loaded l member
    have missing : c.find? l = none := by simpa [contains, Dictionary.contains, find?] using absent
    rw [document, missing] at read
    exact ⟨d, read⟩
  rw [List.length_eq_length_filter_add c.contains]
  omega

end WorkflowEngine
