import WorkflowEngine.Dictionary.Order

/-! Dictionaries with their keys in order.

A dictionary is a list of entries whose keys strictly ascend, so it has one representation and its
entries can be shown as they stand. A later insertion under a key replaces the earlier one.
-/

set_option autoImplicit false

namespace WorkflowEngine

open KeyOrder

def Ascending {κ α : Type} [KeyOrder κ] (entries : List (κ × α)) : Prop :=
  entries.Pairwise fun a b => before a.1 b.1 = true

def insertEntry {κ α : Type} [KeyOrder κ] (key : κ) (value : α) : List (κ × α) → List (κ × α)
  | [] => [(key, value)]
  | (other, old) :: rest =>
    if before key other then (key, value) :: (other, old) :: rest
    else if before other key then (other, old) :: insertEntry key value rest
    else (key, value) :: rest

section Insertion

variable {κ α : Type} [KeyOrder κ]

theorem mem_insertEntry {key : κ} {value : α} {entries : List (κ × α)} {entry : κ × α}
    (h : entry ∈ insertEntry key value entries) : entry = (key, value) ∨ entry ∈ entries := by
  induction entries with
  | nil => simpa [insertEntry] using h
  | cons head rest ih =>
    obtain ⟨other, old⟩ := head
    simp only [insertEntry] at h
    split at h
    · exact List.mem_cons.1 h
    · split at h
      · rcases List.mem_cons.1 h with same | later
        · exact .inr (by simp [same])
        · rcases ih later with same | member
          · exact .inl same
          · exact .inr (by simp [member])
      · rcases List.mem_cons.1 h with same | later
        · exact .inl same
        · exact .inr (by simp [later])

theorem Ascending.insertEntry {key : κ} {value : α} {entries : List (κ × α)}
    (sorted : Ascending entries) : Ascending (insertEntry key value entries) := by
  induction entries with
  | nil => simp [WorkflowEngine.insertEntry, Ascending]
  | cons head rest ih =>
    obtain ⟨other, old⟩ := head
    simp only [Ascending, List.pairwise_cons] at sorted
    obtain ⟨first, tail⟩ := sorted
    simp only [WorkflowEngine.insertEntry]
    split
    · rename_i h
      refine List.pairwise_cons.2 ⟨fun entry member => ?_, List.pairwise_cons.2 ⟨first, tail⟩⟩
      rcases List.mem_cons.1 member with rfl | member
      · exact h
      · exact transitive _ _ _ h (first entry member)
    · split
      · rename_i h
        refine List.pairwise_cons.2 ⟨fun entry member => ?_, ih tail⟩
        rcases mem_insertEntry member with rfl | member
        · exact h
        · exact first entry member
      · rename_i h₁ h₂
        have same : key = other := total _ _ (by simpa using h₁) (by simpa using h₂)
        subst same
        exact List.pairwise_cons.2 ⟨first, tail⟩

end Insertion

structure Dictionary (κ α : Type) [KeyOrder κ] where
  entries : List (κ × α)
  sorted : Ascending entries

namespace Dictionary

variable {κ α β : Type} [KeyOrder κ]

theorem ext_entries {a b : Dictionary κ α} (h : a.entries = b.entries) : a = b := by
  cases a
  cases b
  cases h
  rfl

def empty : Dictionary κ α := ⟨[], List.Pairwise.nil⟩

instance : EmptyCollection (Dictionary κ α) := ⟨empty⟩

instance : Inhabited (Dictionary κ α) := ⟨empty⟩

def insert (d : Dictionary κ α) (key : κ) (value : α) : Dictionary κ α :=
  ⟨insertEntry key value d.entries, d.sorted.insertEntry⟩

def find? [DecidableEq κ] (d : Dictionary κ α) (key : κ) : Option α :=
  (d.entries.find? fun entry => entry.1 = key).map Prod.snd

def contains [DecidableEq κ] (d : Dictionary κ α) (key : κ) : Bool :=
  (d.find? key).isSome

def keys (d : Dictionary κ α) : List κ := d.entries.map Prod.fst

def size (d : Dictionary κ α) : Nat := d.entries.length

def isEmpty (d : Dictionary κ α) : Bool := d.entries.isEmpty

def mapValues (d : Dictionary κ α) (f : κ → α → β) : Dictionary κ β where
  entries := d.entries.map fun entry => (entry.1, f entry.1 entry.2)
  sorted := by
    simpa only [Ascending, List.pairwise_map] using d.sorted

def filterKeys (d : Dictionary κ α) (keep : κ → Bool) : Dictionary κ α where
  entries := d.entries.filter fun entry => keep entry.1
  sorted := d.sorted.filter _

/-- Insert entries from left to right, so the last one under a key stays. -/
def insertAll (d : Dictionary κ α) (entries : List (κ × α)) : Dictionary κ α :=
  entries.foldl (fun d entry => d.insert entry.1 entry.2) d

def ofList (entries : List (κ × α)) : Dictionary κ α := empty.insertAll entries

instance [DecidableEq κ] [DecidableEq α] : DecidableEq (Dictionary κ α) := fun a b =>
  if h : a.entries = b.entries then isTrue (ext_entries h)
  else isFalse fun same => h (congrArg entries same)

theorem pairwise_keys (d : Dictionary κ α) : d.keys.Pairwise fun a b => before a b = true :=
  List.pairwise_map.2 d.sorted

theorem nodup_keys (d : Dictionary κ α) : d.keys.Nodup := d.pairwise_keys.imp ne_of_before

variable [DecidableEq κ]

theorem mem_keys {d : Dictionary κ α} {key : κ} :
    key ∈ d.keys ↔ ∃ value, d.find? key = some value := by
  constructor
  · intro member
    obtain ⟨entry, inside, rfl⟩ := List.mem_map.1 member
    have found : (d.entries.find? fun other => other.1 = entry.1).isSome := by
      rw [List.find?_isSome]
      exact ⟨entry, inside, by simp⟩
    obtain ⟨other, first⟩ := Option.isSome_iff_exists.1 found
    exact ⟨other.2, Option.map_eq_some_iff.2 ⟨other, first, rfl⟩⟩
  · rintro ⟨value, found⟩
    obtain ⟨entry, first, _⟩ := Option.map_eq_some_iff.1 found
    obtain rfl : entry.1 = key := by simpa using List.find?_some first
    exact List.mem_map_of_mem (List.mem_of_find?_eq_some first)

@[simp]
theorem find?_empty (key : κ) : (empty : Dictionary κ α).find? key = none := rfl

theorem find?_insert (d : Dictionary κ α) (key : κ) (value : α) (other : κ) :
    (d.insert key value).find? other = if key = other then some value else d.find? other := by
  obtain ⟨entries, sorted⟩ := d
  simp only [find?, insert]
  clear sorted
  induction entries with
  | nil =>
    by_cases same : key = other <;> simp [insertEntry, same]
  | cons head rest ih =>
    obtain ⟨first, old⟩ := head
    simp only [insertEntry]
    split
    · by_cases same : key = other <;> simp [List.find?_cons, same]
    · split
      · rename_i ahead
        have apart := ne_of_before ahead
        by_cases here : first = other
        · subst here
          simp [Ne.symm apart]
        · simpa [List.find?_cons, here] using ih
      · rename_i h₁ h₂
        have same : key = first := total _ _ (by simpa using h₁) (by simpa using h₂)
        subst same
        by_cases here : key = other <;> simp [here]

theorem find?_insert_self (d : Dictionary κ α) (key : κ) (value : α) :
    (d.insert key value).find? key = some value := by
  simp [find?_insert]

theorem find?_insert_of_ne (d : Dictionary κ α) {key other : κ} (value : α) (apart : key ≠ other) :
    (d.insert key value).find? other = d.find? other := by
  simp [find?_insert, apart]

theorem find?_mapValues (d : Dictionary κ α) (f : κ → α → β) (key : κ) :
    (d.mapValues f).find? key = (d.find? key).map (f key) := by
  obtain ⟨entries, sorted⟩ := d
  simp only [find?, mapValues]
  clear sorted
  induction entries with
  | nil => rfl
  | cons head rest ih =>
    by_cases here : head.1 = key
    · simp [here]
    · simpa [List.find?_cons, here] using ih

theorem find?_filterKeys (d : Dictionary κ α) (keep : κ → Bool) (key : κ) :
    (d.filterKeys keep).find? key = if keep key then d.find? key else none := by
  rw [find?, filterKeys, List.find?_filter]
  split
  · rename_i kept
    rw [find?]
    congr 2
    funext entry
    by_cases here : entry.1 = key <;> simp [here, kept]
  · rename_i dropped
    rw [List.find?_eq_none.2, Option.map_none]
    intro entry _
    by_cases here : entry.1 = key <;> simp [here, dropped]

theorem mem_keys_insertAll {d : Dictionary κ α} {entries : List (κ × α)} {key : κ} :
    key ∈ (d.insertAll entries).keys ↔ key ∈ d.keys ∨ key ∈ entries.map Prod.fst := by
  induction entries generalizing d with
  | nil => simp [insertAll]
  | cons first rest ih =>
    have inserted : key ∈ (d.insert first.1 first.2).keys ↔ key = first.1 ∨ key ∈ d.keys := by
      simp only [mem_keys, find?_insert]
      by_cases same : first.1 = key
      · simp [same]
      · simp [same, Ne.symm same]
    have all := @ih (d.insert first.1 first.2)
    rw [insertAll, List.foldl_cons, ← insertAll, all, inserted, List.map_cons, List.mem_cons, or_comm (a := key = first.1),
      or_assoc]

theorem mem_keys_ofList {entries : List (κ × α)} {key : κ} :
    key ∈ (ofList entries).keys ↔ key ∈ entries.map Prod.fst := by
  rw [ofList, mem_keys_insertAll]
  simp [keys, empty]

end Dictionary

end WorkflowEngine
