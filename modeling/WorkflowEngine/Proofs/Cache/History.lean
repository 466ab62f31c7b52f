import WorkflowEngine.Cache
import WorkflowEngine.Proofs.ListsAndResults
import Mathlib.Data.List.Induction

/-! What a cache remembers.

All that happens to a cache is that a document is asked for, with the files as they are at that time, or that
all documents are forgotten. What stands under a location is then the document that its file had the first
time that it could be read since, and nothing that happens to the file later matters.
-/

set_option autoImplicit false

namespace WorkflowEngine

inductive Access where
  | load (files : FileSystem) (l : Location)
  | clear

namespace Access

/-- The loads since everything was forgotten, in order. -/
def sinceClear (accesses : List Access) : List (FileSystem × Location) :=
  accesses.foldl (fun loads access =>
    match access with
    | .load files l => loads ++ [(files, l)]
    | .clear => []) []

/-- The document at a location, from the first of some loads that could read it. -/
def firstRead? (l : Location) (loads : List (FileSystem × Location)) : Option Document :=
  loads.findSome? fun load => if load.2 = l then (load.1.readDocument l).toOption else none

@[simp]
theorem sinceClear_load (done : List Access) (files : FileSystem) (l : Location) :
    sinceClear (done ++ [.load files l]) = sinceClear done ++ [(files, l)] := by
  simp [sinceClear]

@[simp]
theorem sinceClear_clear (done : List Access) : sinceClear (done ++ [.clear]) = [] := by
  simp [sinceClear]

theorem firstRead?_concat (loads : List (FileSystem × Location)) (files : FileSystem)
    (m l : Location) : firstRead? l (loads ++ [(files, m)]) =
      (firstRead? l loads).or (if m = l then (files.readDocument l).toOption else none) := by
  simp [firstRead?, List.findSome?_append]

theorem exists_firstRead? {l : Location} {loads : List (FileSystem × Location)} :
    (∃ d, firstRead? l loads = some d) ↔
      ∃ files d, (files, l) ∈ loads ∧ files.readDocument l = .ok d := by
  rw [← Option.isSome_iff_exists, firstRead?, List.findSome?_isSome_iff]
  constructor
  · rintro ⟨⟨files, m⟩, member, found⟩
    by_cases same : m = l
    · subst same
      obtain ⟨d, read⟩ := Option.isSome_iff_exists.1 (by simpa using found)
      exact ⟨files, d, member, toOption_eq_some_iff.1 read⟩
    · simp [same] at found
  · rintro ⟨files, d, member, read⟩
    exact ⟨(files, l), member, by simp [read, Except.toOption]⟩

end Access

namespace Cache

open Access

def after (c : Cache) : Access → Cache
  | .load files l => (c.load files l).2
  | .clear => .empty

def replay (c : Cache) (accesses : List Access) : Cache := accesses.foldl after c

/-- The location of the file that an access reads and parses, if it does so. -/
def reading? (c : Cache) : Access → Option Location
  | .load files l => if (c.find? l).isNone && (files.readDocument l).isOk then some l else none
  | .clear => none

def readings (c : Cache) : List Access → List Location
  | [] => []
  | access :: later => (c.reading? access).toList ++ (c.after access).readings later

@[simp]
theorem replay_nil (c : Cache) : c.replay [] = c := rfl

@[simp]
theorem replay_cons (c : Cache) (access : Access) (later : List Access) :
    c.replay (access :: later) = (c.after access).replay later := rfl

theorem replay_append (c : Cache) (first second : List Access) :
    c.replay (first ++ second) = (c.replay first).replay second := List.foldl_append

theorem find?_after_load (c : Cache) (files : FileSystem) (m l : Location) :
    (c.after (.load files m)).find? l =
      (c.find? l).or (if m = l then (files.readDocument l).toOption else none) := by
  rw [after, find?_load]
  by_cases same : m = l
  · subst same
    cases found : c.find? m with
    | some d => simp [document, found, Except.toOption]
    | none => simp [document, found]
  · simp [same]

theorem find?_replay_of_find? {c : Cache} {l : Location} {d : Document} {accesses : List Access}
    (kept : .clear ∉ accesses) (found : c.find? l = some d) :
    (c.replay accesses).find? l = some d := by
  induction accesses generalizing c with
  | nil => exact found
  | cons access later ih =>
    obtain ⟨first, others⟩ := not_or.1 (mt List.mem_cons.2 kept)
    cases access with
    | clear => exact absurd rfl first
    | load files m => exact ih others (find?_load_of_find? files m found)

/-- Only what was not there is read, and what has been read is there. -/
theorem readings_fresh {accesses : List Access} (kept : .clear ∉ accesses) (c : Cache) :
    (c.readings accesses).Nodup ∧ ∀ l ∈ c.readings accesses, c.find? l = none := by
  induction accesses generalizing c with
  | nil => exact ⟨.nil, by simp [readings]⟩
  | cons access later ih =>
    obtain ⟨first, others⟩ := not_or.1 (mt List.mem_cons.2 kept)
    cases access with
    | clear => exact absurd rfl first
    | load files m =>
      obtain ⟨distinct, fresh⟩ := ih others (c.after (.load files m))
      have before : ∀ l ∈ (c.after (.load files m)).readings later, c.find? l = none := by
        intro l member
        have gone := fresh l member
        rw [find?_after_load] at gone
        exact (Option.or_eq_none_iff.1 gone).1
      rw [readings, reading?]
      split
      · rename_i read
        obtain ⟨missing, parsed⟩ := Bool.and_eq_true_iff.1 read
        -- What is read now stands in the cache from here on, so it is not read again.
        have gone : m ∉ (c.after (.load files m)).readings later := by
          intro member
          have nothing := fresh m member
          rw [find?_after_load] at nothing
          cases read : files.readDocument m with
          | error e => simp [read, Except.isOk, Except.toBool] at parsed
          | ok d => simp [read, Except.toOption] at nothing
        exact ⟨List.nodup_cons.2 ⟨gone, distinct⟩,
          List.forall_mem_cons.2 ⟨Option.isNone_iff_eq_none.1 missing, before⟩⟩
      · exact ⟨distinct, before⟩

theorem find?_of_load_error {c : Cache} {files : FileSystem} {l : Location} {e : Error}
    (failed : (c.load files l).1 = .error e) : c.find? l = none := by
  cases found : c.find? l with
  | none => rfl
  | some d => simp [load_of_find? files found] at failed

theorem load_of_missing {c : Cache} {l : Location} (missing : c.find? l = none)
    (files : FileSystem) : (c.load files l).1 = files.readDocument l := by
  rw [load_fst, document, missing]

theorem find?_replay_empty (done : List Access) (l : Location) :
    (empty.replay done).find? l = firstRead? l (sinceClear done) := by
  induction done using List.reverseRecOn with
  | nil => rfl
  | append_singleton done access ih =>
    rw [replay_append]
    cases access with
    | clear =>
      rw [sinceClear_clear]
      rfl
    | load files m => rw [sinceClear_load, firstRead?_concat, ← ih, ← find?_after_load]; rfl

/-- A cache is what is left of accesses: under each location stands what was read there first since
everything was forgotten, and a load that failed is as if it had not been made. -/
structure Remembers (done : List Access) (c : Cache) : Prop where
  holds : ∀ l, (∃ d, c.find? l = some d) ↔
    ∃ files d, (files, l) ∈ sinceClear done ∧ files.readDocument l = .ok d
  first : ∀ l, c.find? l = firstRead? l (sinceClear done)
  located : ∀ l d, c.find? l = some d → d.location = l
  stays : ∀ before between, done = before ++ between → .clear ∉ between →
    ∀ l d, (empty.replay before).find? l = some d → c.find? l = some d
  once : ∀ before between, done = before ++ between → .clear ∉ between →
    ((empty.replay before).readings between).Nodup
  answers : ∀ l d, c.find? l = some d → ∀ files, c.load files l = (.ok d, c)
  fails : ∀ files l e, (c.load files l).1 = .error e →
    c.load files l = (.error e, c) ∧ ∀ other, (c.load other l).1 = other.readDocument l
  forgets : ∀ before files l later e, done = before ++ .load files l :: later →
    ((empty.replay before).load files l).1 = .error e → c = empty.replay (before ++ later)
  sorted : c.locations.Pairwise fun a b => KeyOrder.before a b = true
  listed : ∀ l, l ∈ c.locations ↔ ∃ d, c.find? l = some d

theorem remembers (done : List Access) : Remembers done (empty.replay done) where
  holds l := by rw [find?_replay_empty, exists_firstRead?]
  first := find?_replay_empty done
  located _ _ := location_of_find?
  stays before between split kept l d found := by
    rw [split, replay_append]
    exact find?_replay_of_find? kept found
  once before between _ kept := (readings_fresh kept _).1
  answers _ _ found files := load_of_find? files found
  fails files l e failed := by
    refine ⟨load_of_document_error ?_, load_of_missing (find?_of_load_error failed)⟩
    rw [← load_fst, failed]
  forgets before files l later e split failed := by
    have same : (empty.replay before).load files l = (.error e, empty.replay before) := by
      refine load_of_document_error ?_
      rw [← load_fst, failed]
    rw [split, replay_append, replay_append, replay_cons, after, same]
  sorted := List.pairwise_map.2 (empty.replay done).documents.sorted
  listed _ := Dictionary.mem_keys

end Cache

end WorkflowEngine
