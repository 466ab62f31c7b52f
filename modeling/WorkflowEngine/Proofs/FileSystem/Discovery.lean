import WorkflowEngine.Discovery
import WorkflowEngine.Proofs.FileSystem.Unlinked
import WorkflowEngine.Proofs.Location.Spelling

/-! What is found below a directory.

Found are the files with the extension in all directories that can be descended to within the depth. A file has an
extension if a dot stands before it that is not the first character, and no dot stands in it. Without links, every
file at a location below a proper root has its directories listed one in the other, down to the file itself.
-/

set_option autoImplicit false

namespace WorkflowEngine

theorem Location.cutExtension_eq_iff {name stem extension : String} :
    cutExtension name = (stem, some extension) ↔
      name = stem ++ "." ++ extension ∧ stem ≠ "" ∧ '.' ∉ extension.toList := by
  have reversed : name = stem ++ "." ++ extension ↔
      name.toList.reverse = extension.toList.reverse ++ '.' :: stem.toList.reverse := by
    rw [← String.toList_inj, ← List.reverse_inj]
    simp
  unfold cutExtension
  constructor
  · intro cut
    split at cut
    · rename_i after before whole
      obtain ⟨spelled, free⟩ := Text.cutAtFirst?_eq_some_iff.1 whole
      split at cut
      · cases cut
      · rename_i stem_written
        cases cut
        exact ⟨reversed.2 (by simpa using spelled), by simpa using stem_written, by simpa using free⟩
    · cases cut
  · rintro ⟨spelled, written, free⟩
    have cut := Text.cutAtFirst?_eq_some_iff.2 ⟨reversed.1 spelled, by simpa using free⟩
    rw [cut]
    simp [written]

theorem Location.cutExtension_snd_eq_iff {name extension : String} :
    (cutExtension name).2 = some extension ↔
      '.' ∉ extension.toList ∧ ∃ stem, stem ≠ "" ∧ name = stem ++ "." ++ extension := by
  constructor
  · intro extended
    obtain ⟨spelled, written, free⟩ := cutExtension_eq_iff.1 (Prod.ext rfl extended)
    exact ⟨free, _, written, spelled⟩
  · rintro ⟨free, stem, written, spelled⟩
    rw [cutExtension_eq_iff.2 ⟨spelled, written, free⟩]

namespace FileSystem

variable {fs : FileSystem} {root : Path} {extension : String}

/-- Whatever there is has names that a system gives. -/
def Proper (fs : FileSystem) : Prop := ∀ l ∈ fs.entries.keys, l.Proper

def Lists (fs : FileSystem) (p : Path) (name : String) : Prop := name ∈ (fs.list? p).getD []

/-- From a place below the root, directories can be gone into one after the other. -/
inductive Descends (fs : FileSystem) (root : Path) : List String → List String → Prop
  | stay {above : List String} : Descends fs root above []
  | into {above rest : List String} {name : String} :
      fs.Lists (below root above) name → fs.isDirectory (below root (above ++ [name])) = true →
      Descends fs root (above ++ [name]) rest → Descends fs root above (name :: rest)

/-- A directory below the root lists a file with the extension. -/
structure Keeps (fs : FileSystem) (root : Path) (extension : String) (above : List String) (file : String) :
    Prop where
  listed : fs.Lists (below root above) file
  extended : (Location.cutExtension file).2 = some extension
  isFile : fs.isFile (below root (above ++ [file])) = true

theorem mem_ownDocuments {above names : List String} :
    names ∈ (((fs.list? (below root above)).getD []).filter fun name =>
      (Location.cutExtension name).2 = some extension && fs.isFile (below root (above ++ [name]))).map
        (fun name => above ++ [name]) ↔ ∃ file, names = above ++ [file] ∧ fs.Keeps root extension above file := by
  rw [List.mem_map]
  refine exists_congr fun file => ?_
  rw [List.mem_filter, and_comm, Bool.and_eq_true_iff, decide_eq_true_eq, eq_comm]
  exact and_congr_right fun _ => ⟨fun ⟨listed, extended, isFile⟩ => ⟨listed, extended, isFile⟩,
    fun keeps => ⟨keeps.listed, keeps.extended, keeps.isFile⟩⟩

theorem mem_documentsBelow {depth : Nat} {above names : List String} :
    names ∈ fs.documentsBelow root extension depth above ↔ ∃ directories file,
      names = above ++ directories ++ [file] ∧ directories.length ≤ depth ∧
      fs.Descends root above directories ∧ fs.Keeps root extension (above ++ directories) file := by
  induction depth generalizing above with
  | zero =>
    rw [documentsBelow, List.append_nil, mem_ownDocuments]
    constructor
    · rintro ⟨file, rfl, keeps⟩
      exact ⟨[], file, by simp, by simp, .stay, by simpa using keeps⟩
    · rintro ⟨directories, file, rfl, shallow, _, keeps⟩
      obtain rfl := List.length_eq_zero_iff.1 (Nat.le_zero.1 shallow)
      exact ⟨file, by simp, by simpa using keeps⟩
  | succ depth ih =>
    rw [documentsBelow, List.mem_append, mem_ownDocuments, List.mem_flatMap]
    constructor
    · rintro (⟨file, rfl, keeps⟩ | ⟨name, inside, found⟩)
      · exact ⟨[], file, by simp, by simp, .stay, by simpa using keeps⟩
      · obtain ⟨listed, directory⟩ := List.mem_filter.1 inside
        obtain ⟨directories, file, rfl, shallow, descends, keeps⟩ := ih.1 found
        refine ⟨name :: directories, file, by simp, by simpa using shallow, .into listed directory descends, ?_⟩
        simpa using keeps
    · rintro ⟨directories, file, rfl, shallow, descends, keeps⟩
      cases descends with
      | stay => exact .inl ⟨file, by simp, by simpa using keeps⟩
      | @into _ rest name listed directory further =>
        refine .inr ⟨name, List.mem_filter.2 ⟨listed, directory⟩, ?_⟩
        exact ih.2 ⟨rest, file, by simp, by simpa using shallow, further, by simpa using keeps⟩

theorem mem_discover_iff_mem_documentsBelow {depth : Nat} {names : List String} :
    names ∈ fs.discover root extension depth ↔ names ∈ fs.documentsBelow root extension depth [] := by
  rw [discover, Dictionary.mem_keys_ofList, List.map_map]
  have same : Prod.fst ∘ (fun names : List String => (names, ())) = id := rfl
  rw [same, List.map_id]

theorem mem_discover {depth : Nat} {names : List String} :
    names ∈ fs.discover root extension depth ↔ ∃ directories file, names = directories ++ [file] ∧
      directories.length ≤ depth ∧ fs.Descends root [] directories ∧ fs.Keeps root extension directories file := by
  rw [mem_discover_iff_mem_documentsBelow, mem_documentsBelow]
  simp

section Located

variable {above : List String} {name : String}

theorem mem_namesIn {directory : Location} :
    name ∈ fs.namesIn directory ↔ ∃ entry, fs.entries.find? (directory.child name) = some entry := by
  rw [← Dictionary.mem_keys, namesIn, List.mem_filterMap]
  constructor
  · rintro ⟨l, member, inside⟩
    split at inside
    · rename_i within
      obtain ⟨front, ends⟩ := List.getLast?_eq_some_iff.1 inside
      rw [ends, List.dropLast_concat] at within
      have same : l = directory.child name := Location.ext_names (by rw [ends, within]; rfl)
      exact same ▸ member
    · cases inside
  · intro member
    exact ⟨_, member, by simp [Location.child]⟩

theorem proper_of_lists (whole : fs.Proper) {p : Path} (listed : fs.Lists p name) : ProperName name := by
  unfold Lists list? at listed
  split at listed
  · rename_i l _
    split at listed
    · obtain ⟨entry, found⟩ := mem_namesIn.1 (by simpa using listed)
      exact whole (l.child name) (Dictionary.mem_keys.2 ⟨entry, found⟩) name (by simp [Location.child])
    · cases listed
  · cases listed

theorem proper_of_descends (whole : fs.Proper) {names : List String} (descends : fs.Descends root above names) :
    ∀ name ∈ names, ProperName name := by
  induction descends with
  | stay => simp
  | into listed _ _ ih => exact List.forall_mem_cons.2 ⟨proper_of_lists whole listed, ih⟩

theorem proper_of_discover (whole : fs.Proper) {depth : Nat} {names : List String}
    (found : names ∈ fs.discover root extension depth) : ∀ name ∈ names, ProperName name := by
  obtain ⟨directories, file, rfl, _, descends, keeps⟩ := mem_discover.1 found
  refine List.forall_mem_append.2 ⟨proper_of_descends whole descends, ?_⟩
  simpa using proper_of_lists whole keeps.listed

theorem below_path {l : Location} (proper : l.Proper) {names : List String}
    (all : ∀ name ∈ names, ProperName name) : below l.path names = Location.path ⟨l.names ++ names⟩ := by
  induction names generalizing l with
  | nil => rw [List.append_nil]; rfl
  | cons name rest ih =>
    obtain ⟨first, later⟩ := List.forall_mem_cons.1 all
    have deeper : (l.child name).Proper := List.forall_mem_append.2 ⟨proper, by simpa using first⟩
    have behind := ih deeper later
    rw [below, List.foldl_cons, ← below, Location.join_path proper first.slashless, behind]
    simp [Location.child]

theorem locate_of_stands (stands : fs.Stands above) (proper : Location.Proper ⟨above⟩)
    (free : Location.NulFree ⟨above⟩) : fs.locate (Location.path ⟨above⟩) = .ok ⟨above⟩ := by
  rw [locate_path proper free]
  exact ((Real.directory stands).looks linkLimit).follow_eq

theorem isDirectory_of_stands (stands : fs.Stands above) (proper : Location.Proper ⟨above⟩)
    (free : Location.NulFree ⟨above⟩) : fs.isDirectory (Location.path ⟨above⟩) = true := by
  simp [isDirectory, entry?, locate_of_stands stands proper free, stands.entryAt?]

theorem lists_of_meets (stands : fs.Stands above) (proper : Location.Proper ⟨above⟩)
    (free : Location.NulFree ⟨above⟩) {entry : Entry} (meets : fs.Meets above name (some entry)) :
    fs.Lists (Location.path ⟨above⟩) name := by
  have inside : name ∈ fs.namesIn ⟨above⟩ := mem_namesIn.2 ⟨entry, meets.found⟩
  simpa [Lists, list?, locate_of_stands stands proper free, stands.entryAt?] using inside

theorem exists_stands_of_isFile (unlinked : fs.Unlinked) {l : Location} (proper : l.Proper)
    (isFile : fs.isFile l.path = true) : l.NulFree ∧ ∃ above name content,
      l.names = above ++ [name] ∧ fs.Stands above ∧ fs.Meets above name (some (.file content)) := by
  unfold FileSystem.isFile entry? at isFile
  cases located : fs.locate l.path with
  | error fault =>
    rw [located] at isFile
    cases isFile
  | ok real =>
    obtain rfl := eq_of_locate unlinked proper located
    refine ⟨nulFree_of_locate located, ?_⟩
    rw [located] at isFile
    cases ((looks_of_locate proper located).arrives .top).real with
    | directory stands => simp [stands.entryAt?] at isFile
    | file stands meets => exact ⟨_, _, _, rfl, stands, meets⟩

theorem Stands.of_concat (stands : fs.Stands (above ++ [name])) :
    fs.Stands above ∧ fs.Meets above name (some .directory) := by
  generalize whole : above ++ [name] = names at stands
  cases stands with
  | top => simp at whole
  | deeper stands meets =>
    obtain ⟨rfl, same⟩ := List.append_inj' whole rfl
    cases same
    exact ⟨stands, meets⟩

theorem descends_of_stands {l : Location} {names : List String} (stands : fs.Stands (l.names ++ above ++ names))
    (proper : Location.Proper ⟨l.names ++ above ++ names⟩) (free : Location.NulFree ⟨l.names ++ above ++ names⟩) :
    fs.Descends l.path above names := by
  induction names generalizing above with
  | nil => exact .stay
  | cons name rest ih =>
    have split : l.names ++ above ++ name :: rest = l.names ++ (above ++ [name]) ++ rest := by simp
    have whole : l.names ++ (above ++ [name]) = l.names ++ above ++ [name] := (List.append_assoc _ _ _).symm
    rw [split] at stands proper free
    have here := stands.of_append
    have properHere : Location.Proper ⟨l.names ++ (above ++ [name])⟩ := (List.forall_mem_append.1 proper).1
    have freeHere : Location.NulFree ⟨l.names ++ (above ++ [name])⟩ := (List.forall_mem_append.1 free).1
    obtain ⟨properRoot, properBelow⟩ := List.forall_mem_append.1 properHere
    obtain ⟨outer, meets⟩ := Stands.of_concat (whole ▸ here)
    have properOuter : Location.Proper ⟨l.names ++ above⟩ := (List.forall_mem_append.1 (whole ▸ properHere)).1
    have freeOuter : Location.NulFree ⟨l.names ++ above⟩ := (List.forall_mem_append.1 (whole ▸ freeHere)).1
    refine .into ?_ ?_ (ih stands proper free)
    · rw [below_path properRoot (List.forall_mem_append.1 properBelow).1]
      exact lists_of_meets outer properOuter freeOuter meets
    · rw [below_path properRoot properBelow]
      exact isDirectory_of_stands here properHere freeHere

/-- Without links a file with the extension is found if it is not too deep. -/
theorem mem_discover_of_isFile (unlinked : fs.Unlinked) {l : Location} {directories : List String} {file : String}
    (proper : Location.Proper ⟨l.names ++ directories ++ [file]⟩)
    (isFile : fs.isFile (Location.path ⟨l.names ++ directories ++ [file]⟩) = true)
    (extended : (Location.cutExtension file).2 = some extension) {depth : Nat} (shallow : directories.length ≤ depth) :
    directories ++ [file] ∈ fs.discover l.path extension depth := by
  obtain ⟨free, above, name, content, ends, stands, meets⟩ := exists_stands_of_isFile unlinked proper isFile
  obtain ⟨rfl, same⟩ := List.append_inj' ends rfl
  obtain rfl : file = name := List.singleton_inj.1 same
  have properAbove : Location.Proper ⟨l.names ++ directories⟩ := (List.forall_mem_append.1 proper).1
  have freeAbove : Location.NulFree ⟨l.names ++ directories⟩ := (List.forall_mem_append.1 free).1
  obtain ⟨properRoot, properBelow⟩ := List.forall_mem_append.1 properAbove
  refine mem_discover.2 ⟨directories, file, rfl, shallow, ?_, ?_, extended, ?_⟩
  · rw [← List.append_nil l.names] at stands properAbove freeAbove
    exact descends_of_stands stands properAbove freeAbove
  · rw [below_path properRoot properBelow]
    exact lists_of_meets stands properAbove freeAbove meets
  · rw [List.append_assoc] at proper isFile
    rw [below_path properRoot (List.forall_mem_append.1 proper).2]
    exact isFile

end Located

end FileSystem

end WorkflowEngine
