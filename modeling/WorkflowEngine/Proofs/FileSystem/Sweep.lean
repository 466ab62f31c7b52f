import WorkflowEngine.Proofs.FileSystem.Listing

/-! Sweeps through directories.

A sweep keeps a queue of directories with their depths. It reads the first one, whose names come in any order, puts
the directories in it at the end of the queue unless they are too deep, and notes the documents in it. It does not
remember where it has been, so links that lead back are followed again under longer paths, until these are too deep.
Every sweep from one root reads the same directories, each as often, and then its queue is empty; what it has noted
are the paths of what is discovered.
-/

set_option autoImplicit false

namespace WorkflowEngine

def Path.extension? (p : Path) : Option String := p.fileName?.bind fun name => (Location.cutExtension name).2

namespace FileSystem

def directoriesAmong (fs : FileSystem) (directory : Path) (names : List String) : List Path :=
  (names.map fun name => directory.join ⟨name⟩).filter fs.isDirectory

def documentsAmong (fs : FileSystem) (extension : String) (directory : Path) (names : List String) : List Path :=
  (names.map fun name => directory.join ⟨name⟩).filter fun p =>
    !fs.isDirectory p && p.extension? = some extension && fs.isFile p

/-- The directories that are still to be read, each with its depth, and the documents that have been noted. -/
structure Sweep where
  queue : List (Path × Nat)
  found : List Path

namespace Sweep

def start (root : Path) : Sweep := ⟨[(root, 0)], []⟩

inductive Step (fs : FileSystem) (extension : String) (limit : Nat) : Sweep → Sweep → Prop
  | pass {current : Path} {depth : Nat} {queue : List (Path × Nat)} {found : List Path} :
      fs.list? current = none → Step fs extension limit ⟨(current, depth) :: queue, found⟩ ⟨queue, found⟩
  | read {current : Path} {depth : Nat} {queue : List (Path × Nat)} {found : List Path} {listed names : List String} :
      fs.list? current = some listed → names.Perm listed →
      Step fs extension limit ⟨(current, depth) :: queue, found⟩
        ⟨queue ++ (if depth < limit then (fs.directoriesAmong current names).map fun p => (p, depth + 1) else []),
          found ++ fs.documentsAmong extension current names⟩

inductive Steps (fs : FileSystem) (extension : String) (limit : Nat) : Nat → Sweep → Sweep → Prop
  | done {sweep : Sweep} : Steps fs extension limit 0 sweep sweep
  | next {steps : Nat} {first second last : Sweep} : Step fs extension limit first second →
      Steps fs extension limit steps second last → Steps fs extension limit (steps + 1) first last

end Sweep

/-- The directories that are read from one on, down to a depth. -/
def visits (fs : FileSystem) : Nat → Path → List Path
  | 0, p => [p]
  | depth + 1, p => p :: (fs.directoriesAmong p ((fs.list? p).getD [])).flatMap (fs.visits depth)

def documentsIn (fs : FileSystem) (extension : String) (p : Path) : List Path :=
  fs.documentsAmong extension p ((fs.list? p).getD [])

def discoveredPaths (fs : FileSystem) (root : Path) (extension : String) (depth : Nat) : List Path :=
  (fs.discover root extension depth).map (below root)

variable {fs : FileSystem} {root : Path} {extension : String} {limit : Nat}

section Among

variable {names listed : List String}

theorem directoriesAmong_perm (same : names.Perm listed) (p : Path) :
    (fs.directoriesAmong p names).Perm (fs.directoriesAmong p listed) :=
  (same.map _).filter _

theorem documentsAmong_perm (same : names.Perm listed) (p : Path) :
    (fs.documentsAmong extension p names).Perm (fs.documentsAmong extension p listed) :=
  (same.map _).filter _

theorem extension?_join {name : String} (proper : ProperName name) (p : Path) :
    (p.join ⟨name⟩).extension? = (Location.cutExtension name).2 := by
  rw [Path.extension?, Path.fileName?_join proper]
  rfl

theorem isDirectory_of_isFile {p : Path} (file : fs.isFile p = true) : fs.isDirectory p = false := by
  unfold isFile at file
  unfold isDirectory
  split at file <;> simp_all

end Among

namespace Sweep

variable {first last : Sweep} {steps : Nat}

/-- The directories that a sweep will still read. -/
def outstanding (fs : FileSystem) (limit : Nat) (sweep : Sweep) : List Path :=
  sweep.queue.flatMap fun item => fs.visits (limit - item.2) item.1

theorem outstanding_eq_nil_iff {sweep : Sweep} : sweep.outstanding fs limit = [] ↔ sweep.queue = [] := by
  rw [outstanding, List.flatMap_eq_nil_iff]
  constructor
  · intro nothing
    refine List.eq_nil_iff_forall_not_mem.2 fun item member => ?_
    have none := nothing item member
    cases depth : limit - item.2 <;> simp [depth, visits] at none
  · intro empty
    simp [empty]

theorem Step.reads (step : Step fs extension limit first last) :
    ∃ p, (first.outstanding fs limit).Perm (p :: last.outstanding fs limit) ∧
      last.found.Perm (first.found ++ fs.documentsIn extension p) := by
  cases step with
  | @pass current depth queue found unread =>
    refine ⟨current, ?_, ?_⟩
    · cases remaining : limit - depth <;>
        simp [outstanding, remaining, visits, directoriesAmong, unread]
    · simp [documentsIn, documentsAmong, unread]
  | @read current depth queue found listed names read same =>
    refine ⟨current, ?_, ?_⟩
    · simp only [outstanding, List.flatMap_cons, List.flatMap_append]
      split
      · rename_i shallow
        obtain ⟨remaining, deeper⟩ : ∃ remaining, limit - depth = remaining + 1 := ⟨limit - depth - 1, by omega⟩
        have next : limit - (depth + 1) = remaining := by omega
        have below : ((fs.directoriesAmong current listed).flatMap (fs.visits remaining)).Perm
            (((fs.directoriesAmong current names).map fun p => (p, depth + 1)).flatMap
              fun item => fs.visits (limit - item.2) item.1) := by
          simp only [List.flatMap_map, next]
          exact (directoriesAmong_perm same.symm current).flatMap_right _
        -- The directories in it wait at the end of the queue, so the order of what is outstanding changes.
        rw [deeper, visits, read, Option.getD_some, List.cons_append]
        exact ((below.append_right _).trans List.perm_append_comm).cons current
      · rename_i deep
        have last_level : limit - depth = 0 := by omega
        simp [last_level, visits]
    · rw [documentsIn, read, Option.getD_some]
      exact (documentsAmong_perm same current).append_left found

/-- What has been read and what is outstanding are together what was outstanding at first. -/
theorem Steps.reads (run : Steps fs extension limit steps first last) :
    ∃ read, read.length = steps ∧ (first.outstanding fs limit).Perm (read ++ last.outstanding fs limit) ∧
      last.found.Perm (first.found ++ read.flatMap (fs.documentsIn extension)) := by
  induction run with
  | done => exact ⟨[], rfl, .refl _, by simp⟩
  | @next _ first second last step _ ih =>
    obtain ⟨p, outstanding, found⟩ := step.reads
    obtain ⟨read, length, later, more⟩ := ih
    refine ⟨p :: read, by simp [length], outstanding.trans (later.cons p), ?_⟩
    rw [List.flatMap_cons, ← List.append_assoc]
    exact more.trans (found.append_right _)

theorem exists_step {sweep : Sweep} (waiting : sweep.queue ≠ []) : ∃ next, Step fs extension limit sweep next := by
  obtain ⟨queue, found⟩ := sweep
  cases queue with
  | nil => exact absurd rfl waiting
  | cons item queue =>
    obtain ⟨current, depth⟩ := item
    cases read : fs.list? current with
    | none => exact ⟨_, .pass read⟩
    | some listed => exact ⟨_, .read read (.refl listed)⟩

end Sweep

section Discovered

variable (root extension)

theorem map_below_ownDocuments (whole : fs.Proper) (above : List String) :
    ((((fs.list? (below root above)).getD []).filter fun name =>
      (Location.cutExtension name).2 = some extension && fs.isFile (below root (above ++ [name]))).map
        fun name => above ++ [name]).map (below root) = fs.documentsIn extension (below root above) := by
  have same : below root ∘ (fun name => above ++ [name]) = fun name => (below root above).join ⟨name⟩ :=
    funext fun name => below_append root above name
  rw [documentsIn, documentsAmong, List.filter_map, List.map_map, same]
  refine congrArg _ (List.filter_congr fun name listed => ?_)
  rw [Function.comp_apply, extension?_join (proper_of_lists whole listed), ← below_append]
  cases file : fs.isFile (below root (above ++ [name])) with
  | false => simp
  | true => simp [isDirectory_of_isFile file]

theorem map_below_documentsBelow (whole : fs.Proper) (depth : Nat) (above : List String) :
    (fs.documentsBelow root extension depth above).map (below root) =
      (fs.visits depth (below root above)).flatMap (fs.documentsIn extension) := by
  induction depth generalizing above with
  | zero => simp [documentsBelow, visits, map_below_ownDocuments root extension whole above]
  | succ depth ih =>
    have deeper : (((((fs.list? (below root above)).getD []).filter fun name =>
        fs.isDirectory (below root (above ++ [name]))).flatMap fun name =>
          fs.documentsBelow root extension depth (above ++ [name])).map (below root)) =
        (fs.directoriesAmong (below root above) ((fs.list? (below root above)).getD [])).flatMap fun p =>
          (fs.visits depth p).flatMap (fs.documentsIn extension) := by
      rw [directoriesAmong, List.filter_map, List.flatMap_map, List.map_flatMap]
      simp only [ih, below_append, Function.comp_def]
    rw [documentsBelow, List.map_append, map_below_ownDocuments root extension whole above, deeper, visits,
      List.flatMap_cons, List.flatMap_assoc]

theorem discoveredPaths_perm (whole : fs.Proper) (limit : Nat) : (fs.discoveredPaths root extension limit).Perm
    ((fs.visits limit root).flatMap (fs.documentsIn extension)) := by
  have all := map_below_documentsBelow root extension whole limit []
  exact ((perm_discover limit).map (below root)).trans (.of_eq all)

theorem pairwise_discoveredPaths (whole : fs.Proper) (limit : Nat) :
    (fs.discoveredPaths root extension limit).Pairwise Path.Before := by
  refine List.pairwise_map.2 ((fs.pairwise_discover root extension limit).imp_of_mem fun first second before => ?_)
  exact (before_below_iff root (proper_of_discover whole first) (proper_of_discover whole second)).2 before

theorem mem_discoveredPaths_iff (whole : fs.Proper) {p : Path} :
    p ∈ fs.discoveredPaths root extension limit ↔ ∃ directories file,
      p = below root (directories ++ [file]) ∧ directories.length ≤ limit ∧
      (∀ name ∈ directories ++ [file], ProperName name) ∧
      (∀ above, above <+: directories → (fs.list? (below root above)).isSome = true) ∧
      fs.isFile p = true ∧ p.extension? = some extension := by
  have extended : ∀ {directories : List String} {file : String}, ProperName file →
      (below root (directories ++ [file])).extension? = (Location.cutExtension file).2 := by
    intro directories file proper
    rw [below_append, extension?_join proper]
  rw [discoveredPaths, List.mem_map]
  constructor
  · rintro ⟨names, found, rfl⟩
    obtain ⟨directories, file, rfl, shallow, proper, readable, isFile, ending⟩ := (mem_discover_iff whole).1 found
    exact ⟨directories, file, rfl, shallow, proper, readable, isFile,
      (extended (proper file (by simp))).trans ending⟩
  · rintro ⟨directories, file, rfl, shallow, proper, readable, isFile, ending⟩
    rw [extended (proper file (by simp))] at ending
    exact ⟨_, (mem_discover_iff whole).2 ⟨directories, file, rfl, shallow, proper, readable, isFile, ending⟩, rfl⟩

end Discovered

/-- Discovered are, in the order of paths and none twice, exactly the files with the extension that can be reached
down to the depth. A sweep ends with them in whatever order names come in. -/
theorem discoveredPaths_exact (fs : FileSystem) (whole : fs.Proper) (root : Path) (extension : String) (limit : Nat) :
    (∃ total, ∀ steps sweep, Sweep.Steps fs extension limit steps (.start root) sweep →
      steps ≤ total ∧ (sweep.queue = [] ↔ steps = total) ∧
      (sweep.queue ≠ [] → ∃ next, Sweep.Step fs extension limit sweep next) ∧
      (sweep.queue = [] → sweep.found.Perm (fs.discoveredPaths root extension limit))) ∧
    (fs.discoveredPaths root extension limit).Pairwise Path.Before ∧
    (fs.discoveredPaths root extension limit).Nodup ∧
    ∀ p, p ∈ fs.discoveredPaths root extension limit ↔ ∃ directories file,
      p = below root (directories ++ [file]) ∧ directories.length ≤ limit ∧
      (∀ name ∈ directories ++ [file], ProperName name) ∧
      (∀ above, above <+: directories → (fs.list? (below root above)).isSome = true) ∧
      fs.isFile p = true ∧ p.extension? = some extension := by
  have sorted := pairwise_discoveredPaths root extension whole limit
  refine ⟨⟨(fs.visits limit root).length, fun steps sweep run => ?_⟩, sorted, ?_, fun p => ?_⟩
  · obtain ⟨read, rfl, outstanding, found⟩ := run.reads
    have all : Sweep.outstanding fs limit (.start root) = fs.visits limit root := by
      simp [Sweep.outstanding, Sweep.start]
    rw [all] at outstanding
    -- What has been read and what is outstanding are together all the directories.
    have lengths := outstanding.length_eq
    rw [List.length_append] at lengths
    have idle : sweep.outstanding fs limit = [] ↔ sweep.queue = [] := Sweep.outstanding_eq_nil_iff
    have ended : sweep.queue = [] ↔ read.length = (fs.visits limit root).length := by
      rw [← idle, ← List.length_eq_zero_iff]
      omega
    refine ⟨by omega, ended, Sweep.exists_step, fun empty => ?_⟩
    rw [idle.2 empty, List.append_nil] at outstanding
    rw [Sweep.start, List.nil_append] at found
    exact found.trans ((outstanding.symm.flatMap_right _).trans (discoveredPaths_perm root extension whole limit).symm)
  · exact sorted.imp Path.Before.ne
  · exact mem_discoveredPaths_iff root extension whole

end FileSystem

namespace Sample

def looped : FileSystem :=
  ((FileSystem.empty.put ⟨["w"]⟩ .directory).put ⟨["w", "o"]⟩ (.link ⟨"."⟩)).put ⟨["w", "x.y"]⟩
    (.file (.text "steps: []\n"))

end Sample

namespace FileSystem

/-- The document is noted once in the directory and once behind the link, and no deeper. -/
theorem discoveredPaths_exact_sample :
    Sample.looped.Proper ∧
    Sample.looped.discoveredPaths ⟨"/w"⟩ "y" 1 = [⟨"/w/o/x.y"⟩, ⟨"/w/x.y"⟩] ∧
    ([⟨"/w/o/x.y"⟩, ⟨"/w/x.y"⟩] : List Path).Pairwise Path.Before ∧
    ∀ steps sweep, Sweep.Steps Sample.looped "y" 1 steps (.start ⟨"/w"⟩) sweep → sweep.queue = [] →
      sweep.found.Perm [⟨"/w/o/x.y"⟩, ⟨"/w/x.y"⟩] := by
  have whole : Sample.looped.Proper := by
    have keys : Sample.looped.entries.keys = [⟨["w"]⟩, ⟨["w", "o"]⟩, ⟨["w", "x.y"]⟩] := by decide +kernel
    have w : ProperName "w" := ⟨by decide, by decide, by decide⟩
    have o : ProperName "o" := ⟨by decide, by decide, by decide⟩
    have x : ProperName "x.y" := ⟨by decide, by decide, by decide⟩
    simp [Proper, keys, Location.Proper, w, o, x]
  have paths : Sample.looped.discoveredPaths ⟨"/w"⟩ "y" 1 = [⟨"/w/o/x.y"⟩, ⟨"/w/x.y"⟩] := by decide +kernel
  obtain ⟨⟨_, swept⟩, sorted, _⟩ := discoveredPaths_exact Sample.looped whole ⟨"/w"⟩ "y" 1
  rw [paths] at sorted swept
  exact ⟨whole, paths, sorted, fun steps sweep run => (swept steps sweep run).2.2.2⟩

end FileSystem

end WorkflowEngine
