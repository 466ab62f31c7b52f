import WorkflowEngine.Proofs.FileSystem.Discovery
import WorkflowEngine.Proofs.Path.Order
import Mathlib.Data.List.Nodup

/-! What directories list.

A directory lists every name that leads on from it, once. So a file below a directory is found exactly if every
directory on the way can be listed and is not too deep, links followed, and nothing is found twice.
-/

set_option autoImplicit false

namespace WorkflowEngine

namespace FileSystem

variable {fs : FileSystem} {root p : Path} {extension name : String}

section Lookups

theorem looks_of_locate_eq {l : Location} (located : fs.locate p = .ok l) :
    fs.Looks linkLimit (fs.startOf p) p.pieces (.ok l) := by
  unfold locate at located
  split at located
  · cases located
  split at located
  · cases located
  · exact located ▸ looks_follow _ _ _

theorem list?_eq_some_iff {names : List String} : fs.list? p = some names ↔
    ∃ l, fs.locate p = .ok l ∧ fs.entryAt? l = some .directory ∧ names = fs.namesIn l := by
  unfold list?
  cases fs.locate p with
  | error fault => simp
  | ok l =>
    dsimp only
    split
    · rename_i directory
      simp [directory, eq_comm]
    · rename_i other
      simp only [reduceCtorEq, Except.ok.injEq, false_iff, not_exists, not_and]
      rintro _ rfl directory
      exact absurd directory other

theorem isSome_of_lists (listed : fs.Lists p name) : (fs.list? p).isSome = true := by
  unfold Lists at listed
  cases names : fs.list? p with
  | none => simp [names] at listed
  | some names => rfl

theorem isSome_list?_iff : (fs.list? p).isSome = true ↔ fs.isDirectory p = true := by
  rw [Option.isSome_iff_exists]
  simp only [list?_eq_some_iff]
  unfold isDirectory entry?
  cases fs.locate p with
  | error fault => simp
  | ok l =>
    dsimp only
    split <;> simp_all

theorem exists_locate_of_isDirectory (directory : fs.isDirectory p = true) : ∃ l, fs.locate p = .ok l := by
  obtain ⟨_, listed⟩ := Option.isSome_iff_exists.1 (isSome_list?_iff.2 directory)
  obtain ⟨l, located, _⟩ := list?_eq_some_iff.1 listed
  exact ⟨l, located⟩

theorem exists_locate_of_isFile (file : fs.isFile p = true) : ∃ l, fs.locate p = .ok l := by
  unfold isFile entry? at file
  cases located : fs.locate p with
  | error fault => simp [located] at file
  | ok l => exact ⟨l, rfl⟩

theorem lists_of_locate_join (proper : ProperName name) (readable : (fs.list? p).isSome = true) {real : Location}
    (found : fs.locate (p.join ⟨name⟩) = .ok real) : fs.Lists p name := by
  obtain ⟨names, listed⟩ := Option.isSome_iff_exists.1 readable
  obtain ⟨l, located, directory, rfl⟩ := list?_eq_some_iff.1 listed
  have here := looks_of_locate_eq located
  have beyond := looks_of_locate_eq found
  have start : fs.startOf (p.join ⟨name⟩) = fs.startOf p := by
    simp [startOf, Path.isAbsolute_join_eq p proper.slashless]
  obtain ⟨front, before, behind⟩ := Path.exists_pieces_join p proper.slashless
  rw [start, behind] at beyond
  -- A slash at the end of the path leads nowhere else.
  have bare : fs.Looks linkLimit (fs.startOf p) front (.ok l) := by
    rcases before with before | before
    · exact before ▸ here
    rw [before] at here
    have outcome := fs.looks_follow linkLimit (fs.startOf p) front
    cases followed : fs.follow linkLimit (fs.startOf p) front with
    | error fault =>
      rw [followed] at outcome
      cases (outcome.append_error [name]).unique beyond
    | ok m =>
      rw [followed] at outcome
      have idle : Path.isIdle "" = true := rfl
      rcases outcome.append_idle idle with stays | blocked
      · cases stays.unique here
        exact outcome
      · cases blocked.unique here
  -- The look-up of the longer path comes by the directory, so the name leads on from there.
  obtain ⟨left, goes⟩ := bare.goes_on directory
  have last := fs.looks_follow left l.names [name]
  rw [(goes _ _ last).unique beyond] at last
  have inside : ∃ entry, fs.Meets l.names name (some entry) := by
    cases last with
    | idle idle => simp [proper.busy] at idle
    | up => exact absurd rfl proper.level
    | directory meets => exact ⟨_, meets⟩
    | file meets => exact ⟨_, meets⟩
    | link meets => exact ⟨_, meets⟩
  obtain ⟨entry, meets⟩ := inside
  have member : name ∈ fs.namesIn l := mem_namesIn.2 ⟨entry, meets.found⟩
  simpa [Lists, listed] using member

end Lookups

section Chains

theorem descends_iff {above rest : List String} (proper : ∀ name ∈ rest, ProperName name)
    (readable : (fs.list? (below root above)).isSome = true) : fs.Descends root above rest ↔
      ∀ front, front <+: rest → (fs.list? (below root (above ++ front))).isSome = true := by
  constructor
  · intro descends
    induction descends with
    | stay =>
      intro front start
      obtain rfl := List.prefix_nil.1 start
      simpa using readable
    | @into above rest name _ directory _ ih =>
      intro front start
      rcases List.prefix_cons_iff.1 start with rfl | ⟨behind, rfl, inside⟩
      · simpa using readable
      · have deeper := ih (List.forall_mem_cons.1 proper).2 (isSome_list?_iff.2 directory) behind inside
        simpa using deeper
  · intro listed
    induction rest generalizing above with
    | nil => exact .stay
    | cons name rest ih =>
      obtain ⟨first, later⟩ := List.forall_mem_cons.1 proper
      -- The next directory can be listed, so this one lists it.
      have next := listed [name] (by simp)
      have directory := isSome_list?_iff.1 next
      obtain ⟨l, located⟩ := exists_locate_of_isDirectory directory
      rw [below_append] at located
      refine .into (lists_of_locate_join first readable located) directory (ih later next ?_)
      intro front start
      simpa using listed (name :: front) ((List.prefix_cons_inj name).2 start)

/-- Found is what has the extension and can be reached through directories that can be listed, down to the depth. -/
theorem mem_discover_iff (whole : fs.Proper) {depth : Nat} {names : List String} :
    names ∈ fs.discover root extension depth ↔ ∃ directories file, names = directories ++ [file] ∧
      directories.length ≤ depth ∧ (∀ name ∈ names, ProperName name) ∧
      (∀ above, above <+: directories → (fs.list? (below root above)).isSome = true) ∧
      fs.isFile (below root names) = true ∧ (Location.cutExtension file).2 = some extension := by
  rw [mem_discover]
  refine exists_congr fun directories => exists_congr fun file => and_congr_right fun same => and_congr_right fun _ => ?_
  subst same
  constructor
  · rintro ⟨descends, keeps⟩
    have proper := proper_of_descends whole descends
    -- Either way something in the root was listed.
    have first : (fs.list? (below root [])).isSome = true := by
      cases descends with
      | stay => exact isSome_of_lists keeps.listed
      | into listed => exact isSome_of_lists listed
    refine ⟨List.forall_mem_append.2 ⟨proper, by simpa using proper_of_lists whole keeps.listed⟩, ?_, keeps.isFile,
      keeps.extended⟩
    simpa using (descends_iff proper first).1 descends
  · rintro ⟨proper, readable, isFile, extended⟩
    obtain ⟨properAbove, properFile⟩ := List.forall_mem_append.1 proper
    refine ⟨(descends_iff properAbove (readable [] List.nil_prefix)).2 (by simpa using readable), ?_, extended, isFile⟩
    obtain ⟨l, located⟩ := exists_locate_of_isFile isFile
    rw [below_append] at located
    exact lists_of_locate_join (properFile file (by simp)) (readable _ List.prefix_rfl) located

end Chains

section Repetitions

theorem nodup_namesIn (fs : FileSystem) (directory : Location) : (fs.namesIn directory).Nodup := by
  refine fs.entries.nodup_keys.filterMap fun l m name first second => ?_
  have ends : ∀ {other : Location}, name ∈ (if other.names.dropLast = directory.names then other.names.getLast?
      else none) → other.names = directory.names ++ [name] := by
    intro other inside
    split at inside
    · rename_i within
      obtain ⟨front, ends⟩ := List.getLast?_eq_some_iff.1 inside
      rw [ends, List.dropLast_concat] at within
      rw [ends, within]
    · cases inside
  exact Location.ext_names ((ends first).trans (ends second).symm)

theorem nodup_list? (fs : FileSystem) (p : Path) : ((fs.list? p).getD []).Nodup := by
  cases listed : fs.list? p with
  | none => simp
  | some names =>
    obtain ⟨l, _, _, rfl⟩ := list?_eq_some_iff.1 listed
    exact fs.nodup_namesIn l

/-- No document is come to twice: the directory tells the documents in it from those below, and the directories
below tell theirs from one another. -/
theorem nodup_documentsBelow (depth : Nat) (above : List String) :
    (fs.documentsBelow root extension depth above).Nodup := by
  induction depth generalizing above with
  | zero =>
    rw [documentsBelow, List.append_nil]
    exact ((fs.nodup_list? _).filter _).map fun name other same => by simpa using same
  | succ depth ih =>
    rw [documentsBelow]
    refine List.Nodup.append ?_ (List.nodup_flatMap.2 ⟨fun name _ => ih _, ?_⟩) ?_
    · exact ((fs.nodup_list? _).filter _).map fun name other same => by simpa using same
    -- Below two directories names differ at the first place behind what they have in common.
    · refine ((fs.nodup_list? _).filter _).pairwise_of_forall_ne fun name _ other _ apart => ?_
      refine List.disjoint_left.2 fun names first second => apart ?_
      obtain ⟨_, _, rfl, _⟩ := mem_documentsBelow.1 first
      obtain ⟨_, _, same, _⟩ := mem_documentsBelow.1 second
      simp only [List.append_assoc, List.append_cancel_left_eq, List.cons_append, List.cons.injEq] at same
      exact same.1
    · refine List.disjoint_left.2 fun names first second => ?_
      obtain ⟨file, rfl, _⟩ := mem_ownDocuments.1 first
      obtain ⟨name, _, second⟩ := List.mem_flatMap.1 second
      obtain ⟨directories, _, same, _⟩ := mem_documentsBelow.1 second
      -- Names from below are longer.
      have lengths := congrArg List.length same
      simp only [List.length_append, List.length_singleton] at lengths
      omega

theorem pairwise_discover (fs : FileSystem) (root : Path) (extension : String) (depth : Nat) :
    (fs.discover root extension depth).Pairwise fun names others => KeyOrder.before names others = true :=
  Dictionary.pairwise_keys _

theorem perm_discover (depth : Nat) :
    (fs.discover root extension depth).Perm (fs.documentsBelow root extension depth []) :=
  (List.perm_ext_iff_of_nodup (Dictionary.nodup_keys _) (nodup_documentsBelow depth [])).2
    fun _ => mem_discover_iff_mem_documentsBelow

end Repetitions

end FileSystem

end WorkflowEngine
