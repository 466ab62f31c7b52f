import WorkflowEngine.Proofs.Path.Components
import Mathlib.Data.List.DropRight

/-! How locations are written.

The path of a proper location has the location's last name as its file name and the path of the location's
directory as its parent, and put together again they are the path. Of any other path, what stands before its file
name and the file name are components, in this order, but dots may be left out in between.
-/

set_option autoImplicit false

namespace WorkflowEngine

theorem Text.intercalate_cons (mark : Char) (first : List Char) (rest : List (List Char)) :
    [mark].intercalate (first :: rest) = first ++ rest.flatMap (mark :: ·) := by
  induction rest generalizing first with
  | nil => simp [List.intercalate]
  | cons second rest ih =>
    have next := ih second
    simp only [List.intercalate, List.intersperse_cons_cons, List.flatten_cons] at next ⊢
    rw [next]
    simp

namespace Path

variable {p : Path}

section Pieces

theorem components_ofPieces {pieces : List String} (slashless : ∀ piece ∈ pieces, '/' ∉ piece.toList) :
    (ofPieces pieces).components = pieces.filter fun piece => piece ≠ "" := by
  unfold ofPieces
  split
  · decide
  · rename_i other
    rcases eq_or_ne pieces [] with rfl | some_piece
    · decide
    have whole : ∀ piece ∈ pieces.map String.toList, '/' ∉ piece := List.forall_mem_map.2 slashless
    have cut := List.splitOn_intercalate '/' whole (by simpa using some_piece)
    have spelled : (String.intercalate "/" pieces).toList = ['/'].intercalate (pieces.map String.toList) :=
      String.toList_intercalate
    rw [components_eq_filter_pieces, Path.pieces, Text.pieces_eq_splitOnP, spelled]
    have same : (['/'].intercalate (pieces.map String.toList)).splitOnP isSlash = pieces.map String.toList := cut
    rw [same]
    simp [Function.comp_def]

theorem dropIdleEnd_cons (first : String) (rest : List String) :
    dropIdleEnd (first :: rest) = first :: rest.rdropWhile isIdle := rfl

theorem dropIdleEnd_isPrefix (pieces : List String) : dropIdleEnd pieces <+: pieces := by
  cases pieces with
  | nil => exact List.prefix_rfl
  | cons first rest => exact List.prefix_cons_inj first |>.2 (List.rdropWhile_prefix _ _)

theorem dropIdleEnd_concat {above : List String} {name : String} (busy : isIdle name = false) :
    dropIdleEnd (above ++ [name]) = above ++ [name] := by
  cases above with
  | nil => rfl
  | cons first rest =>
    have stays : ¬ isIdle name = true := by simp [busy]
    rw [List.cons_append, dropIdleEnd_cons, List.rdropWhile_concat_neg _ _ _ stays]

end Pieces

/-- The file name is the last piece once idle ones are dropped behind it. -/
theorem dropIdleEnd_of_fileName? {name : String} (found : p.fileName? = some name) :
    isIdle name = false ∧ ∃ above, dropIdleEnd p.pieces = above ++ [name] := by
  have last : (p.pieces.filter fun piece => !isIdle piece).getLast? = some name := by
    unfold fileName? at found
    split at found
    · cases found
    · exact found
  have busy : isIdle name = false := by
    have member := List.mem_of_getLast? last
    simpa using (List.mem_filter.1 member).2
  refine ⟨busy, ?_⟩
  cases pieces : p.pieces with
  | nil => simp [pieces] at last
  | cons first rest =>
    have behind : rest = rest.rdropWhile isIdle ++ rest.rtakeWhile isIdle :=
      List.rdropWhile_append_rtakeWhile.symm
    have idles : (rest.rtakeWhile isIdle).filter (fun piece => !isIdle piece) = [] := by
      refine List.filter_eq_nil_iff.2 fun piece member => ?_
      simpa using List.mem_rtakeWhile_imp member
    rw [pieces, behind, ← List.cons_append, List.filter_append, idles, List.append_nil] at last
    rw [dropIdleEnd_cons]
    rcases List.eq_nil_or_concat' (rest.rdropWhile isIdle) with nothing | ⟨front, end_, ends⟩
    · rw [nothing] at last ⊢
      have only : first = name := by
        by_cases idle : isIdle first = true
        · simp [idle] at last
        · simpa [idle] using last
      exact ⟨[], by rw [only]; rfl⟩
    · have stays : isIdle end_ = false := by
        have dropped := List.rdropWhile_last_not isIdle rest (by simp [ends])
        simpa [ends] using dropped
      rw [ends] at last ⊢
      have kept : [end_].filter (fun piece => !isIdle piece) = [end_] := by simp [stays]
      rw [← List.cons_append, List.filter_append, kept, List.getLast?_concat] at last
      obtain rfl := Option.some.inj last
      exact ⟨first :: front, rfl⟩

theorem slashless_of_fileName? {name : String} (found : p.fileName? = some name) : '/' ∉ name.toList := by
  obtain ⟨_, above, ends⟩ := dropIdleEnd_of_fileName? found
  refine slashless_of_mem_pieces ((dropIdleEnd_isPrefix p.pieces).subset ?_)
  simp [ends]

theorem ne_dots_of_fileName? {name : String} (found : p.fileName? = some name) : name ≠ ".." := by
  rintro rfl
  unfold fileName? at found
  split at found
  · cases found
  · rename_i other
    exact other found

theorem proper_of_fileName? {name : String} (found : p.fileName? = some name) : ProperName name :=
  ⟨slashless_of_fileName? found, (dropIdleEnd_of_fileName? found).1, ne_dots_of_fileName? found⟩

/-- The components of a path are those of its parent and the file name, with dots here and there. -/
theorem components_parent_sublist {name : String} (found : p.fileName? = some name) :
    (p.parent.components ++ [name]).Sublist p.components := by
  obtain ⟨busy, above, ends⟩ := dropIdleEnd_of_fileName? found
  have front : above ++ [name] <+: p.pieces := ends ▸ dropIdleEnd_isPrefix p.pieces
  have written : name ≠ "" := (proper_of_fileName? found).ordinary.1
  -- Empty pieces drop out of the components, wherever they stand.
  have inside : ((above.filter fun piece => piece ≠ "") ++ [name]).Sublist p.components := by
    rw [components_eq_filter_pieces]
    have kept := front.sublist.filter fun piece => piece ≠ ""
    simpa [List.filter_append, written] using kept
  have parent : p.parent.components.Sublist (above.filter fun piece => piece ≠ "") := by
    unfold Path.parent
    rw [ends, List.dropLast_concat]
    split
    · simp [components]
    · have above_front := dropIdleEnd_isPrefix above
      have slashless : ∀ piece ∈ dropIdleEnd above, '/' ∉ piece.toList := fun piece member =>
        slashless_of_mem_pieces (front.subset (List.mem_append_left _ (above_front.subset member)))
      rw [components_ofPieces slashless]
      exact above_front.sublist.filter _
  exact (parent.append_right [name]).trans inside

end Path

namespace Location

variable {l : Location}

theorem toList_text (l : Location) (below : l.names ≠ []) :
    l.text.toList = l.names.flatMap fun name => '/' :: name.toList := by
  unfold text
  split
  · contradiction
  · simp [String.toList_join, List.flatMap_map]

theorem fileName?_path (proper : l.Proper) : l.path.fileName? = l.names.getLast? := by
  by_cases below : l.names = []
  · obtain rfl : l = .top := ext_names below
    decide
  have busy : (l.path.pieces.filter fun piece => !Path.isIdle piece) = l.names := by
    rw [pieces_path proper below, List.filter_cons_of_neg (by decide), List.filter_eq_self]
    intro name member
    simp [(proper name member).busy]
  unfold Path.fileName?
  rw [busy]
  split
  · rename_i climbs
    exact absurd rfl (proper _ (List.mem_of_getLast? climbs)).level
  · rfl

theorem parent_path {above : List String} {name : String} (proper : l.Proper)
    (ends : l.names = above ++ [name]) : l.path.parent = path ⟨above⟩ := by
  have busy : ∀ other ∈ l.names, Path.isIdle other = false := fun other member => (proper other member).busy
  have pieces : l.path.pieces = ("" :: above) ++ [name] := by
    rw [pieces_path proper (by simp [ends]), ends]
    rfl
  have kept : Path.dropIdleEnd ("" :: above) = "" :: above := by
    rcases List.eq_nil_or_concat' above with rfl | ⟨front, last, rfl⟩
    · rfl
    · rw [← List.cons_append]
      exact Path.dropIdleEnd_concat (busy last (by simp [ends]))
  unfold Path.parent
  rw [pieces, Path.dropIdleEnd_concat (busy name (by simp [ends])), List.dropLast_concat]
  dsimp only
  rw [kept]
  unfold Path.ofPieces path text
  cases above with
  | nil => rfl
  | cons first rest =>
    have spelled : String.intercalate "/" ("" :: first :: rest) =
        String.join ((first :: rest).map fun name => "/" ++ name) := by
      refine String.toList_inj.1 ?_
      have slash : "/".toList = ['/'] := rfl
      rw [String.toList_intercalate, slash, List.map_cons, Text.intercalate_cons, String.toList_join,
        List.flatMap_map, List.flatMap_map]
      simp
    exact congrArg Path.mk spelled

theorem endsWithSlash_path (proper : l.Proper) (below : l.names ≠ []) : l.path.endsWithSlash = false := by
  obtain ⟨above, last, ends⟩ := (List.eq_nil_or_concat' l.names).resolve_left below
  have properLast := proper last (by simp [ends])
  have written : last.toList ≠ [] := by simpa using properLast.ordinary.1
  obtain ⟨front, c, letters⟩ := (List.eq_nil_or_concat' last.toList).resolve_left written
  have other : c ≠ '/' := by
    rintro rfl
    exact properLast.slashless (by simp [letters])
  have spelled : l.text.toList = above.flatMap (fun name => '/' :: name.toList) ++ ('/' :: front) ++ [c] := by
    simp [toList_text l below, ends, letters]
  rw [Path.endsWithSlash, path, spelled, List.getLast?_concat]
  simpa [Path.isSlash] using other

theorem join_path (proper : l.Proper) {name : String} (slashless : '/' ∉ name.toList) :
    l.path.join ⟨name⟩ = (l.child name).path := by
  have written : l.path.isEmpty = false := by
    obtain ⟨rest, same⟩ := Path.isAbsolute_iff.1 l.isAbsolute_path
    simp [Path.isEmpty, same]
  have spelled : (l.child name).text.toList = (l.names ++ [name]).flatMap fun name => '/' :: name.toList :=
    toList_text _ (by simp [child])
  unfold Path.join
  rw [Path.isAbsolute_of_slashless slashless, written]
  by_cases below : l.names = []
  · obtain rfl : l = .top := ext_names below
    have slash : top.path.endsWithSlash = true := by decide
    rw [slash]
    refine congrArg Path.mk (String.toList_inj.1 ?_)
    rw [spelled]
    simp [path, text, below]
  · have slash : l.path.endsWithSlash = false := endsWithSlash_path proper below
    rw [slash]
    refine congrArg Path.mk (String.toList_inj.1 ?_)
    rw [spelled]
    simp [path, toList_text l below]

end Location

end WorkflowEngine
