import WorkflowEngine.Proofs.Path.Components

/-! How long names are together.

With a mark at each of them, the parts that a text is cut into are no longer than the text with one mark, and names
are just as long as the text that they are put together to with slashes between them.
-/

set_option autoImplicit false

namespace WorkflowEngine

namespace Text

def extent : List String → Nat
  | [] => 0
  | name :: rest => name.length + 1 + extent rest

variable {cut : Char → Bool} {cs : List Char} {names : List String}

theorem extent_append (first rest : List String) : extent (first ++ rest) = extent first + extent rest := by
  induction first with
  | nil => simp [extent]
  | cons name first ih =>
    rw [List.cons_append, extent, extent, ih]
    omega

theorem extent_singleton (name : String) : extent [name] = name.length + 1 := rfl

theorem extent_le_of_sublist {outer : List String} (inside : names.Sublist outer) : extent names ≤ extent outer := by
  induction inside with
  | slnil => exact Nat.le_refl _
  | cons name _ ih =>
    rw [extent]
    omega
  | cons_cons name _ ih =>
    rw [extent, extent]
    omega

/-- Every character but the marks is in one piece, and there is one piece more than there are marks. -/
theorem extent_pieces (cut : Char → Bool) (cs : List Char) :
    extent ((pieces cut cs).map String.ofList) = cs.length + 1 := by
  induction cs with
  | nil => rfl
  | cons c rest ih =>
    rw [pieces]
    split
    · rw [List.map_cons, extent, ih]
      simp only [String.length_ofList, List.length_nil, List.length_cons]
      omega
    · obtain ⟨first, others, whole⟩ := List.exists_cons_of_ne_nil (pieces_ne_nil cut rest)
      rw [whole] at ih ⊢
      simp only [extendFirst, List.map_cons, extent, String.length_ofList, List.length_cons] at ih ⊢
      omega

theorem extent_parts_le (cut : Char → Bool) (cs : List Char) : extent (parts cut cs) ≤ cs.length + 1 := by
  rw [← extent_pieces cut cs, parts, ← pieces_eq_splitOnP]
  exact extent_le_of_sublist (List.filter_sublist.map _)

theorem mem_of_mem_parts {part : String} {c : Char} (member : part ∈ parts cut cs) (inside : c ∈ part.toList) :
    c ∈ cs := by
  obtain ⟨piece, among, rfl⟩ := List.mem_map.1 member
  rw [← pieces_eq_splitOnP] at among
  exact mem_of_mem_pieces (List.mem_filter.1 among).1 (by simpa using inside)

theorem length_intercalate (some_name : names ≠ []) : (String.intercalate "/" names).length + 1 = extent names := by
  obtain ⟨first, rest, rfl⟩ := List.exists_cons_of_ne_nil some_name
  induction rest generalizing first with
  | nil => simp [extent]
  | cons second rest ih =>
    have behind := ih second (by simp)
    have slash : "/".length = 1 := rfl
    rw [String.intercalate_cons_cons, String.length_append, String.length_append, slash, extent]
    omega

end Text

end WorkflowEngine
