import WorkflowEngine.Text.Blank

/-! Cutting texts.

A text is cut at every character of a class, so `n` cuts leave `n + 1` pieces, some of which may be
empty. Beside it stand the tests for a beginning and an ending that return what is left.
-/

set_option autoImplicit false

namespace WorkflowEngine.Text

variable {α : Type}

def extendFirst (c : α) : List (List α) → List (List α)
  | [] => [[c]]
  | piece :: rest => (c :: piece) :: rest

/-- The pieces between the characters, or bytes, where `cut` holds. There is always one. -/
def pieces (cut : α → Bool) : List α → List (List α)
  | [] => [[]]
  | c :: rest => if cut c then [] :: pieces cut rest else extendFirst c (pieces cut rest)

theorem pieces_ne_nil (cut : α → Bool) (cs : List α) : pieces cut cs ≠ [] := by
  cases cs with
  | nil => simp [pieces]
  | cons c rest =>
    rw [pieces]
    split
    · simp
    · cases pieces cut rest <;> simp [extendFirst]

theorem mem_extendFirst {c d : α} {parts : List (List α)} {piece : List α}
    (member : piece ∈ extendFirst c parts) (inside : d ∈ piece) :
    d = c ∨ ∃ other ∈ parts, d ∈ other := by
  cases parts with
  | nil => simp_all [extendFirst]
  | cons first rest =>
    simp only [extendFirst, List.mem_cons] at member
    rcases member with rfl | member
    · rcases List.mem_cons.1 inside with same | inside
      · exact .inl same
      · exact .inr ⟨first, by simp, inside⟩
    · exact .inr ⟨piece, by simp [member], inside⟩

theorem cut_eq_false_of_mem_pieces {cut : α → Bool} {cs piece : List α} {c : α}
    (member : piece ∈ pieces cut cs) (inside : c ∈ piece) : cut c = false := by
  induction cs generalizing piece with
  | nil => simp_all [pieces]
  | cons first rest ih =>
    rw [pieces] at member
    split at member
    · rcases List.mem_cons.1 member with rfl | member
      · simp at inside
      · exact ih member inside
    · rename_i kept
      rcases mem_extendFirst member inside with rfl | ⟨other, member, inside⟩
      · simpa using kept
      · exact ih member inside

theorem mem_of_mem_pieces {cut : α → Bool} {cs piece : List α} {c : α}
    (member : piece ∈ pieces cut cs) (inside : c ∈ piece) : c ∈ cs := by
  induction cs generalizing piece with
  | nil => simp_all [pieces]
  | cons first rest ih =>
    rw [pieces] at member
    split at member
    · rcases List.mem_cons.1 member with rfl | member
      · simp at inside
      · exact List.mem_cons_of_mem _ (ih member inside)
    · rcases mem_extendFirst member inside with rfl | ⟨other, member, inside⟩
      · exact List.mem_cons_self
      · exact List.mem_cons_of_mem _ (ih member inside)

theorem pieces_of_forall {cut : α → Bool} {cs : List α} (whole : ∀ c ∈ cs, cut c = false) :
    pieces cut cs = [cs] := by
  induction cs with
  | nil => rfl
  | cons c rest ih =>
    rw [pieces, ih fun d member => whole d (List.mem_cons_of_mem _ member)]
    simp [whole c, extendFirst]

theorem pieces_append_cons {cut : α → Bool} {first rest : List α} {c : α}
    (whole : ∀ d ∈ first, cut d = false) (cuts : cut c = true) :
    pieces cut (first ++ c :: rest) = first :: pieces cut rest := by
  induction first with
  | nil => simp [pieces, cuts]
  | cons d first ih =>
    rw [List.cons_append, pieces, ih fun d member => whole d (List.mem_cons_of_mem _ member)]
    simp [whole d, extendFirst]

theorem pieces_flatMap {cut : α → Bool} {mark : α} (cuts : cut mark = true) {names : List (List α)}
    (whole : ∀ name ∈ names, ∀ c ∈ name, cut c = false) {first : List α} (kept : ∀ c ∈ first, cut c = false) :
    pieces cut (first ++ names.flatMap (mark :: ·)) = first :: names := by
  induction names generalizing first with
  | nil => simp [pieces_of_forall kept]
  | cons name rest ih =>
    obtain ⟨here, later⟩ := List.forall_mem_cons.1 whole
    rw [List.flatMap_cons, List.cons_append, pieces_append_cons kept cuts, ih later here]

def afterStart? : List Char → List Char → Option (List Char)
  | [], cs => some cs
  | _ :: _, [] => none
  | s :: start, c :: cs => if s = c then afterStart? start cs else none

theorem afterStart?_eq_some_iff {start cs rest : List Char} :
    afterStart? start cs = some rest ↔ cs = start ++ rest := by
  induction start generalizing cs with
  | nil => simp [afterStart?]
  | cons s start ih =>
    cases cs with
    | nil => simp [afterStart?]
    | cons c cs =>
      by_cases same : s = c
      · simp [afterStart?, same, ih]
      · simp [afterStart?, same, Ne.symm same]

def beforeFinish? (finish cs : List Char) : Option (List Char) :=
  (afterStart? finish.reverse cs.reverse).map List.reverse

theorem beforeFinish?_eq_some_iff {finish cs rest : List Char} :
    beforeFinish? finish cs = some rest ↔ cs = rest ++ finish := by
  simp only [beforeFinish?, Option.map_eq_some_iff, afterStart?_eq_some_iff]
  constructor
  · rintro ⟨back, same, rfl⟩
    have := congrArg List.reverse same
    simpa using this
  · rintro rfl
    exact ⟨rest.reverse, by simp, by simp⟩

def cutAtFirst? (mark : Char) : List Char → Option (List Char × List Char)
  | [] => none
  | c :: rest =>
    if c = mark then some ([], rest)
    else (cutAtFirst? mark rest).map fun (before, after) => (c :: before, after)

theorem cutAtFirst?_eq_none_iff {mark : Char} {cs : List Char} :
    cutAtFirst? mark cs = none ↔ mark ∉ cs := by
  induction cs with
  | nil => simp [cutAtFirst?]
  | cons c rest ih =>
    by_cases here : c = mark
    · simp [cutAtFirst?, here]
    · simp [cutAtFirst?, here, Ne.symm here, ih]

theorem cutAtFirst?_eq_some_iff {mark : Char} {cs before after : List Char} :
    cutAtFirst? mark cs = some (before, after) ↔ cs = before ++ mark :: after ∧ mark ∉ before := by
  induction cs generalizing before with
  | nil => simp [cutAtFirst?]
  | cons c rest ih =>
    cases before with
    | nil =>
      by_cases here : c = mark
      · simp [cutAtFirst?, here]
      · simp [cutAtFirst?, here]
    | cons first before =>
      rw [cutAtFirst?]
      split
      · rename_i here
        constructor
        · intro cut
          cases cut
        · rintro ⟨same, free⟩
          cases same
          exact absurd (here ▸ List.mem_cons_self) free
      · rename_i here
        constructor
        · intro cut
          obtain ⟨⟨front, back⟩, below, same⟩ := Option.map_eq_some_iff.1 cut
          cases same
          obtain ⟨rfl, free⟩ := ih.1 below
          exact ⟨rfl, by simp [Ne.symm here, free]⟩
        · rintro ⟨same, free⟩
          cases same
          have below := ih.2 ⟨rfl, fun member => free (List.mem_cons_of_mem _ member)⟩
          exact Option.map_eq_some_iff.2 ⟨_, below, rfl⟩

def repeated (piece : String) (count : Nat) : String :=
  String.join (List.replicate count piece)

def asSlash (c : Char) : Char := if c = '\\' then '/' else c

def slashed (s : String) : String := String.ofList (s.toList.map asSlash)

theorem asSlash_of_ne {c : Char} (other : c ≠ '\\') : asSlash c = c := if_neg other

theorem straight_slashed (s : String) : '\\' ∉ (slashed s).toList := by
  rw [slashed, String.toList_ofList, List.mem_map]
  rintro ⟨c, _, same⟩
  unfold asSlash at same
  split at same
  · cases same
  · contradiction

theorem slashed_of_straight {s : String} (free : '\\' ∉ s.toList) : slashed s = s := by
  have kept : s.toList.map asSlash = s.toList := by
    refine (List.map_congr_left fun c member => asSlash_of_ne ?_).trans (List.map_id _)
    rintro rfl
    exact free member
  rw [slashed, kept, String.ofList_toList]

theorem slashed_append (s t : String) : slashed (s ++ t) = slashed s ++ slashed t := by
  simp [slashed]

end WorkflowEngine.Text
