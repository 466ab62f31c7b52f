import WorkflowEngine.Template
import WorkflowEngine.Text.Pieces
import Mathlib.Data.List.Chain
import Mathlib.Data.List.Infix

/-! The grammar of templates.

Literals without an opener stand between placeholders, whose names have no closing brace, and an opener that
is never closed may stand at the end. Every text is spelled by exactly one such list of pieces, and it is read
as this one. So a text is read alike from its first opener on, and behind each placeholder as if it began there.
-/

set_option autoImplicit false

namespace WorkflowEngine.Template

/-- What the grammar asks of a piece. A literal that is left out stands for the empty one. -/
def Piece.WellFormed : Piece → Prop
  | .literal text => text ≠ [] ∧ ¬ opener <:+: text
  | .placeholder name => '}' ∉ name
  | .unclosed rest => '}' ∉ rest

/-- Two literals do not touch, and nothing comes behind an opener that is never closed. -/
def Piece.Precedes : Piece → Piece → Prop
  | .literal _, .literal _ => False
  | .unclosed _, _ => False
  | _, _ => True

/-- The pieces spell the text and are put together as the grammar has it. -/
structure Decomposes (text : List Char) (ps : List Piece) : Prop where
  spelled : ps.flatMap Piece.written = text
  wellFormed : ∀ piece ∈ ps, piece.WellFormed
  alternate : ps.IsChain Piece.Precedes

section Openers

theorem opener_isPrefix_cons {c : Char} {rest : List Char} :
    opener <+: c :: rest ↔ c = '$' ∧ ∃ more, rest = '{' :: more := by
  rw [opener, List.cons_prefix_cons, eq_comm]
  refine and_congr_right fun _ => ?_
  cases rest with
  | nil => simp
  | cons d rest => simp [List.cons_prefix_cons, eq_comm]

theorem hasOpener_eq_true_iff {text : List Char} : hasOpener text = true ↔ opener <:+: text := by
  fun_induction hasOpener text with
  | case1 rest => simp [List.infix_cons_iff, opener_isPrefix_cons]
  | case2 c rest other ih =>
    have later : ¬ opener <+: c :: rest := by
      rw [opener_isPrefix_cons]
      rintro ⟨rfl, more, rfl⟩
      exact other more rfl rfl
    rw [ih, List.infix_cons_iff, or_iff_right later]
  | case3 => simp [opener]

end Openers

section Existence

variable {ps : List Piece}

theorem isChain_addLiteral {c : Char} (alternate : ps.IsChain Piece.Precedes) :
    (addLiteral c ps).IsChain Piece.Precedes := by
  cases ps with
  | nil => exact .singleton _
  | cons piece rest =>
    cases piece with
    | literal text =>
      cases rest with
      | nil => exact .singleton _
      | cons next rest =>
        obtain ⟨first, later⟩ := List.isChain_cons_cons.1 alternate
        have longer : (Piece.literal (c :: text)).Precedes next := by cases next <;> exact first
        exact .cons_cons longer later
    | placeholder name => exact .cons_cons trivial alternate
    | unclosed open_end => exact .cons_cons trivial alternate

theorem wellFormed_addLiteral {c : Char} {rest : List Char} (plain : ¬ opener <+: c :: rest)
    (spelled : ps.flatMap Piece.written = rest) (wellFormed : ∀ piece ∈ ps, piece.WellFormed) :
    ∀ piece ∈ addLiteral c ps, piece.WellFormed := by
  have alone : (Piece.literal [c]).WellFormed := by
    refine ⟨by simp, fun inside => ?_⟩
    have short := inside.length_le
    simp [opener] at short
  cases ps with
  | nil => simpa [addLiteral] using alone
  | cons piece others =>
    obtain ⟨first, later⟩ := List.forall_mem_cons.1 wellFormed
    cases piece with
    | placeholder name => exact List.forall_mem_cons.2 ⟨alone, wellFormed⟩
    | unclosed open_end => exact List.forall_mem_cons.2 ⟨alone, wellFormed⟩
    | literal text =>
      refine List.forall_mem_cons.2 ⟨⟨by simp, fun inside => ?_⟩, later⟩
      -- The literal goes on as the text does, so an opener in front of it would be one in the text.
      rcases List.infix_cons_iff.1 inside with here | below
      · have front : c :: text <+: c :: rest :=
          ⟨others.flatMap Piece.written, by simp [← spelled, Piece.written]⟩
        exact plain (here.trans front)
      · exact first.2 below

theorem wellFormed_scan {mode : Option (List Char)} {text : List Char}
    (whole : ∀ name, mode = some name → '}' ∉ name) :
    (∀ piece ∈ scan mode text, piece.WellFormed) ∧ (scan mode text).IsChain Piece.Precedes := by
  fun_induction scan mode text with
  | case1 => simp
  | case2 rest ih => exact ih (by simp)
  | case3 c rest other ih =>
    obtain ⟨wellFormed, alternate⟩ := ih (by simp)
    refine ⟨wellFormed_addLiteral ?_ (flatMap_written_scan none rest) wellFormed,
      isChain_addLiteral alternate⟩
    -- An opener would have been read as one.
    rw [opener_isPrefix_cons]
    rintro ⟨rfl, more, rfl⟩
    exact other more rfl rfl
  | case4 name => simpa [Piece.WellFormed] using whole name rfl
  | case5 name rest ih =>
    obtain ⟨wellFormed, alternate⟩ := ih (by simp)
    refine ⟨List.forall_mem_cons.2 ⟨by simpa [Piece.WellFormed] using whole name rfl, wellFormed⟩, ?_⟩
    cases behind : scan none rest with
    | nil => exact .singleton _
    | cons next others => exact .cons_cons trivial (behind ▸ alternate)
  | case6 name c rest other ih =>
    refine ih ?_
    rintro _ ⟨⟩
    exact List.not_mem_cons_of_ne_of_not_mem (Ne.symm other) (whole name rfl)

theorem decomposes_pieces (text : List Char) : Decomposes text (pieces text) := by
  obtain ⟨wellFormed, alternate⟩ := @wellFormed_scan none text (by simp)
  exact ⟨flatMap_written_pieces text, wellFormed, alternate⟩

end Existence

section Reading

variable {name rest text : List Char}

@[simp]
theorem pieces_nil : pieces [] = [] := rfl

theorem pieces_cons {c : Char} (plain : ¬ opener <+: c :: rest) :
    pieces (c :: rest) = addLiteral c (pieces rest) := by
  refine scan.eq_3 c rest ?_
  rintro more rfl rfl
  exact plain (opener_isPrefix_cons.2 ⟨rfl, more, rfl⟩)

theorem scan_closed (whole : '}' ∉ name) (read rest : List Char) :
    scan (some read) (name ++ '}' :: rest) = .placeholder (read.reverse ++ name) :: pieces rest := by
  induction name generalizing read with
  | nil => simp [scan, pieces]
  | cons c name ih =>
    obtain ⟨other, later⟩ := List.ne_and_not_mem_of_not_mem_cons whole
    rw [List.cons_append, scan.eq_6 read c _ (Ne.symm other), ih later]
    simp

theorem scan_unclosed (whole : '}' ∉ rest) (read : List Char) :
    scan (some read) rest = [.unclosed (read.reverse ++ rest)] := by
  induction rest generalizing read with
  | nil => simp [scan]
  | cons c rest ih =>
    obtain ⟨other, later⟩ := List.ne_and_not_mem_of_not_mem_cons whole
    rw [scan.eq_6 read c _ (Ne.symm other), ih later]
    simp

theorem pieces_placeholder (whole : '}' ∉ name) (rest : List Char) :
    pieces (opener ++ name ++ '}' :: rest) = .placeholder name :: pieces rest := by
  have opened : pieces (opener ++ name ++ '}' :: rest) = scan (some []) (name ++ '}' :: rest) := by
    simp [pieces, opener, scan]
  rw [opened, scan_closed whole, List.reverse_nil, List.nil_append]

theorem pieces_unclosed (whole : '}' ∉ rest) : pieces (opener ++ rest) = [.unclosed rest] := by
  have opened : pieces (opener ++ rest) = scan (some []) rest := by
    simp [pieces, opener, scan]
  rw [opened, scan_unclosed whole, List.reverse_nil, List.nil_append]

theorem addLiteral_scan_some (c : Char) (read rest : List Char) :
    addLiteral c (scan (some read) rest) = .literal [c] :: scan (some read) rest := by
  induction rest generalizing read with
  | nil => simp [scan, addLiteral]
  | cons d rest ih =>
    by_cases closes : d = '}'
    · simp [closes, scan, addLiteral]
    · rw [scan.eq_6 read d _ closes]
      exact ih (d :: read)

theorem pieces_literal (written : text ≠ []) (plain : ¬ opener <:+: text)
    (behind : rest = [] ∨ opener <+: rest) : pieces (text ++ rest) = .literal text :: pieces rest := by
  induction text with
  | nil => contradiction
  | cons c text ih =>
    obtain ⟨notHere, notBelow⟩ := not_or.1 (mt List.infix_cons_iff.2 plain)
    -- No opener starts in the literal and ends behind it, either.
    have goesOn : ¬ opener <+: c :: (text ++ rest) := by
      rw [opener_isPrefix_cons] at notHere ⊢
      rintro ⟨rfl, more, same⟩
      cases text with
      | nil =>
        obtain rfl : rest = '{' :: more := same
        simp [opener] at behind
      | cons d text => exact notHere ⟨rfl, text, by simpa using (List.cons.inj same).1⟩
    rw [List.cons_append, pieces_cons goesOn]
    cases text with
    | nil =>
      rcases behind with rfl | ⟨more, rfl⟩
      · rfl
      · exact addLiteral_scan_some c [] more
    | cons d text => rw [ih (by simp) notBelow]; rfl

/-- The pieces of a text are the only ones that the grammar has for it. -/
theorem Decomposes.eq_pieces {ps : List Piece} (parts : Decomposes text ps) : ps = pieces text := by
  obtain ⟨rfl, wellFormed, alternate⟩ := parts
  induction ps with
  | nil => rfl
  | cons piece later ih =>
    obtain ⟨first, others⟩ := List.forall_mem_cons.1 wellFormed
    have behind := ih others alternate.tail
    rw [List.flatMap_cons]
    cases piece with
    | placeholder name =>
      have written : (Piece.placeholder name).written ++ later.flatMap Piece.written =
          opener ++ name ++ '}' :: later.flatMap Piece.written := by simp [Piece.written]
      rw [written, pieces_placeholder first, ← behind]
    | unclosed rest =>
      -- Nothing follows an opener that is never closed.
      obtain rfl : later = [] := by
        cases later with
        | nil => rfl
        | cons next others => exact (List.isChain_cons_cons.1 alternate).1.elim
      rw [Piece.written, List.flatMap_nil, List.append_nil, pieces_unclosed first]
    | literal text =>
      -- A literal goes on to the next opener, since no other literal follows it.
      refine (pieces_literal first.1 first.2 ?_).trans (congrArg _ behind.symm) |>.symm
      cases later with
      | nil => exact .inl rfl
      | cons next others =>
        refine .inr ?_
        cases next with
        | literal text => exact (List.isChain_cons_cons.1 alternate).1.elim
        | placeholder name => simp [Piece.written]
        | unclosed rest => simp [Piece.written]

theorem decomposes_iff {ps : List Piece} : Decomposes text ps ↔ ps = pieces text :=
  ⟨Decomposes.eq_pieces, fun same => same ▸ decomposes_pieces text⟩

theorem Decomposes.of_append {front behind : List Piece} (parts : Decomposes text (front ++ behind)) :
    pieces (front.flatMap Piece.written) = front ∧ pieces (behind.flatMap Piece.written) = behind := by
  obtain ⟨_, wellFormed, alternate⟩ := parts
  obtain ⟨inFront, atEnd⟩ := List.forall_mem_append.1 wellFormed
  have first : Decomposes (front.flatMap Piece.written) front := ⟨rfl, inFront, alternate.left_of_append⟩
  have last : Decomposes (behind.flatMap Piece.written) behind := ⟨rfl, atEnd, alternate.right_of_append⟩
  exact ⟨first.eq_pieces.symm, last.eq_pieces.symm⟩

end Reading

section SolePlaceholder

variable {text trimmed : List Char}

def IsPlaceholder (text name : List Char) : Prop :=
  text = opener ++ name ++ ['}'] ∧ '}' ∉ name ∧ ¬ opener <:+: name

theorem soleName?_eq_some_iff :
    soleName? text = some trimmed ↔ ∃ name, IsPlaceholder text name ∧ Text.trimChars name = trimmed := by
  constructor
  · intro found
    unfold soleName? at found
    split at found
    · rename_i name only
      obtain ⟨spelled, wellFormed, _⟩ := only ▸ decomposes_pieces text
      split at found
      · cases found
      · rename_i plain
        refine ⟨name, ⟨?_, wellFormed _ List.mem_cons_self, mt hasOpener_eq_true_iff.2 plain⟩,
          Option.some.inj found⟩
        simpa [Piece.written] using spelled.symm
    · cases found
  · rintro ⟨name, ⟨rfl, whole, plain⟩, rfl⟩
    have only : pieces (opener ++ name ++ ['}']) = [.placeholder name] := pieces_placeholder whole []
    rw [soleName?, only]
    simp [mt hasOpener_eq_true_iff.1 plain]

/-- The trimmed text between an opener at the start and a closing brace at the end, if neither stands in
between. -/
def enclosedName? (text : List Char) : Option (List Char) :=
  match (Text.afterStart? opener text).bind (Text.beforeFinish? ['}']) with
  | some inner => if hasOpener inner || inner.contains '}' then none else some (Text.trimChars inner)
  | none => none

theorem enclosedName?_eq_some_iff :
    enclosedName? text = some trimmed ↔ ∃ name, IsPlaceholder text name ∧ Text.trimChars name = trimmed := by
  have enclosed : ∀ name, (Text.afterStart? opener text).bind (Text.beforeFinish? ['}']) = some name ↔
      text = opener ++ name ++ ['}'] := by
    intro name
    simp [Option.bind_eq_some_iff, Text.afterStart?_eq_some_iff, Text.beforeFinish?_eq_some_iff]
  constructor
  · intro found
    unfold enclosedName? at found
    split at found
    · rename_i name inner
      split at found
      · cases found
      · rename_i plain
        obtain ⟨notOpened, notClosed⟩ := not_or.1 (mt Bool.or_eq_true_iff.2 plain)
        exact ⟨name, ⟨(enclosed name).1 inner, by simpa using notClosed, mt hasOpener_eq_true_iff.2 notOpened⟩,
          Option.some.inj found⟩
    · cases found
  · rintro ⟨name, ⟨spelled, whole, plain⟩, rfl⟩
    rw [enclosedName?, (enclosed name).2 spelled]
    simp [mt hasOpener_eq_true_iff.1 plain, whole]

/-- A text is recognised as one placeholder from its two ends, without reading what stands before them. -/
theorem soleName?_eq_enclosedName? (text : List Char) : soleName? text = enclosedName? text := by
  ext trimmed
  rw [soleName?_eq_some_iff, enclosedName?_eq_some_iff]

end SolePlaceholder

end WorkflowEngine.Template
