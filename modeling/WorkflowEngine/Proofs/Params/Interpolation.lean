import WorkflowEngine.Params
import WorkflowEngine.Proofs.Template.Grammar

/-! How placeholders are filled.

A text can be filled from left to right: what stands before the next opener is kept, the placeholder there is
replaced if its name has a value, and the rest is gone on with, until no opener is left or one is not closed.
This is the same as to replace the placeholders among the pieces of the text. A value's text is put down and not
read again. A text that is one placeholder becomes the value itself, whose text is what filling would have left.
-/

set_option autoImplicit false

namespace WorkflowEngine

namespace Template

def cutAtOpener? : List Char → Option (List Char × List Char)
  | '$' :: '{' :: rest => some ([], rest)
  | c :: rest => (cutAtOpener? rest).map fun (before, after) => (c :: before, after)
  | [] => none

variable {text before after : List Char}

theorem cutAtOpener?_eq_none (uncut : cutAtOpener? text = none) : ¬ opener <:+: text := by
  fun_induction cutAtOpener? text with
  | case1 rest => cases uncut
  | case2 c rest other ih =>
    rw [List.infix_cons_iff, opener_isPrefix_cons]
    rintro (⟨rfl, more, rfl⟩ | below)
    · exact other more rfl rfl
    · exact ih (Option.map_eq_none_iff.1 uncut) below
  | case3 => simp [opener]

theorem cutAtOpener?_eq_some (cut : cutAtOpener? text = some (before, after)) :
    text = before ++ opener ++ after ∧ ¬ opener <:+: before := by
  fun_induction cutAtOpener? text generalizing before with
  | case1 rest =>
    cases cut
    simp [opener]
  | case2 c rest other ih =>
    obtain ⟨⟨front, back⟩, below, same⟩ := Option.map_eq_some_iff.1 cut
    cases same
    obtain ⟨rfl, plain⟩ := ih below
    refine ⟨rfl, ?_⟩
    rw [List.infix_cons_iff, opener_isPrefix_cons]
    rintro (⟨rfl, more, rfl⟩ | inside)
    · exact other _ rfl rfl
    · exact plain inside
  | case3 => cases cut

theorem pieces_before (plain : ¬ opener <:+: before) {rest : List Char} (behind : rest = [] ∨ opener <+: rest) :
    (pieces (before ++ rest)) = (if before = [] then [] else [.literal before]) ++ pieces rest := by
  split
  · rename_i nothing
    simp [nothing]
  · rename_i written
    exact pieces_literal written plain behind

end Template

namespace Params

open Template

def replacement (scope : Params) (name : List Char) : List Char :=
  match scope.named? name with
  | some v => v.shown
  | none => opener ++ name ++ ['}']

def interpolate (scope : Params) (text : List Char) : List Char :=
  match _cut : cutAtOpener? text with
  | none => text
  | some (before, after) =>
    match _closed : Text.cutAtFirst? '}' after with
    | none => before ++ opener ++ after
    | some (name, rest) => before ++ scope.replacement name ++ scope.interpolate rest
termination_by text.length
decreasing_by
  obtain ⟨rfl, _⟩ := cutAtOpener?_eq_some _cut
  obtain ⟨rfl, _⟩ := Text.cutAtFirst?_eq_some_iff.1 _closed
  simp only [List.length_append, List.length_cons]
  omega

/-- What is left of a piece: only placeholders are replaced. -/
def remnant (scope : Params) : Piece → List Char
  | .literal text => text
  | .placeholder name => scope.replacement name
  | .unclosed rest => opener ++ rest

variable {scope : Params} {text : List Char}

theorem fillPiece_eq_remnant (scope : Params) (piece : Piece) : scope.fillPiece piece = scope.remnant piece := by
  cases piece with
  | literal text => rfl
  | unclosed rest => rfl
  | placeholder name =>
    simp only [fillPiece, remnant, replacement]
    cases scope.named? name <;> rfl

theorem fillText_eq_flatMap (scope : Params) (text : List Char) :
    scope.fillText text = (pieces text).flatMap scope.remnant := by
  rw [fillText]
  congr 1
  exact funext (fillPiece_eq_remnant scope)

/-- A text without an opener in front of another one is kept. -/
theorem fillText_before {before rest : List Char} (plain : ¬ opener <:+: before)
    (behind : rest = [] ∨ opener <+: rest) :
    scope.fillText (before ++ rest) = before ++ scope.fillText rest := by
  rw [fillText, pieces_before plain behind]
  split
  · rename_i nothing
    simp [nothing, fillText]
  · rw [List.singleton_append, List.flatMap_cons, ← fillText, fillPiece_eq_remnant, remnant]

theorem interpolate_eq_fillText (scope : Params) (text : List Char) :
    scope.interpolate text = scope.fillText text := by
  fun_induction interpolate scope text with
  | case1 text uncut =>
    have plain := cutAtOpener?_eq_none uncut
    have kept := @fillText_before scope text [] plain (.inl rfl)
    simpa [fillText] using kept.symm
  | case2 text before after cut unclosed =>
    obtain ⟨rfl, plain⟩ := cutAtOpener?_eq_some cut
    have whole := Text.cutAtFirst?_eq_none_iff.1 unclosed
    rw [List.append_assoc, fillText_before plain (.inr (List.prefix_append _ _)), fillText_eq_flatMap,
      pieces_unclosed whole, List.flatMap_singleton, remnant]
  | case3 text before after cut name rest closed ih =>
    obtain ⟨rfl, plain⟩ := cutAtOpener?_eq_some cut
    obtain ⟨rfl, whole⟩ := Text.cutAtFirst?_eq_some_iff.1 closed
    have read := pieces_placeholder whole rest
    rw [List.append_assoc] at read
    rw [List.append_assoc before opener, fillText_before plain (.inr (List.prefix_append _ _)), fillText_eq_flatMap,
      read, List.flatMap_cons, ← fillText_eq_flatMap, ih, remnant, List.append_assoc]

/-- A text is recognised as one placeholder by its two ends, and filled from left to right otherwise. -/
theorem renderText_eq (scope : Params) (s : String) :
    scope.renderText s = match enclosedName? s.toList with
      | some name => (scope.find? (String.ofList name)).getD (.text s)
      | none => .text (String.ofList (scope.interpolate s.toList)) := by
  rw [renderText, soleName?_eq_enclosedName?]
  cases enclosedName? s.toList with
  | some name => rfl
  | none => exact congrArg (fun text => Value.text (String.ofList text)) (interpolate_eq_fillText scope s.toList).symm

/-- What is filled into a text is not looked at again: the text on either side is filled as if it stood alone. -/
theorem interpolate_split {front behind : List Piece} {name : List Char}
    (parts : Decomposes text (front ++ .placeholder name :: behind)) :
    scope.interpolate text = scope.interpolate (front.flatMap Piece.written) ++ scope.replacement name ++
      scope.interpolate (behind.flatMap Piece.written) := by
  have first := parts.of_append.1
  have later : pieces (behind.flatMap Piece.written) = behind := by
    have tail : Decomposes text ((front ++ [.placeholder name]) ++ behind) := by simpa using parts
    exact tail.of_append.2
  simp only [interpolate_eq_fillText, fillText_eq_flatMap]
  rw [← parts.eq_pieces, first, later]
  simp [remnant]

theorem renderValue_of_sole {s : String} {name : List Char} (only : pieces s.toList = [.placeholder name])
    (plain : ¬ opener <:+: name) : scope.renderValue (.text s) = (scope.named? name).getD (.text s) := by
  obtain ⟨spelled, wellFormed, _⟩ := only ▸ decomposes_pieces s.toList
  have enclosed : enclosedName? s.toList = some (Text.trimChars name) := by
    refine enclosedName?_eq_some_iff.2 ⟨name, ⟨?_, wellFormed _ List.mem_cons_self, plain⟩, rfl⟩
    simpa [Piece.written] using spelled.symm
  rw [renderValue, renderText_eq, enclosed]
  rfl

theorem renderValue_of_mixed {s : String}
    (other : ∀ name, pieces s.toList = [.placeholder name] → opener <:+: name) :
    scope.renderValue (.text s) = .text (String.ofList (scope.interpolate s.toList)) := by
  have notEnclosed : enclosedName? s.toList = none := by
    refine Option.eq_none_iff_forall_not_mem.2 fun trimmed found => ?_
    obtain ⟨name, ⟨spelled, whole, plain⟩, _⟩ := enclosedName?_eq_some_iff.1 found
    exact plain (other name (spelled ▸ pieces_placeholder whole []))
  rw [renderValue, renderText_eq, notEnclosed]

theorem shown_renderValue (scope : Params) (s : String) :
    (scope.renderValue (.text s)).shown = scope.interpolate s.toList := by
  by_cases only : ∃ name, pieces s.toList = [.placeholder name] ∧ ¬ opener <:+: name
  · obtain ⟨name, only, plain⟩ := only
    rw [renderValue_of_sole only plain, interpolate_eq_fillText, fillText_eq_flatMap, only, List.flatMap_singleton,
      remnant, replacement]
    -- A name without a value stays, and the text is all of it.
    cases scope.named? name with
    | some v => rfl
    | none =>
      obtain ⟨spelled, _⟩ := only ▸ decomposes_pieces s.toList
      simpa [Value.shown, Piece.written] using spelled.symm
  · have other : ∀ name, pieces s.toList = [.placeholder name] → opener <:+: name := by
      intro name single
      by_contra plain
      exact only ⟨name, single, plain⟩
    rw [renderValue_of_mixed other, Value.shown, String.toList_ofList]

/-- A text has one decomposition into literals, placeholders and an end that is never closed. Only placeholders are
replaced, and one that is the whole text becomes the value itself. -/
theorem renderValue_text_grammatical (scope : Params) (s : String) : ∃ ps : List Piece,
    (∀ other, Decomposes s.toList other ↔ other = ps) ∧
    (∀ name, ps = [.placeholder name] → ¬ opener <:+: name →
      scope.renderValue (.text s) = (scope.named? name).getD (.text s)) ∧
    ((∀ name, ps = [.placeholder name] → opener <:+: name) →
      scope.renderValue (.text s) = .text (String.ofList (ps.flatMap scope.remnant))) ∧
    (∀ front name behind, ps = front ++ .placeholder name :: behind →
      scope.interpolate s.toList = scope.interpolate (front.flatMap Piece.written) ++
        scope.replacement name ++ scope.interpolate (behind.flatMap Piece.written)) ∧
    (scope.renderValue (.text s)).shown = scope.interpolate s.toList := by
  have filled : scope.interpolate s.toList = (pieces s.toList).flatMap scope.remnant :=
    (interpolate_eq_fillText scope s.toList).trans (fillText_eq_flatMap scope s.toList)
  refine ⟨pieces s.toList, fun other => decomposes_iff, fun name => renderValue_of_sole, fun other => ?_, ?_,
    shown_renderValue scope s⟩
  · rw [renderValue_of_mixed other, filled]
  · intro front name behind split
    exact interpolate_split (split ▸ decomposes_pieces s.toList)

example : renderValue (((∅ : Params).insert "x" (.text "$\x7by\x7d")).insert "y" (.bool true))
    (.text "$$\x7b x \x7d$\x7by\x7d$\x7b$\x7by\x7d$\x7b") = .text "$$\x7by\x7dtrue$\x7b$\x7by\x7d$\x7b" := by
  decide +kernel

end Params

end WorkflowEngine
