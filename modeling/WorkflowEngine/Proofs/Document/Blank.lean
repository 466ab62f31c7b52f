import WorkflowEngine.Document.Reading
import WorkflowEngine.Proofs.ListsAndResults

/-! What a blank text writes.

White space other than spaces, tabs and breaks is text to YAML, yet none of it is an indicator. A blank text thus
holds plain scalars at most, and its root is neither a sequence nor a mapping: it states no steps.
-/

set_option autoImplicit false

namespace WorkflowEngine

namespace Yaml

def Rest.Blank (rest : Rest) : Prop := ∀ g ∈ rest, Text.isBlank g.char = true ∨ isEnd g.char = true

theorem Rest.Blank.of_isSuffix {rest later : Rest} (blank : rest.Blank) (behind : later <:+ rest) :
    later.Blank :=
  fun g member => blank g (behind.mem member)

theorem blank_layOut {cs : List Char} {line column index : Nat} {done : List Glyph}
    (blank : ∀ c ∈ cs, Text.isBlank c = true) (before : Rest.Blank done) :
    Rest.Blank (layOut line column index done cs) := by
  have put {c : Char} {line column index : Nat} {done : List Glyph} (own : Text.isBlank c = true)
      (before : Rest.Blank done) : Rest.Blank (⟨c, line, column, index⟩ :: done) :=
    List.forall_mem_cons.2 ⟨.inl own, before⟩
  fun_induction layOut line column index done cs with
  | case1 =>
    -- The glyph behind the last character is the mark of the end.
    intro g member
    rcases List.mem_cons.1 (List.mem_reverse.1 member) with rfl | earlier
    · exact .inr rfl
    · exact before g earlier
  | case2 _ _ _ _ _ ih | case3 _ _ _ _ _ _ _ _ ih =>
    -- These breaks become line feeds.
    exact ih (fun c member => blank c (by simp [member])) (put (by decide) before)
  | case4 _ _ _ _ _ _ _ _ _ ih | case5 _ _ _ _ _ _ _ _ _ ih =>
    exact ih (fun c member => blank c (by simp [member])) (put (blank _ (by simp)) before)

theorem blank_glyphs {text : String} {rest : List Glyph} (blank : Text.isBlankText text = true)
    (laid : glyphs text = .ok rest) : Rest.Blank rest := by
  have all : ∀ c ∈ text.toList, Text.isBlank c = true := List.all_eq_true.1 blank
  have written : ∃ cs : List Char, (∀ c ∈ cs, c ∈ text.toList) ∧
      (if cs.all isAllowed then Except.ok (layOut 0 0 0 [] cs) else .error Fault.character) = .ok rest := by
    refine ⟨_, fun c member => ?_, laid⟩
    split at member
    · rename_i whole
      rw [whole]
      split at member
      · exact List.mem_cons_of_mem _ member
      · exact member
    · cases member
  obtain ⟨cs, within, laid⟩ := written
  split at laid
  · cases laid
    exact blank_layOut (fun c member => all c (within c member)) nofun
  · cases laid

theorem readPlain_isSuffix {inFlow : Bool} {indent : Int} {f g : Folding} {rest later : Rest}
    (read : readPlain inFlow indent f rest = .ok (g, later)) : later <:+ rest := by
  fun_induction readPlain inFlow indent f rest with
  | case1 | case2 | case6 | case7 | case9 =>
    cases read
    exact List.suffix_rfl
  | case3 | case8 => cases read
  | case4 _ _ _ _ _ _ ih | case5 _ _ _ _ _ _ ih | case10 _ _ _ _ _ _ _ _ _ _ ih =>
    exact (ih read).trans (List.suffix_cons _ _)

namespace Scan

theorem toNext_isSuffix (inFlow inComment keyAllowed : Bool) (rest : Rest) :
    (toNext inFlow inComment keyAllowed rest).2 <:+ rest := by
  fun_induction toNext inFlow inComment keyAllowed rest with
  | case1 | case8 => exact List.suffix_rfl
  | _ =>
    -- Every other glyph is stepped over.
    rename_i ih
    exact ih.trans (List.suffix_cons _ _)

/-- Outside every collection, with plain scalars behind it and nothing but white space ahead. -/
structure Flat (s : Scan) : Prop where
  ahead : s.rest.Blank
  outermost : s.outerIndents = []
  scalars : ∀ token ∈ s.tokens.toList, ∃ text, token = .scalar text true

namespace Flat

variable {s t : Scan}

theorem dropKey (flat : s.Flat) (dropped : s.dropKey = .ok t) : t.Flat := by
  unfold Scan.dropKey at dropped
  split at dropped
  · split at dropped
    · cases dropped
    · cases dropped
      exact ⟨flat.ahead, flat.outermost, flat.scalars⟩
  · cases dropped
    exact flat

theorem saveKey (flat : s.Flat) (saved : s.saveKey = .ok t) : t.Flat := by
  unfold Scan.saveKey at saved
  split at saved
  · obtain ⟨without, dropped, made⟩ := exists_of_bind_eq_ok saved
    have kept := flat.dropKey dropped
    cases made
    exact ⟨kept.ahead, kept.outermost, kept.scalars⟩
  · cases saved
    exact flat

theorem expireKeys (flat : s.Flat) (expired : s.expireKeys = .ok t) : t.Flat := by
  obtain ⟨key, _, behind⟩ := exists_of_bind_eq_ok expired
  obtain ⟨outerKeys, _, made⟩ := exists_of_bind_eq_ok behind
  cases made
  exact ⟨flat.ahead, flat.outermost, flat.scalars⟩

theorem unindentTo (flat : s.Flat) (column : Int) : s.unindentTo column = s := by
  obtain ⟨_, _, _, _, _, _, _⟩ := s
  obtain rfl := flat.outermost
  simp [Scan.unindentTo, Scan.closeTo]

theorem plain (flat : s.Flat) (read : s.plain = .ok t) : t.Flat := by
  obtain ⟨keyed, saved, behind⟩ := exists_of_bind_eq_ok read
  obtain ⟨⟨f, rest⟩, text, made⟩ := exists_of_bind_eq_ok behind
  have kept := flat.saveKey saved
  cases made
  refine ⟨kept.ahead.of_isSuffix (readPlain_isSuffix text), kept.outermost, fun token member => ?_⟩
  simp only [emitRead, emit, Array.toList_push, List.mem_append, List.mem_singleton] at member
  rcases member with earlier | rfl
  · exact kept.scalars token earlier
  · exact ⟨_, rfl⟩

/-- White space is no indicator, so what stands next is a plain scalar or no token at all. -/
theorem token (flat : s.Flat) (more : isEnd s.rest.next = false) (read : s.token = .ok t) : t.Flat := by
  have blank : Text.isBlank s.rest.next = true := by
    cases h : s.rest with
    | nil => simp [h, Rest.next, isEnd] at more
    | cons g rest =>
      rw [h] at more
      exact (flat.ahead g (by simp [h])).resolve_right (by simpa [Rest.next] using more)
  -- What stands next is blank, and no indicator is.
  have apart (c : Char) (visible : Text.isBlank c = false) : (s.rest.next == c) = false := by
    refine beq_eq_false_iff_ne.2 fun same => ?_
    rw [same, visible] at blank
    cases blank
  have unmarked : s.rest.isDocumentMark = false := by
    simp [Rest.isDocumentMark, apart '-' (by decide), apart '.' (by decide)]
  simp only [Scan.token, unmarked, apart '%' (by decide), apart '[' (by decide), apart '{' (by decide),
    apart ']' (by decide), apart '}' (by decide), apart ',' (by decide), apart '-' (by decide),
    apart '?' (by decide), apart ':' (by decide), apart '*' (by decide), apart '&' (by decide),
    apart '!' (by decide), apart '|' (by decide), apart '>' (by decide), apart '\'' (by decide),
    apart '"' (by decide), Bool.and_false, Bool.false_and, Bool.false_eq_true, if_false] at read
  split at read
  · exact flat.plain read
  · cases read

end Flat

theorem scalars_tokens? {more : Nat} {s : Scan} {found : Array Token} (flat : s.Flat)
    (read : tokens? more s = .ok found) :
    ∃ scalars, found.toList = scalars ++ [.streamEnd] ∧
      ∀ token ∈ scalars, ∃ text, token = .scalar text true := by
  induction more generalizing s with
  | zero => cases read
  | succ more ih =>
    obtain ⟨next, expired, read⟩ := exists_of_bind_eq_ok read
    -- Skipping blanks and giving up keys leaves nothing but blanks ahead.
    have ahead : next.Flat := by
      refine Flat.expireKeys ?_ expired
      exact ⟨flat.ahead.of_isSuffix (toNext_isSuffix _ _ _ _), flat.outermost, flat.scalars⟩
    simp only [ahead.unindentTo] at read
    split at read
    · obtain ⟨last, dropped, made⟩ := exists_of_bind_eq_ok read
      cases made
      exact ⟨_, Array.toList_push, (ahead.dropKey dropped).scalars⟩
    · rename_i visible
      obtain ⟨behind, step, read⟩ := exists_of_bind_eq_ok read
      exact ih (ahead.token (by simpa using visible) step) read

end Scan

theorem scalars_tokens {text : String} {found : List Token} (blank : Text.isBlankText text = true)
    (read : tokens text = .ok found) :
    ∃ scalars, found = scalars ++ [.streamEnd] ∧ ∀ token ∈ scalars, ∃ text, token = .scalar text true := by
  obtain ⟨rest, laid, behind⟩ := exists_of_bind_eq_ok read
  obtain ⟨all, done, made⟩ := exists_of_bind_eq_ok behind
  cases made
  exact Scan.scalars_tokens? ⟨blank_glyphs blank laid, rfl, by simp⟩ done

theorem Document.ofTokens_scalar (text : String) (later : List Token) :
    ofTokens (.scalar text true :: later) =
      if isFinished later then .ok ⟨some (.scalar ⟨none, none⟩ true text), 1⟩ else .error .documents := by
  simp only [ofTokens, Node.readDirectives, bind, Except.bind, bne_self_eq_false]
  rfl

theorem Document.root_ofTokens {scalars : List Token} {d : Document}
    (plain : ∀ token ∈ scalars, ∃ text, token = .scalar text true)
    (read : ofTokens (scalars ++ [.streamEnd]) = .ok d) :
    d.root = none ∨ ∃ text, d.root = some (.scalar ⟨none, none⟩ true text) := by
  cases scalars with
  | nil =>
    cases read
    exact .inl rfl
  | cons first rest =>
    obtain ⟨text, rfl⟩ := plain first (by simp)
    rw [List.cons_append, ofTokens_scalar] at read
    split at read
    · cases read
      exact .inr ⟨text, rfl⟩
    · cases read

end Yaml

namespace Document

theorem Outline.steps_of_isBlankText {text : String} {outline : Outline} (blank : Text.isBlankText text = true)
    (read : ofText text = .ok outline) : outline.steps = none := by
  obtain ⟨tokens, scanned, behind⟩ := exists_of_bind_eq_ok read
  obtain ⟨document, parsed, read⟩ := exists_of_bind_eq_ok behind
  obtain ⟨scalars, rfl, plain⟩ := Yaml.scalars_tokens blank scanned
  have root := Yaml.Document.root_ofTokens plain parsed
  unfold ofYaml at read
  split at read
  · cases read
    rfl
  · rename_i whole
    rcases root with root | ⟨_, root⟩
    · cases root.symm.trans whole
    · cases root.symm.trans whole
  · cases read
    rfl
  · cases read

end Document

end WorkflowEngine
