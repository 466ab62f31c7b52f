import WorkflowEngine.Path.Raw
import WorkflowEngine.Proofs.Path.Components

/-! Paths that are texts, in bytes.

The byte of a slash is in no other character, so the bytes of a text are cut where the text is, and a path that is a
text spells in bytes what it spells. Whatever an absolute path spells has names without a slash that are not idle and
do not climb, and it is printed name by name.
-/

set_option autoImplicit false

namespace WorkflowEngine

namespace Text

theorem pieces_append_of_kept {α : Type} {cut : α → Bool} {front rest first : List α} {others : List (List α)}
    (kept : ∀ c ∈ front, cut c = false) (split : pieces cut rest = first :: others) :
    pieces cut (front ++ rest) = (front ++ first) :: others := by
  induction front with
  | nil => exact split
  | cons c front ih =>
    obtain ⟨here, later⟩ := List.forall_mem_cons.1 kept
    rw [List.cons_append, pieces, here, ih later]
    rfl

theorem isSlash_of_mem_encode {c : Char} (other : c ≠ '/') :
    ∀ b ∈ String.utf8EncodeChar c, RawPath.isSlash b = false := by
  rintro b member
  refine decide_eq_false ?_
  rintro rfl
  exact other (eq_slash_of_mem_encode member)

/-- The bytes of a text are cut at its slashes. -/
theorem pieces_encode (cs : List Char) : pieces RawPath.isSlash (cs.flatMap String.utf8EncodeChar) =
    (pieces Path.isSlash cs).map fun piece => piece.flatMap String.utf8EncodeChar := by
  induction cs with
  | nil => rfl
  | cons c rest ih =>
    rw [List.flatMap_cons, pieces]
    by_cases slash : c = '/'
    · subst slash
      rw [if_pos (by rfl), List.map_cons, ← ih]
      rfl
    · obtain ⟨first, others, split⟩ := List.exists_cons_of_ne_nil (pieces_ne_nil Path.isSlash rest)
      rw [split, List.map_cons] at ih
      rw [pieces_append_of_kept (isSlash_of_mem_encode slash) ih, if_neg (by simpa [Path.isSlash] using slash), split]
      rfl

theorem encode_ne_nil (c : Char) : String.utf8EncodeChar c ≠ [] := by
  intro nothing
  have size := String.length_utf8EncodeChar c
  rw [nothing] at size
  exact absurd size (Nat.ne_of_lt c.utf8Size_pos)

theorem isSlash_encode {c : Char} {b : UInt8} (member : b ∈ String.utf8EncodeChar c) :
    RawPath.isSlash b = Path.isSlash c := by
  by_cases slash : c = '/'
  · subst slash
    obtain rfl : b = 0x2f := List.mem_singleton.1 member
    rfl
  · rw [isSlash_of_mem_encode slash b member]
    simpa [Path.isSlash] using slash

theorem slashless_of_bytes {name : String} (free : 0x2f ∉ bytes name) : '/' ∉ name.toList := fun slash =>
  free (List.mem_flatMap.2 ⟨'/', slash, by decide⟩)

theorem bytes_slashless {name : String} (free : '/' ∉ name.toList) : 0x2f ∉ bytes name := fun slash => by
  obtain ⟨c, member, inside⟩ := List.mem_flatMap.1 slash
  exact free (eq_slash_of_mem_encode inside ▸ member)

end Text

structure RawName (name : List UInt8) : Prop where
  slashless : 0x2f ∉ name
  written : name ≠ Text.bytes ""
  dot : name ≠ Text.bytes "."
  level : name ≠ Text.bytes ".."

theorem RawName.proper {name : String} (raw : RawName (Text.bytes name)) : ProperName name where
  slashless := Text.slashless_of_bytes raw.slashless
  busy := by
    have written : name ≠ "" := fun same => raw.written (congrArg Text.bytes same)
    have dot : name ≠ "." := fun same => raw.dot (congrArg Text.bytes same)
    simp [Path.isIdle, written, dot]
  level := fun same => raw.level (congrArg Text.bytes same)

theorem ProperName.raw {name : String} (proper : ProperName name) : RawName (Text.bytes name) := by
  obtain ⟨written, dot, level⟩ := proper.ordinary
  exact ⟨Text.bytes_slashless proper.slashless, mt Text.bytes_inj.1 written, mt Text.bytes_inj.1 dot,
    mt Text.bytes_inj.1 level⟩

namespace Path

variable (p q : Path)

theorem pieces_raw : p.raw.pieces = p.pieces.map Text.bytes := by
  rw [RawPath.pieces, raw, Text.bytes, Text.pieces_encode, pieces, List.map_map]
  refine List.map_congr_left fun piece _ => ?_
  rw [Function.comp_apply, Text.bytes, String.toList_ofList]

theorem isAbsolute_raw : p.raw.isAbsolute = p.isAbsolute := by
  rw [RawPath.isAbsolute, raw, Text.bytes, isAbsolute]
  cases p.text.toList with
  | nil => rfl
  | cons c rest =>
    obtain ⟨b, others, encoded⟩ := List.exists_cons_of_ne_nil (Text.encode_ne_nil c)
    rw [List.flatMap_cons, encoded]
    exact Text.isSlash_encode (encoded ▸ List.mem_cons_self)

theorem endsWithSlash_raw : p.raw.endsWithSlash = p.endsWithSlash := by
  rw [RawPath.endsWithSlash, raw, Text.bytes, endsWithSlash]
  rcases List.eq_nil_or_concat' p.text.toList with nothing | ⟨front, c, ends⟩
  · rw [nothing]
    rfl
  · have last := List.getLast?_eq_some_getLast (Text.encode_ne_nil c)
    rw [ends, List.flatMap_append, List.flatMap_singleton, List.getLast?_append_of_ne_nil _ (Text.encode_ne_nil c),
      last, List.getLast?_concat]
    exact Text.isSlash_encode (List.getLast_mem _)

theorem isEmpty_raw : p.raw.bytes.isEmpty = p.isEmpty := by
  rw [raw, Text.bytes, isEmpty]
  cases p.text.toList with
  | nil => rfl
  | cons c rest => simp

theorem join_raw : (p.join q).raw = p.raw.join q.raw := by
  rw [join, RawPath.join, isAbsolute_raw, isEmpty_raw, endsWithSlash_raw]
  split
  · rfl
  split
  · simp [raw]
  · have mark : Text.bytes "/" = [0x2f] := by decide
    simp [raw, mark]

theorem descend_raw (names : List String) (piece : String) :
    RawPath.descend (names.map Text.bytes) (Text.bytes piece) =
      (if piece = "" then some names else place names piece).map (List.map Text.bytes) := by
  unfold RawPath.descend place
  simp only [Text.bytes_inj]
  by_cases written : piece = ""
  · simp [written]
  by_cases dot : piece = "."
  · simp [dot]
  by_cases dots : piece = ".."
  · subst dots
    cases names <;> simp
  · simp [written, dot, dots]

theorem foldlM_descend_raw (names pieces : List String) :
    (pieces.map Text.bytes).foldlM RawPath.descend (names.map Text.bytes) =
      (walk names (pieces.filter fun piece => piece ≠ "")).map (List.map Text.bytes) := by
  induction pieces generalizing names with
  | nil => rfl
  | cons piece rest ih =>
    rw [List.map_cons, List.foldlM_cons, descend_raw]
    by_cases written : piece = ""
    · simpa [written] using ih names
    · rw [if_neg written, List.filter_cons_of_pos (by simpa using written), walk_cons]
      cases place names piece with
      | none => rfl
      | some next => simpa using ih next

theorem text_raw : p.raw.text = p.text := Text.ofBytes_bytes p.text

/-- A path spells in bytes what it spells as a text. -/
theorem spelledLocation_raw : p.raw.spelledLocation = p.spelledLocation.map Location.raw := by
  -- Either way the components are walked, and empty pieces make no difference.
  have followed := Descent.follow_eq_walk (d := .start) rfl p.pieces
  have folded := foldlM_descend_raw [] p.pieces
  rw [← components_eq_filter_pieces] at followed folded
  rw [RawPath.spelledLocation, spelledLocation, isAbsolute_raw, pieces_raw, text_raw]
  split
  · cases walked : walk [] p.components with
    | none =>
      rw [walked] at folded
      have failed : Descent.start.follow p.pieces = none := by simpa [Descent.start, walked] using followed
      rw [failed]
      simp only [List.map_nil, Option.map_none] at folded
      rw [folded]
      rfl
    | some stack =>
      have left : (Descent.start.follow p.pieces).map Descent.names = some stack.reverse := by
        simpa [Descent.start, walked] using followed
      obtain ⟨d, found, names⟩ := Option.map_eq_some_iff.1 left
      rw [walked] at folded
      simp only [List.map_nil, Option.map_some] at folded
      rw [found, folded]
      simp [Location.raw, names, Except.map]
  · rfl

end Path

namespace RawPath

variable {p : RawPath}

theorem slashless_of_mem_pieces {piece : List UInt8} (member : piece ∈ p.pieces) : 0x2f ∉ piece := fun slash =>
  absurd (Text.cut_eq_false_of_mem_pieces member slash) (by decide)

theorem names_of_descend {names next : List (List UInt8)} {piece : List UInt8} (slashless : 0x2f ∉ piece)
    (proper : ∀ name ∈ names, RawName name) (taken : descend names piece = some next) :
    ∀ name ∈ next, RawName name := by
  unfold descend at taken
  split at taken
  · cases taken
    exact proper
  · rename_i busy
    obtain ⟨written, dot⟩ := not_or.1 busy
    split at taken
    · split at taken
      · cases taken
      · cases taken
        exact fun name member => proper name (List.mem_cons_of_mem _ member)
    · rename_i level
      cases taken
      exact List.forall_mem_cons.2 ⟨⟨slashless, written, dot, level⟩, proper⟩

theorem names_of_foldlM {names next pieces : List (List UInt8)} (slashless : ∀ piece ∈ pieces, 0x2f ∉ piece)
    (proper : ∀ name ∈ names, RawName name) (taken : pieces.foldlM descend names = some next) :
    ∀ name ∈ next, RawName name := by
  induction pieces generalizing names with
  | nil =>
    cases taken
    exact proper
  | cons piece rest ih =>
    obtain ⟨here, later⟩ := List.forall_mem_cons.1 slashless
    rw [List.foldlM_cons] at taken
    obtain ⟨between, first, behind⟩ := Option.bind_eq_some_iff.1 taken
    exact ih later (names_of_descend here proper first) behind

theorem spelledLocation_eq_ok_iff {l : RawLocation} :
    p.spelledLocation = .ok l ↔ p.isAbsolute = true ∧ p.pieces.foldlM descend [] = some l.names.reverse := by
  obtain ⟨names⟩ := l
  unfold spelledLocation
  split
  · rename_i absolute
    cases p.pieces.foldlM descend [] with
    | none => simp
    | some found => simp [absolute, ← List.reverse_eq_iff]
  · rename_i relative
    simp [relative]

theorem names_of_spelledLocation {l : RawLocation} (spelled : p.spelledLocation = .ok l) :
    ∀ name ∈ l.names, RawName name := by
  obtain ⟨_, taken⟩ := spelledLocation_eq_ok_iff.1 spelled
  intro name member
  exact names_of_foldlM (fun _ => slashless_of_mem_pieces) (by simp) taken name (List.mem_reverse.2 member)

/-- The name that a path is continued by is the last one of what it spells. -/
theorem getLast?_of_spelledLocation_join {name : List UInt8} {l : RawLocation} (raw : RawName name)
    (spelled : (p.join ⟨name⟩).spelledLocation = .ok l) : l.names.getLast? = some name := by
  have kept : ∀ b ∈ name, isSlash b = false := fun b member => decide_eq_false fun same =>
    raw.slashless (same ▸ member)
  obtain ⟨absolute, taken⟩ := spelledLocation_eq_ok_iff.1 spelled
  have relative : isAbsolute ⟨name⟩ = false := by
    obtain ⟨b, rest, rfl⟩ := List.exists_cons_of_ne_nil raw.written
    exact kept b List.mem_cons_self
  obtain ⟨front, ends⟩ : ∃ front, (p.join ⟨name⟩).bytes = front ++ 0x2f :: name := by
    rw [join, relative] at absolute ⊢
    cases written : p.bytes with
    | nil =>
      -- Behind nothing the name alone is the path, which is not absolute.
      simp [written, relative] at absolute
    | cons first rest =>
      cases slash : p.endsWithSlash with
      | false => exact ⟨p.bytes, by simp [written]⟩
      | true =>
        obtain ⟨front, last, split⟩ := (List.eq_nil_or_concat' p.bytes).resolve_left (by simp [written])
        have mark : last = 0x2f := by simpa [endsWithSlash, split, isSlash] using slash
        exact ⟨front, by simp [← written, split, mark]⟩
  have pieces : (p.join ⟨name⟩).pieces = Text.pieces isSlash front ++ [name] := by
    rw [RawPath.pieces, ends, Text.pieces_eq_splitOnP, List.splitOnP_append_cons front name rfl,
      ← Text.pieces_eq_splitOnP, ← Text.pieces_eq_splitOnP, Text.pieces_of_forall kept]
  rw [pieces, List.foldlM_append] at taken
  obtain ⟨between, _, placed⟩ := Option.bind_eq_some_iff.1 taken
  have named : descend between name = some (name :: between) := by
    simp [descend, raw.written, raw.dot, raw.level]
  rw [List.foldlM_cons, named] at placed
  have names := congrArg List.reverse (Option.some.inj placed)
  rw [List.reverse_reverse, List.reverse_cons] at names
  rw [← names, List.getLast?_concat]

end RawPath

namespace Location

variable (l : Location)

theorem path_raw : l.raw.path = l.path.raw := by
  obtain ⟨names⟩ := l
  cases names with
  | nil => rfl
  | cons first rest =>
    have slash : String.utf8EncodeChar '/' = [0x2f] := rfl
    simp [raw, RawLocation.path, path, text, Path.raw, Text.bytes, String.toList_join, List.flatMap_map,
      List.flatMap_assoc, slash]

theorem text_raw : l.raw.text = l.text := by
  rw [RawLocation.text, path_raw]
  exact Path.text_raw l.path

theorem shown_raw : l.raw.shown = l := by
  cases l
  simp [RawLocation.shown, raw, Function.comp_def]

theorem isUnder_raw (root : Location) : l.raw.isUnder root.raw = l.isUnder root := by
  rw [Bool.eq_iff_iff, RawLocation.isUnder, isUnder, List.isPrefixOf_iff_prefix, List.isPrefixOf_iff_prefix]
  exact List.prefix_map_iff_of_injective fun _ _ => Text.bytes_inj.1

theorem proper_of_raw {l : Location} (raw : ∀ name ∈ l.raw.names, RawName name) : l.Proper := fun _ member =>
  (raw _ (List.mem_map_of_mem member)).proper

theorem getLast?_of_raw {l : Location} {name : String} (ends : l.raw.names.getLast? = some (Text.bytes name)) :
    l.names.getLast? = some name := by
  rw [raw, List.getLast?_map] at ends
  obtain ⟨other, last, same⟩ := Option.map_eq_some_iff.1 ends
  rw [last, Text.bytes_inj.1 same]

end Location

namespace RawLocation

variable {l root : RawLocation}

theorem text_shown (l : RawLocation) : l.shown.text = l.text := by
  obtain ⟨names⟩ := l
  cases names with
  | nil => rfl
  | cons first rest =>
    have read := Text.readBytes_flatMap [] (first :: rest)
    refine String.toList_inj.1 (Eq.trans ?_ (read.symm.trans (String.toList_ofList (l := _)).symm))
    simp [shown, Location.text, Text.ofBytes, String.toList_join, List.flatMap_map, Text.readBytes]

theorem pieces_path (raw : ∀ name ∈ l.names, RawName name) (below : l.names ≠ []) :
    l.path.pieces = [] :: l.names := by
  have whole : ∀ name ∈ l.names, ∀ b ∈ name, RawPath.isSlash b = false := fun name member b inside =>
    decide_eq_false fun same => (raw name member).slashless (same ▸ inside)
  have spelled : l.path.bytes = [] ++ l.names.flatMap (0x2f :: ·) := by
    unfold path
    split
    · contradiction
    · rfl
  rw [RawPath.pieces, spelled, Text.pieces_flatMap rfl whole (by simp)]

/-- A location that is printed as its own path is a text. -/
theorem exists_raw_eq (raw : ∀ name ∈ l.names, RawName name) (kept : l.path = Path.raw ⟨l.text⟩) :
    ∃ m : Location, m.raw = l := by
  by_cases below : l.names = []
  · exact ⟨.top, congrArg mk below.symm⟩
  have pieces := pieces_path raw below
  rw [kept, Path.pieces_raw] at pieces
  obtain ⟨_, names, _, _, same⟩ := List.map_eq_cons_iff.1 pieces
  exact ⟨⟨names⟩, congrArg mk same⟩

theorem exists_raw_eq_of_isUnder {m : Location} (under : m.raw.isUnder root = true) :
    ∃ n : Location, n.raw = root := by
  obtain ⟨names, _, same⟩ := List.prefix_map_iff.1 (List.isPrefixOf_iff_prefix.1 under)
  exact ⟨⟨names⟩, congrArg mk same.symm⟩

end RawLocation

end WorkflowEngine
