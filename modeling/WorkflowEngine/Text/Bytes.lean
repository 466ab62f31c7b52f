import WorkflowEngine.Text.Pieces

/-! Texts in bytes.

A text is kept as the UTF-8 bytes of its characters. Bytes from elsewhere need not be those of a text, and are shown
as one all the same: what begins a character and does not go on as one is shown as a replacement character, and so is
each byte that begins none.
-/

set_option autoImplicit false

namespace WorkflowEngine.Text

def bytes (s : String) : List UInt8 := s.toList.flatMap String.utf8EncodeChar

def replacement : Char := '\uFFFD'

/-- A character that is not read to its end: the value of its bytes so far, the range of the next one, and how many
follow that one. -/
structure Started where
  value : Nat
  low : Nat
  high : Nat
  more : Nat
  continues : 0x80 ≤ low

/-- What a byte shows between characters, and the character that it starts. No character is started that would be
spelled longer than it has to be, and none that is a surrogate or above the last one. -/
def lead (b : Nat) : List Char × Option Started :=
  if b < 0x80 then ([Char.ofNat b], none)
  else if b < 0xc2 then ([replacement], none)
  else if b < 0xe0 then ([], some ⟨b - 0xc0, 0x80, 0xbf, 0, by decide⟩)
  else if b < 0xf0 then
    ([], some ⟨b - 0xe0, if b = 0xe0 then 0xa0 else 0x80, if b = 0xed then 0x9f else 0xbf, 1, by split <;> decide⟩)
  else if b < 0xf5 then
    ([], some ⟨b - 0xf0, if b = 0xf0 then 0x90 else 0x80, if b = 0xf4 then 0x8f else 0xbf, 2, by split <;> decide⟩)
  else ([replacement], none)

def readByte : Option Started → Nat → List Char × Option Started
  | none, b => lead b
  | some c, b =>
    if c.low ≤ b ∧ b ≤ c.high then
      let value := 0x40 * c.value + (b - 0x80)
      match c.more with
      | 0 => ([Char.ofNat value], none)
      | more + 1 => ([], some ⟨value, 0x80, 0xbf, more, by decide⟩)
    else (replacement :: (lead b).1, (lead b).2)

def readBytes (started : Option Started) : List UInt8 → List Char
  | [] => if started.isSome then [replacement] else []
  | b :: rest => (readByte started b.toNat).1 ++ readBytes (readByte started b.toNat).2 rest

def ofBytes (bs : List UInt8) : String := String.ofList (readBytes none bs)

section Reading

variable {n m l k v : Nat} {rest : List UInt8}

theorem toNat_ofNat_of_lt (byte : n < 0x100) : (UInt8.ofNat n).toNat = n := by
  rw [UInt8.toNat_ofNat']
  exact Nat.mod_eq_of_lt byte

theorem readBytes_ofNat (byte : n < 0x100) (started : Option Started) :
    readBytes started (.ofNat n :: rest) =
      (readByte started n).1 ++ readBytes (readByte started n).2 rest := by
  rw [readBytes, toNat_ofNat_of_lt byte]

variable {value low high more : Nat} {continues : 0x80 ≤ low}

theorem readBytes_last (byte : m < 0x100) (least : low ≤ m) (most : m ≤ high)
    (all : 0x40 * value + (m - 0x80) = v) :
    readBytes (some ⟨value, low, high, 0, continues⟩) (.ofNat m :: rest) = Char.ofNat v :: readBytes none rest := by
  simp [readBytes_ofNat byte, readByte, least, most, all]

theorem readBytes_next (byte : m < 0x100) (least : low ≤ m) (most : m ≤ high)
    (all : 0x40 * value + (m - 0x80) = v) :
    readBytes (some ⟨value, low, high, more + 1, continues⟩) (.ofNat m :: rest) =
      readBytes (some ⟨v, 0x80, 0xbf, more, by decide⟩) rest := by
  simp [readBytes_ofNat byte, readByte, least, most, all]

theorem readBytes_one (ascii : n < 0x80) :
    readBytes none (.ofNat n :: rest) = Char.ofNat n :: readBytes none rest := by
  simp [readBytes_ofNat (show n < 0x100 by omega), readByte, lead, ascii]

theorem readBytes_two (first : 0xc2 ≤ n ∧ n < 0xe0) (second : 0x80 ≤ m ∧ m ≤ 0xbf)
    (all : 0x40 * (n - 0xc0) + (m - 0x80) = v) :
    readBytes none (.ofNat n :: .ofNat m :: rest) = Char.ofNat v :: readBytes none rest := by
  have led : lead n = ([], some ⟨n - 0xc0, 0x80, 0xbf, 0, by decide⟩) := by
    rw [lead, if_neg (by omega), if_neg (by omega), if_pos first.2]
  rw [readBytes_ofNat (by omega), readByte, led, List.nil_append]
  exact readBytes_last (by omega) second.1 second.2 all

theorem readBytes_three (first : 0xe0 ≤ n ∧ n < 0xf0) (second : 0x80 ≤ m ∧ m ≤ 0xbf)
    (short : n = 0xe0 → 0xa0 ≤ m) (scalar : n = 0xed → m ≤ 0x9f) (third : 0x80 ≤ l ∧ l ≤ 0xbf)
    (all : 0x40 * (0x40 * (n - 0xe0) + (m - 0x80)) + (l - 0x80) = v) :
    readBytes none (.ofNat n :: .ofNat m :: .ofNat l :: rest) = Char.ofNat v :: readBytes none rest := by
  have led : lead n = ([], some ⟨n - 0xe0, if n = 0xe0 then 0xa0 else 0x80, if n = 0xed then 0x9f else 0xbf, 1,
      by split <;> decide⟩) := by
    rw [lead, if_neg (by omega), if_neg (by omega), if_neg (by omega), if_pos first.2]
  rw [readBytes_ofNat (by omega), readByte, led, List.nil_append,
    readBytes_next (by omega) (by split <;> omega) (by split <;> omega) rfl]
  exact readBytes_last (by omega) third.1 third.2 all

theorem readBytes_four (first : 0xf0 ≤ n ∧ n < 0xf5) (second : 0x80 ≤ m ∧ m ≤ 0xbf)
    (short : n = 0xf0 → 0x90 ≤ m) (scalar : n = 0xf4 → m ≤ 0x8f) (third : 0x80 ≤ l ∧ l ≤ 0xbf)
    (fourth : 0x80 ≤ k ∧ k ≤ 0xbf)
    (all : 0x40 * (0x40 * (0x40 * (n - 0xf0) + (m - 0x80)) + (l - 0x80)) + (k - 0x80) = v) :
    readBytes none (.ofNat n :: .ofNat m :: .ofNat l :: .ofNat k :: rest) = Char.ofNat v :: readBytes none rest := by
  have led : lead n = ([], some ⟨n - 0xf0, if n = 0xf0 then 0x90 else 0x80, if n = 0xf4 then 0x8f else 0xbf, 2,
      by split <;> decide⟩) := by
    rw [lead, if_neg (by omega), if_neg (by omega), if_neg (by omega), if_neg (by omega), if_pos first.2]
  rw [readBytes_ofNat (by omega), readByte, led, List.nil_append,
    readBytes_next (by omega) (by split <;> omega) (by split <;> omega) rfl,
    readBytes_next (by omega) third.1 third.2 rfl]
  exact readBytes_last (by omega) fourth.1 fourth.2 all

theorem readBytes_encode (c : Char) (rest : List UInt8) :
    readBytes none (String.utf8EncodeChar c ++ rest) = c :: readBytes none rest := by
  have valid : c.toNat < 0xd800 ∨ 0xdfff < c.toNat ∧ c.toNat < 0x110000 := c.valid
  have same : Char.ofNat c.toNat = c := Char.ofNat_toNat c
  generalize spelled : c.toNat = v at valid same
  have value : c.val.toNat = v := spelled
  -- The number of the character is spelled in one of four widths.
  unfold String.utf8EncodeChar
  dsimp only
  rw [value, ← same]
  split
  · exact readBytes_one (by omega)
  split
  · exact readBytes_two (by omega) (by omega) (by omega)
  split
  · exact readBytes_three (by omega) (by omega) (by omega) (by omega) (by omega) (by omega)
  · exact readBytes_four (by omega) (by omega) (by omega) (by omega) (by omega) (by omega) (by omega)

end Reading

theorem readBytes_bytes (s : String) : readBytes none (bytes s) = s.toList := by
  rw [bytes]
  induction s.toList with
  | nil => rfl
  | cons c rest ih => rw [List.flatMap_cons, readBytes_encode, ih]

@[simp]
theorem ofBytes_bytes (s : String) : ofBytes (bytes s) = s := by
  rw [ofBytes, readBytes_bytes, String.ofList_toList]

theorem bytes_inj {s t : String} : bytes s = bytes t ↔ s = t :=
  ⟨fun same => by rw [← ofBytes_bytes s, same, ofBytes_bytes], congrArg bytes⟩

@[simp]
theorem bytes_append (s t : String) : bytes (s ++ t) = bytes s ++ bytes t := by
  simp [bytes]

/-- A slash ends what a byte before it has started. -/
theorem readBytes_slash (started : Option Started) (first rest : List UInt8) :
    readBytes started (first ++ 0x2f :: rest) = readBytes started first ++ '/' :: readBytes none rest := by
  induction first generalizing started with
  | nil =>
    cases started with
    | none => rfl
    | some c =>
      have other : ¬(c.low ≤ (0x2f : UInt8).toNat ∧ (0x2f : UInt8).toNat ≤ c.high) := fun within =>
        absurd (Nat.le_trans c.continues within.1) (by decide)
      simp only [List.nil_append, readBytes, readByte, if_neg other]
      rfl
  | cons b first ih => rw [List.cons_append, readBytes, readBytes, ih, List.append_assoc]

theorem readBytes_flatMap (first : List UInt8) (names : List (List UInt8)) :
    readBytes none (first ++ names.flatMap (0x2f :: ·)) =
      readBytes none first ++ names.flatMap fun name => '/' :: readBytes none name := by
  induction names generalizing first with
  | nil => simp
  | cons name rest ih =>
    rw [List.flatMap_cons, List.cons_append, readBytes_slash, ih]
    rfl

/-- No other character has the byte of a slash in it. -/
theorem eq_slash_of_mem_encode {c : Char} (member : 0x2f ∈ String.utf8EncodeChar c) : c = '/' := by
  obtain ⟨first, behind, split⟩ := List.append_of_mem member
  have read := readBytes_encode c []
  rw [List.append_nil, split, readBytes_slash] at read
  have among : '/' ∈ c :: readBytes none [] := read ▸ by simp
  exact (List.mem_singleton.1 among).symm

end WorkflowEngine.Text
