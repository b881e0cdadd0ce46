import ExprLang.Text.Utf8

/-!
# Classes of characters in encoded text

An ASCII character is encoded as one byte, and every byte of any other character is
outside ASCII.  So a test of bytes that only ASCII passes is a test of characters
(`Marks`), and a run of bytes that pass it is the encoding of a run of characters
(`Marks.takeWhile_encode`).
-/

namespace ExprLang.Utf8

/-- The encoding of some characters. -/
def encode (cs : List Char) : List UInt8 := cs.flatMap String.utf8EncodeChar

/-- How many bytes some characters have. -/
def width (cs : List Char) : Nat := (encode cs).length

@[simp] theorem encode_nil : encode [] = [] := rfl

theorem encode_cons (c : Char) (cs : List Char) :
    encode (c :: cs) = String.utf8EncodeChar c ++ encode cs := List.flatMap_cons

theorem encode_append (cs ds : List Char) : encode (cs ++ ds) = encode cs ++ encode ds :=
  List.flatMap_append

@[simp] theorem width_nil : width [] = 0 := rfl

theorem width_append (cs ds : List Char) : width (cs ++ ds) = width cs + width ds := by
  rw [width, encode_append, List.length_append, width, width]

theorem bytes_eq_encode (s : String) : bytes s = encode s.toList := by
  rw [encode, ← bytes_ofList, String.ofList_toList]

theorem width_toList (s : String) : width s.toList = s.utf8ByteSize := by
  rw [width, ← bytes_eq_encode, length_bytes]

/-- A text has at least the bytes that it starts with. -/
theorem width_le_of_append {s : String} {cs ds : List Char} (h : s.toList = cs ++ ds) :
    width cs ≤ s.utf8ByteSize := by
  rw [← width_toList, h, width_append]
  exact Nat.le_add_right _ _

theorem bytes_inj {s t : String} : bytes s = bytes t ↔ s = t := by
  constructor
  · intro h
    rw [← text_bytes s, h, text_bytes]
  · intro h
    rw [h]

/-- Characters are read back from their encoding. -/
theorem text?_encode (cs : List Char) : text? (encode cs) = some (String.ofList cs) := by
  rw [encode, ← bytes_ofList, text?_bytes]

theorem text_encode (cs : List Char) : text (encode cs) = String.ofList cs := by
  rw [text, text?_encode, Option.getD_some]

/-! ## First bytes -/

/-- An ASCII character is its own byte. -/
theorem encode_ascii {c : Char} (h : c.toNat < 128) :
    String.utf8EncodeChar c = [UInt8.ofNat c.toNat] := by
  have hle : c.val.toNat ≤ 0x7f := Nat.le_of_lt_succ h
  rw [String.utf8EncodeChar]
  exact if_pos hle

/-- Every byte of any other character is outside ASCII. -/
theorem le_of_mem_utf8EncodeChar {c : Char} (h : 128 ≤ c.toNat) :
    ∀ b ∈ String.utf8EncodeChar c, 128 ≤ b.toNat := by
  have hgt : ¬ c.val.toNat ≤ 0x7f := Nat.not_le.2 h
  simp only [String.utf8EncodeChar, if_neg hgt]
  split
  · intro b hb
    simp at hb
    rcases hb with rfl | rfl <;> simp <;> omega
  split
  · intro b hb
    simp at hb
    rcases hb with rfl | rfl | rfl <;> simp <;> omega
  · intro b hb
    simp at hb
    rcases hb with rfl | rfl | rfl | rfl <;> simp <;> omega

/-- So is its first byte. -/
theorem encode_not_ascii {c : Char} (h : 128 ≤ c.toNat) :
    ∃ lead tail, String.utf8EncodeChar c = lead :: tail ∧ 128 ≤ lead.toNat := by
  obtain ⟨lead, tail, he, -⟩ := sequenceLength_encode c
  exact ⟨lead, tail, he, le_of_mem_utf8EncodeChar h lead (he ▸ List.mem_cons_self)⟩

/-- The byte of an ASCII character is in no other one. -/
theorem eq_of_mem_utf8EncodeChar {c d : Char} (hd : d.toNat < 128)
    (h : UInt8.ofNat d.toNat ∈ String.utf8EncodeChar c) : c = d := by
  have toNat_ofNat {n : Nat} (hn : n < 128) : (UInt8.ofNat n).toNat = n :=
    UInt8.toNat_ofNat_of_lt' (Nat.lt_trans hn (by decide))
  by_cases hc : c.toNat < 128
  · rw [encode_ascii hc, List.mem_singleton] at h
    rw [← Char.toNat_inj, ← toNat_ofNat hc, ← toNat_ofNat hd, h]
  · have hle := le_of_mem_utf8EncodeChar (Nat.not_lt.1 hc) _ h
    rw [toNat_ofNat hd] at hle
    exact absurd hd (Nat.not_lt.2 hle)

/-- An ASCII character is among some others where its byte is. -/
theorem mem_encode_iff {d : Char} (hd : d.toNat < 128) {cs : List Char} :
    UInt8.ofNat d.toNat ∈ encode cs ↔ d ∈ cs := by
  constructor
  · intro h
    obtain ⟨c, hc, hmem⟩ := List.mem_flatMap.1 h
    rwa [← eq_of_mem_utf8EncodeChar hd hmem]
  · intro h
    exact List.mem_flatMap.2 ⟨d, h, by simp [encode_ascii hd]⟩

/-- It is there as often as the byte is. -/
theorem count_encode {d : Char} (hd : d.toNat < 128) (cs : List Char) :
    (encode cs).count (UInt8.ofNat d.toNat) = cs.count d := by
  induction cs with
  | nil => rfl
  | cons c cs ih =>
    rw [encode_cons, List.count_append, ih, Nat.add_comm]
    by_cases hc : c = d
    · subst hc
      simp [encode_ascii hd]
    · rw [List.count_cons_of_ne hc,
        List.count_eq_zero.2 fun h => hc (eq_of_mem_utf8EncodeChar hd h)]
      rfl

/-- The last byte of a character is that of an ASCII character only where it is that
character. -/
theorem exists_encode_eq_concat (c : Char) :
    ∃ start last, String.utf8EncodeChar c = start ++ [last] ∧
      ∀ d : Char, d.toNat < 128 → last = UInt8.ofNat d.toNat → c = d := by
  obtain ⟨lead, tail, he, -⟩ := sequenceLength_encode c
  have hne : String.utf8EncodeChar c ≠ [] := by simp [he]
  refine ⟨_, _, (List.dropLast_concat_getLast hne).symm, fun d hd h => ?_⟩
  exact eq_of_mem_utf8EncodeChar hd (h ▸ List.getLast_mem hne)

/-! ## Tests that only ASCII passes -/

/-- Does a test of bytes pass where a test of characters does, and only in ASCII? -/
structure Marks (byte : UInt8 → Bool) (char : Char → Bool) : Prop where
  /-- The tests agree on ASCII. -/
  ascii : ∀ n < 128, byte (UInt8.ofNat n) = char (Char.ofNat n)
  /-- A byte that passes is in ASCII. -/
  byte_lt : ∀ n < 256, byte (UInt8.ofNat n) → n < 128
  /-- A character that passes is in ASCII. -/
  char_lt : ∀ c : Char, char c → c.toNat < 128

namespace Marks

variable {byte : UInt8 → Bool} {char : Char → Bool} {c : Char} {lead : UInt8}
  {tail : List UInt8}

/-- The first byte of a character passes where the character does. -/
theorem lead_eq (h : Marks byte char) (he : String.utf8EncodeChar c = lead :: tail) :
    byte lead = char c := by
  by_cases hc : c.toNat < 128
  · rw [encode_ascii hc] at he
    rw [← List.head_eq_of_cons_eq he, h.ascii _ hc, Char.ofNat_toNat]
  · obtain ⟨lead', tail', he', hl⟩ := encode_not_ascii (Nat.not_lt.1 hc)
    obtain rfl := List.head_eq_of_cons_eq (he.symm.trans he')
    have hbyte : ¬ byte lead := by
      intro hb
      rw [← UInt8.ofNat_toNat (x := lead)] at hb
      exact absurd (h.byte_lt _ lead.toNat_lt hb) (Nat.not_lt.2 hl)
    have hchar : ¬ char c := fun hp => hc (h.char_lt c hp)
    rw [Bool.eq_false_iff.2 hbyte, Bool.eq_false_iff.2 hchar]

/-- A character that passes has one byte. -/
theorem tail_eq (h : Marks byte char) (he : String.utf8EncodeChar c = lead :: tail)
    (hc : char c) : tail = [] := by
  rw [encode_ascii (h.char_lt c hc)] at he
  exact (List.tail_eq_of_cons_eq he).symm

/-- The bytes of a run of characters are a run of bytes. -/
theorem takeWhile_encode (h : Marks byte char) (cs : List Char) :
    (encode cs).takeWhile byte = encode (cs.takeWhile char) := by
  induction cs with
  | nil => rfl
  | cons c cs ih =>
    obtain ⟨lead, tail, he, -⟩ := sequenceLength_encode c
    rw [encode_cons, he, List.cons_append, List.takeWhile_cons, List.takeWhile_cons, h.lead_eq he]
    cases hc : char c with
    | false => rfl
    | true => simp [h.tail_eq he hc, ih, encode_cons, he]

/-- A run of bytes that pass is as long as its characters are wide. -/
theorem length_takeWhile_encode (h : Marks byte char) (cs : List Char) :
    ((encode cs).takeWhile byte).length = width (cs.takeWhile char) := by
  rw [h.takeWhile_encode, width]

end Marks

end ExprLang.Utf8
