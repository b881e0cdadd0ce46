/-!
# Text as UTF-8 bytes

`bytes` gives the UTF-8 encoding of a text, `text?` reads bytes back and fails
on bytes that encode no text.  `text?_bytes` says that reading undoes encoding.
`sequenceLength` is the number of bytes in the encoding of a character, read off
the first of them (`sequenceLength_encode`).
-/

namespace ExprLang.Utf8

/-- The UTF-8 encoding of a text. -/
def bytes (s : String) : List UInt8 := s.toUTF8.data.toList

/-- The text that some bytes encode. -/
def text? (bs : List UInt8) : Option String := String.fromUTF8? bs.toByteArray

/-- The text that some bytes encode, and no text if they encode none. -/
def text (bs : List UInt8) : String := (text? bs).getD ""

/-- How many bytes the encoding of a character has, from its first byte. -/
def sequenceLength (lead : UInt8) : Nat :=
  if lead < 0x80 then 1 else if lead < 0xE0 then 2 else if lead < 0xF0 then 3 else 4

/-- A text is encoded character by character. -/
theorem bytes_ofList (cs : List Char) :
    bytes (String.ofList cs) = cs.flatMap String.utf8EncodeChar := by
  simp [bytes, List.utf8Encode]

theorem length_bytes (s : String) : (bytes s).length = s.utf8ByteSize := rfl

theorem toByteArray_bytes (s : String) : (bytes s).toByteArray = s.toByteArray :=
  ByteArray.ext (by simp [bytes, List.data_toByteArray])

/-- Reading the encoding of a text gives the text. -/
theorem text?_bytes (s : String) : text? (bytes s) = some s := by
  rw [text?, toByteArray_bytes, String.fromUTF8?, dif_pos s.isValidUTF8]
  rfl

theorem text_bytes (s : String) : text (bytes s) = s := by rw [text, text?_bytes, Option.getD_some]

/-- The first byte of a character tells how many bytes it has. -/
theorem sequenceLength_encode (c : Char) :
    ∃ lead rest, String.utf8EncodeChar c = lead :: rest ∧
      sequenceLength lead = rest.length + 1 := by
  have below (n k : Nat) (hn : n < 256) (hk : k < 256) :
      UInt8.ofNat n < UInt8.ofNat k ↔ n < k := by
    rw [UInt8.lt_iff_toNat_lt, UInt8.toNat_ofNat_of_lt' hn, UInt8.toNat_ofNat_of_lt' hk]
  have at128 (n : Nat) (hn : n < 256) : UInt8.ofNat n < 0x80 ↔ n < 128 := below n 128 hn (by decide)
  have at224 (n : Nat) (hn : n < 256) : UInt8.ofNat n < 0xE0 ↔ n < 224 := below n 224 hn (by decide)
  have at240 (n : Nat) (hn : n < 256) : UInt8.ofNat n < 0xF0 ↔ n < 240 := below n 240 hn (by decide)
  simp only [String.utf8EncodeChar, sequenceLength]
  generalize c.val.toNat = v
  split
  · exact ⟨_, _, rfl, by rw [if_pos ((at128 v (by omega)).2 (by omega))]; rfl⟩
  split
  · refine ⟨_, _, rfl, ?_⟩
    rw [if_neg (by rw [at128 _ (by omega)]; omega), if_pos ((at224 _ (by omega)).2 (by omega))]
    rfl
  split
  · refine ⟨_, _, rfl, ?_⟩
    rw [if_neg (by rw [at128 _ (by omega)]; omega), if_neg (by rw [at224 _ (by omega)]; omega),
      if_pos ((at240 _ (by omega)).2 (by omega))]
    rfl
  · refine ⟨_, _, rfl, ?_⟩
    rw [if_neg (by rw [at128 _ (by omega)]; omega), if_neg (by rw [at224 _ (by omega)]; omega),
      if_neg (by rw [at240 _ (by omega)]; omega)]
    rfl

end ExprLang.Utf8
