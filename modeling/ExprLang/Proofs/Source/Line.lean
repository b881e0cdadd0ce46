import ExprLang.Proofs.Text.Encoding
import ExprLang.Source.Line

/-!
# Lines by their newlines

The line of an offset is found line by line from the start of the source.  Here it is told from
the newlines around the offset.  Its number is one more than the newlines in front of the offset.
It starts behind the last of these (`behindLast`) and goes on through the first one that is not in
front (`throughFirst`), and its column is what of it is in front (`Line.IsAt`).

All of this is said of bytes, for an offset may fall inside a character.  A newline is one byte
that no other character has, and so the newlines of a text are those of its encoding.
-/

namespace ExprLang

open Utf8

/-! ## Cutting at an element -/

section Cut

variable {α : Type} [DecidableEq α] {a : α} {xs ys : List α}

/-- What is behind the last `a`, and all there is without an `a`. -/
def behindLast (a : α) (xs : List α) : List α := (xs.reverse.takeWhile (· ≠ a)).reverse

/-- What goes up to the first `a` and with it, and all there is without an `a`. -/
def throughFirst (a : α) (xs : List α) : List α :=
  xs.takeWhile (· ≠ a) ++ (xs.dropWhile (· ≠ a)).take 1

theorem takeWhile_ne_append (h : a ∉ xs) (ys : List α) :
    (xs ++ ys).takeWhile (· ≠ a) = xs ++ ys.takeWhile (· ≠ a) := by
  apply List.takeWhile_append_of_pos
  intro x hx
  exact decide_eq_true (ne_of_mem_of_not_mem hx h)

theorem dropWhile_ne_append (h : a ∉ xs) (ys : List α) :
    (xs ++ ys).dropWhile (· ≠ a) = ys.dropWhile (· ≠ a) := by
  apply List.dropWhile_append_of_pos
  intro x hx
  exact decide_eq_true (ne_of_mem_of_not_mem hx h)

/-- Without an `a` it goes through everything and on. -/
theorem throughFirst_append (h : a ∉ xs) (ys : List α) :
    throughFirst a (xs ++ ys) = xs ++ throughFirst a ys := by
  rw [throughFirst, takeWhile_ne_append h, dropWhile_ne_append h, List.append_assoc, throughFirst]

theorem throughFirst_cons_self (a : α) (xs : List α) : throughFirst a (a :: xs) = [a] := by
  simp [throughFirst]

theorem throughFirst_of_not_mem (h : a ∉ xs) : throughFirst a xs = xs := by
  have happ := throughFirst_append h []
  simpa [throughFirst] using happ

theorem throughFirst_eq_nil_iff : throughFirst a xs = [] ↔ xs = [] := by
  cases xs with
  | nil => simp [throughFirst]
  | cons x xs => by_cases h : x = a <;> simp [throughFirst, h]

theorem exists_throughFirst_append (a : α) (xs : List α) :
    ∃ back, xs = throughFirst a xs ++ back := by
  refine ⟨(xs.dropWhile (· ≠ a)).drop 1, ?_⟩
  rw [throughFirst, List.append_assoc, List.take_append_drop, List.takeWhile_append_dropWhile]

theorem behindLast_of_not_mem (h : a ∉ xs) : behindLast a xs = xs := by
  have htake := takeWhile_ne_append (mt List.mem_reverse.1 h) []
  rw [List.append_nil, List.takeWhile_nil, List.append_nil] at htake
  rw [behindLast, htake, List.reverse_reverse]

/-- Only what comes behind an `a` matters for what is behind the last one. -/
theorem behindLast_append_cons (xs ys : List α) :
    behindLast a (xs ++ a :: ys) = behindLast a ys := by
  have hcut : (xs ++ a :: ys).reverse = ys.reverse ++ a :: xs.reverse := by simp
  have hstop : (a :: xs.reverse).takeWhile (· ≠ a) = [] := by simp
  rw [behindLast, hcut, List.takeWhile_append, hstop, List.append_nil, behindLast]
  split
  · next hall =>
    rw [(List.takeWhile_prefix _).eq_of_length hall]
  · rfl

theorem not_mem_behindLast (a : α) (xs : List α) : a ∉ behindLast a xs := by
  intro h
  have hne := List.all_eq_true.1 List.all_takeWhile a (List.mem_reverse.1 h)
  simp at hne

theorem behindLast_eq_nil_iff : behindLast a xs = [] ↔ xs = [] ∨ xs.getLast? = some a := by
  rcases List.eq_nil_or_concat xs with rfl | ⟨ys, y, rfl⟩
  · simp [behindLast]
  · by_cases h : y = a <;> simp [behindLast, h]

/-- In front of what is behind the last `a` stands nothing, or an `a` at the end. -/
theorem exists_append_behindLast (a : α) (xs : List α) :
    ∃ front, xs = front ++ behindLast a xs ∧ front.count a = xs.count a ∧
      (front = [] ∨ front.getLast? = some a) := by
  by_cases h : a ∈ xs
  · obtain ⟨ys, zs, hcut, hys⟩ := List.eq_append_cons_of_mem (List.mem_reverse.2 h)
    have hxs : xs = zs.reverse ++ a :: ys.reverse := by
      rw [← List.reverse_reverse xs, hcut]
      simp
    have hnone : a ∉ ys.reverse := by simpa using hys
    refine ⟨zs.reverse ++ [a], ?_, ?_, .inr (by simp)⟩
    · rw [hxs, behindLast_append_cons, behindLast_of_not_mem hnone]
      simp
    · rw [hxs]
      simp [List.count_eq_zero.2 hys]
  · refine ⟨[], ?_, ?_, .inl rfl⟩
    · rw [behindLast_of_not_mem h]
      rfl
    · rw [List.count_eq_zero.2 h]
      rfl

end Cut

/-! ## Newlines in encoded text -/

/-- The byte of a newline. -/
def newlineByte : UInt8 := 0x0A

theorem encode_newline (cs : List Char) : encode ('\n' :: cs) = newlineByte :: encode cs := rfl

theorem newlineByte_mem_encode_iff {cs : List Char} : newlineByte ∈ encode cs ↔ '\n' ∈ cs :=
  mem_encode_iff (d := '\n') (by decide)

/-- What is behind the last newline of a text is so in its encoding. -/
theorem behindLast_encode {front start : List Char}
    (hfront : front = [] ∨ front.getLast? = some '\n') (hstart : '\n' ∉ start) :
    behindLast newlineByte (encode (front ++ start)) = encode start := by
  have hbytes : newlineByte ∉ encode start := mt newlineByte_mem_encode_iff.1 hstart
  rcases hfront with rfl | hlast
  · exact behindLast_of_not_mem hbytes
  · obtain ⟨front, rfl⟩ := List.getLast?_eq_some_iff.1 hlast
    rw [← List.append_cons, encode_append, encode_newline, behindLast_append_cons,
      behindLast_of_not_mem hbytes]

/-- What goes through the first newline of a text does so in its encoding. -/
theorem throughFirst_encode {back rest : List Char} (hback : '\n' ∉ back)
    (hrest : ∀ c ∈ rest.head?, c = '\n') :
    throughFirst newlineByte (encode (back ++ rest)) = encode (back ++ rest.take 1) := by
  rw [encode_append, throughFirst_append (mt newlineByte_mem_encode_iff.1 hback), encode_append]
  cases rest with
  | nil => rfl
  | cons c cs =>
    obtain rfl := hrest c rfl
    rw [encode_newline, throughFirst_cons_self]
    rfl

theorem byteLength_eq_width (cs : List Char) : byteLength cs = width cs := by
  induction cs with
  | nil => rfl
  | cons c cs ih =>
    rw [byteLength, ih, width, width, encode_cons, List.length_append,
      String.length_utf8EncodeChar]

/-! ## Line by line -/

/-- The last line goes to the end. -/
theorem lineFrom_of_not_mem {cs : List Char} (h : '\n' ∉ cs) (number position : Nat) :
    lineFrom number cs position =
      if position ≤ width cs then some ⟨number, String.ofList cs, position⟩ else none := by
  have hline := takeWhile_ne_append h []
  have hrest := dropWhile_ne_append h []
  rw [List.append_nil, List.takeWhile_nil, List.append_nil] at hline
  rw [List.append_nil, List.dropWhile_nil] at hrest
  rw [lineFrom]
  split
  · rw [hline, byteLength_eq_width]
  · next hcut => cases hrest.symm.trans hcut

/-- Every other line goes through its newline. -/
theorem lineFrom_append_cons {cs : List Char} (h : '\n' ∉ cs) (rest : List Char)
    (number position : Nat) :
    lineFrom number (cs ++ '\n' :: rest) position =
      if position < width cs + 1 then some ⟨number, String.ofList (cs ++ ['\n']), position⟩
      else lineFrom (number + 1) rest (position - (width cs + 1)) := by
  have hline := takeWhile_ne_append h ('\n' :: rest)
  have hrest := dropWhile_ne_append h ('\n' :: rest)
  rw [List.takeWhile_cons_of_neg (by simp), List.append_nil] at hline
  rw [List.dropWhile_cons_of_neg (by simp)] at hrest
  have hwidth : byteLength (cs ++ ['\n']) = width cs + 1 := by
    rw [byteLength_append, byteLength_eq_width]
    rfl
  rw [lineFrom]
  split
  · next hcut => cases hrest.symm.trans hcut
  · next newline rest' hcut =>
    obtain ⟨rfl, rfl⟩ := List.cons.inj (hrest.symm.trans hcut)
    simp only [hline, hwidth]

/-- What holds of a last line and of a line in front of others holds of every text. -/
theorem lines_induction {motive : List Char → Prop} (last : ∀ cs, '\n' ∉ cs → motive cs)
    (line : ∀ cs rest, '\n' ∉ cs → motive rest → motive (cs ++ '\n' :: rest))
    (cs : List Char) : motive cs := by
  induction hlen : cs.length using Nat.strongRecOn generalizing cs with
  | ind n ih =>
    subst hlen
    by_cases h : '\n' ∈ cs
    · obtain ⟨start, rest, rfl, hstart⟩ := List.eq_append_cons_of_mem h
      refine line start rest hstart (ih rest.length ?_ rest rfl)
      simp
      omega
    · exact last cs h

/-- The line `l` is that of the offset `position` of some bytes, whose first line has number
`first`. -/
structure Line.IsAt (first : Nat) (bs : List UInt8) (position : Nat) (l : Line) : Prop where
  /-- The offset is in the bytes or at their end. -/
  le_length : position ≤ bs.length
  /-- The lines in front are counted by their newlines. -/
  number_eq : l.number = first + (bs.take position).count newlineByte
  /-- It starts behind the last newline in front and goes through the next one. -/
  text_eq : bytes l.text =
    behindLast newlineByte (bs.take position) ++ throughFirst newlineByte (bs.drop position)
  /-- What of it is in front of the offset. -/
  column_eq : l.column = (behindLast newlineByte (bs.take position)).length

namespace Line.IsAt

variable {first position : Nat} {bs : List UInt8} {l l' : Line}

/-- There is one such line. -/
theorem unique (h : l.IsAt first bs position) (h' : l'.IsAt first bs position) : l = l' := by
  have hnumber := h.number_eq.trans h'.number_eq.symm
  have htext := bytes_inj.1 (h.text_eq.trans h'.text_eq.symm)
  have hcolumn := h.column_eq.trans h'.column_eq.symm
  cases l
  cases l'
  cases hnumber
  cases htext
  cases hcolumn
  rfl

/-- The lines in front of it and its column make up the offset. -/
theorem exists_cut (h : l.IsAt first bs position) :
    ∃ front back, bs = front ++ bytes l.text ++ back ∧ front.length + l.column = position ∧
      first + front.count newlineByte = l.number ∧
      (front = [] ∨ front.getLast? = some newlineByte) := by
  obtain ⟨hle, hnumber, htext, hcolumn⟩ := h
  obtain ⟨front, hfront, hcount, hend⟩ :=
    exists_append_behindLast newlineByte (bs.take position)
  obtain ⟨back, hback⟩ := exists_throughFirst_append newlineByte (bs.drop position)
  refine ⟨front, back, ?_, ?_, ?_, hend⟩
  · rw [htext, ← List.append_assoc, ← hfront, List.append_assoc, ← hback,
      List.take_append_drop]
  · rw [hcolumn, ← List.length_append, ← hfront, List.length_take, Nat.min_eq_left hle]
  · rw [hnumber, hcount]

/-- It is empty just at the end of an empty text and behind a final newline. -/
theorem text_eq_empty_iff (h : l.IsAt first bs position) :
    l.text = "" ↔ position = bs.length ∧ (bs = [] ∨ bs.getLast? = some newlineByte) := by
  have hempty : l.text = "" ↔ bytes l.text = [] := by
    rw [← bytes_inj]
    rfl
  rw [hempty, h.text_eq, List.append_eq_nil_iff, behindLast_eq_nil_iff, throughFirst_eq_nil_iff,
    List.drop_eq_nil_iff]
  constructor
  · rintro ⟨hend, hge⟩
    rw [List.take_of_length_le hge] at hend
    exact ⟨Nat.le_antisymm h.le_length hge, hend⟩
  · rintro ⟨rfl, hend⟩
    rw [List.take_length]
    exact ⟨hend, Nat.le_refl _⟩

end Line.IsAt

theorem Line.IsAt.last {cs : List Char} {first position : Nat} (h : '\n' ∉ cs)
    (hle : position ≤ width cs) :
    Line.IsAt first (encode cs) position ⟨first, String.ofList cs, position⟩ := by
  have hcs : newlineByte ∉ encode cs := mt newlineByte_mem_encode_iff.1 h
  have htake : newlineByte ∉ (encode cs).take position := mt List.mem_of_mem_take hcs
  have hdrop : newlineByte ∉ (encode cs).drop position := mt List.mem_of_mem_drop hcs
  constructor
  · exact hle
  · rw [List.count_eq_zero.2 htake]
    rfl
  · rw [behindLast_of_not_mem htake, throughFirst_of_not_mem hdrop, List.take_append_drop]
    exact bytes_ofList cs
  · rw [behindLast_of_not_mem htake, List.length_take]
    exact (Nat.min_eq_left hle).symm

theorem Line.IsAt.line {cs : List Char} {first position : Nat} (h : '\n' ∉ cs) (rest : List Char)
    (hle : position ≤ width cs) :
    Line.IsAt first (encode (cs ++ '\n' :: rest)) position
      ⟨first, String.ofList (cs ++ ['\n']), position⟩ := by
  have hcs : newlineByte ∉ encode cs := mt newlineByte_mem_encode_iff.1 h
  have htake : newlineByte ∉ (encode cs).take position := mt List.mem_of_mem_take hcs
  have hdrop : newlineByte ∉ (encode cs).drop position := mt List.mem_of_mem_drop hcs
  have hbytes : encode (cs ++ '\n' :: rest) = encode cs ++ newlineByte :: encode rest := by
    rw [encode_append, encode_newline]
  have hfront : (encode (cs ++ '\n' :: rest)).take position = (encode cs).take position := by
    rw [hbytes, List.take_append_of_le_length hle]
  have hback : (encode (cs ++ '\n' :: rest)).drop position =
      (encode cs).drop position ++ newlineByte :: encode rest := by
    rw [hbytes, List.drop_append_of_le_length hle]
  constructor
  · rw [hbytes, List.length_append]
    exact Nat.le_trans hle (Nat.le_add_right _ _)
  · rw [hfront, List.count_eq_zero.2 htake]
    rfl
  · rw [hfront, hback, behindLast_of_not_mem htake, throughFirst_append hdrop,
      throughFirst_cons_self, ← List.append_assoc, List.take_append_drop]
    exact (bytes_ofList _).trans (encode_append cs ['\n'])
  · rw [hfront, behindLast_of_not_mem htake, List.length_take]
    exact (Nat.min_eq_left hle).symm

theorem Line.IsAt.further {cs rest : List Char} {first position : Nat} {l : Line} (h : '\n' ∉ cs)
    (hl : l.IsAt (first + 1) (encode rest) position) :
    l.IsAt first (encode (cs ++ '\n' :: rest)) (width cs + 1 + position) := by
  have hcs : newlineByte ∉ encode cs := mt newlineByte_mem_encode_iff.1 h
  have hbytes : encode (cs ++ '\n' :: rest) = (encode cs ++ [newlineByte]) ++ encode rest := by
    rw [encode_append, encode_newline, List.append_cons]
  have hlen : (encode cs ++ [newlineByte]).length = width cs + 1 := by
    rw [List.length_append, width]
    rfl
  have hfront : (encode (cs ++ '\n' :: rest)).take (width cs + 1 + position) =
      encode cs ++ newlineByte :: (encode rest).take position := by
    rw [hbytes, ← hlen, List.take_length_add_append, List.append_assoc]
    rfl
  have hback : (encode (cs ++ '\n' :: rest)).drop (width cs + 1 + position) =
      (encode rest).drop position := by
    rw [hbytes, ← hlen, List.drop_length_add_append]
  obtain ⟨hle, hnumber, htext, hcolumn⟩ := hl
  constructor
  · rw [hbytes, List.length_append, hlen]
    omega
  · rw [hnumber, hfront]
    simp [List.count_eq_zero.2 hcs]
    omega
  · rw [htext, hfront, hback, behindLast_append_cons]
  · rw [hcolumn, hfront, behindLast_append_cons]

/-- The line that is found is the one told from the newlines, and none is found just for an offset
behind the end. -/
theorem lineFrom_isAt (cs : List Char) (first position : Nat) :
    (∃ l, lineFrom first cs position = some l ∧ l.IsAt first (encode cs) position) ∨
      lineFrom first cs position = none ∧ width cs < position := by
  induction cs using lines_induction generalizing first position with
  | last cs h =>
    rw [lineFrom_of_not_mem h]
    split
    · next hle => exact .inl ⟨_, rfl, .last h hle⟩
    · next hlt => exact .inr ⟨rfl, Nat.not_le.1 hlt⟩
  | line cs rest h ih =>
    rw [lineFrom_append_cons h]
    split
    · next hlt => exact .inl ⟨_, rfl, .line h rest (Nat.le_of_lt_succ hlt)⟩
    · next hge =>
      obtain ⟨further, rfl⟩ := Nat.exists_eq_add_of_le (Nat.not_lt.1 hge)
      have hwidth : width (cs ++ '\n' :: rest) = width cs + 1 + width rest := by
        rw [width, encode_append, encode_newline, List.length_append, List.length_cons, width,
          width]
        omega
      rw [Nat.add_sub_cancel_left, hwidth]
      rcases ih (first + 1) further with ⟨l, hfound, hl⟩ | ⟨hnone, hlt⟩
      · exact .inl ⟨l, hfound, hl.further h⟩
      · exact .inr ⟨hnone, by omega⟩

theorem lineAt?_isAt (source : String) (position : Nat) :
    (∃ l, lineAt? source position = some l ∧ l.IsAt 1 (bytes source) position) ∨
      lineAt? source position = none ∧ source.utf8ByteSize < position := by
  have h := lineFrom_isAt source.toList 1 position
  rwa [← bytes_eq_encode, width_toList] at h

/-- The line of an offset is the one told from the newlines around the offset, and there is none
just for an offset behind the end.  It is empty just at the end of an empty source and behind a
final newline.  The lines in front of it, each with its newline, and its column make up the
offset. -/
theorem lineAt?_by_newlines (source : String) (position : Nat) :
    (lineAt? source position = none ↔ source.utf8ByteSize < position) ∧
      (∀ l, lineAt? source position = some l ↔ l.IsAt 1 (bytes source) position) ∧
      ∀ l, lineAt? source position = some l →
        (l.text = "" ↔ position = source.utf8ByteSize ∧
          (bytes source = [] ∨ (bytes source).getLast? = some newlineByte)) ∧
        ∃ front back, bytes source = front ++ bytes l.text ++ back ∧
          front.length + l.column = position ∧ 1 + front.count newlineByte = l.number ∧
          (front = [] ∨ front.getLast? = some newlineByte) := by
  rcases lineAt?_isAt source position with ⟨line, hfound, hline⟩ | ⟨hnone, hlt⟩
  · rw [hfound]
    refine ⟨?_, ?_, ?_⟩
    · constructor
      · intro h
        cases h
      · intro hlt
        exact absurd hline.le_length (Nat.not_le.2 hlt)
    · intro l
      constructor
      · intro h
        cases h
        exact hline
      · intro h
        rw [hline.unique h]
    · intro l h
      cases h
      exact ⟨hline.text_eq_empty_iff, hline.exists_cut⟩
  · rw [hnone]
    refine ⟨⟨fun _ => hlt, fun _ => rfl⟩, ?_, ?_⟩
    · intro l
      constructor
      · intro h
        cases h
      · intro h
        exact absurd h.le_length (Nat.not_le.2 hlt)
    · intro l h
      cases h

/-- An offset inside a character, and the end behind two newlines. -/
theorem lineAt?_by_newlines_inside :
    (⟨1, "é\n", 1⟩ : Line).IsAt 1 (bytes "é\n\n") 1 ∧
      (⟨3, "", 0⟩ : Line).IsAt 1 (bytes "é\n\n") 4 ∧
      ∃ front back, bytes "é\n\n" = front ++ bytes "é\n" ++ back ∧
        front.length + 1 = 1 ∧ 1 + front.count newlineByte = 1 ∧
        (front = [] ∨ front.getLast? = some newlineByte) := by
  have hinside : lineAt? "é\n\n" 1 = some ⟨1, "é\n", 1⟩ := by decide +kernel
  have hend : lineAt? "é\n\n" 4 = some ⟨3, "", 0⟩ := by decide +kernel
  obtain ⟨-, hline, hcut⟩ := lineAt?_by_newlines "é\n\n" 1
  exact ⟨(hline _).1 hinside, ((lineAt?_by_newlines "é\n\n" 4).2.1 _).1 hend,
    (hcut _ hinside).2⟩

end ExprLang
