/-!
# Lines of a source

`lineAt?` finds the line of a byte offset.  A line runs through its newline, and
the last line of a source has none.  An offset belongs to the line whose newline
stands at it or after it.  The end of the source belongs to the last line, which
is empty in an empty source and after a final newline.  An offset past the end has
no line.

Offsets count bytes, so one may fall inside a character.
-/

namespace ExprLang

/-- A line of a source and a place in it. -/
structure Line where
  /-- The number of the line, counted from one. -/
  number : Nat
  /-- The line with its newline, if it has one. -/
  text : String
  /-- How many bytes of the line come before the place. -/
  column : Nat
deriving DecidableEq, Repr

/-- The bytes in the encoding of some characters. -/
def byteLength : List Char → Nat
  | [] => 0
  | c :: cs => c.utf8Size + byteLength cs

theorem byteLength_append (as bs : List Char) :
    byteLength (as ++ bs) = byteLength as + byteLength bs := by
  induction as with
  | nil => simp [byteLength]
  | cons c cs ih => simp [byteLength, ih, Nat.add_assoc]

/-- The encoding of a text has as many bytes as its characters have together. -/
theorem byteLength_toList (s : String) : byteLength s.toList = s.utf8ByteSize := by
  rw [← s.size_toByteArray]
  conv => rhs; rw [← s.ofList_toList, String.toByteArray_ofList]
  induction s.toList with
  | nil => rfl
  | cons c cs ih =>
    rw [List.utf8Encode_cons, ByteArray.size_append, ← ih, List.utf8Encode_singleton]
    simp [byteLength]

/-- The line of the offset `position` of `cs`, whose first line has number
`number`. -/
def lineFrom (number : Nat) (cs : List Char) (position : Nat) : Option Line :=
  let start := cs.takeWhile (· ≠ '\n')
  match _h : cs.dropWhile (· ≠ '\n') with
  | [] => if position ≤ byteLength start then some ⟨number, String.ofList start, position⟩ else none
  | newline :: rest =>
    let line := start ++ [newline]
    if position < byteLength line then some ⟨number, String.ofList line, position⟩
    else lineFrom (number + 1) rest (position - byteLength line)
termination_by cs.length
decreasing_by
  have hle := (List.dropWhile_sublist (l := cs) (fun c => decide (c ≠ '\n'))).length_le
  rw [‹cs.dropWhile _ = _›] at hle
  exact hle

/-- The line of a byte offset of a source. -/
def lineAt? (source : String) (position : Nat) : Option Line := lineFrom 1 source.toList position

/-! ## Examples -/

example : lineAt? "ab\ncd" 2 = some ⟨1, "ab\n", 2⟩ := by decide +kernel
example : lineAt? "ab\ncd" 5 = some ⟨2, "cd", 2⟩ := by decide +kernel
example : lineAt? "ab\n" 3 = some ⟨2, "", 0⟩ := by decide +kernel
example : lineAt? "" 0 = some ⟨1, "", 0⟩ := by decide +kernel
example : lineAt? "" 1 = none := by decide +kernel

end ExprLang
