/-!
# Blank characters

`isBlank` is the property `White_Space` of Unicode, `trimRight` drops the blank
characters at the end of a text.  `isBlank_of_isWhitespace` says that ASCII white
space is blank, and `trimRight` is pinned by what it keeps (`trimRight_append`).
-/

namespace ExprLang.Text

/-- Does a character have the property `White_Space`? -/
def isBlank (c : Char) : Bool :=
  let n := c.toNat
  (0x09 ≤ n && n ≤ 0x0D) || n == 0x20 || n == 0x85 || n == 0xA0 || n == 0x1680 ||
    (0x2000 ≤ n && n ≤ 0x200A) || n == 0x2028 || n == 0x2029 || n == 0x202F || n == 0x205F ||
    n == 0x3000

/-- A text without the blank characters at its end. -/
def trimRight (cs : List Char) : List Char := (cs.reverse.dropWhile isBlank).reverse

theorem isBlank_of_isWhitespace {c : Char} (h : c.isWhitespace) : isBlank c := by
  simp only [Char.isWhitespace, Bool.or_eq_true, decide_eq_true_eq] at h
  rcases h with ((rfl | rfl) | rfl) | rfl <;> decide

/-- What `trimRight` drops is blank. -/
theorem trimRight_append (cs : List Char) :
    ∃ bs, cs = trimRight cs ++ bs ∧ ∀ c ∈ bs, isBlank c := by
  refine ⟨(cs.reverse.takeWhile isBlank).reverse, ?_, ?_⟩
  · rw [trimRight, ← List.reverse_append, List.takeWhile_append_dropWhile, List.reverse_reverse]
  · intro c hc
    exact List.all_eq_true.1 List.all_takeWhile c (List.mem_reverse.1 hc)

/-- What it keeps does not end in a blank character. -/
theorem isBlank_getLast?_trimRight (cs : List Char) :
    ∀ c ∈ (trimRight cs).getLast?, isBlank c = false := by
  intro c hc
  have hnot := List.head?_dropWhile_not isBlank cs.reverse
  rw [trimRight, List.getLast?_reverse] at hc
  rw [hc] at hnot
  simpa using hnot

/-- Blank characters more at the end make no difference. -/
theorem trimRight_append_of_blank (cs : List Char) {bs : List Char} (h : ∀ c ∈ bs, isBlank c) :
    trimRight (cs ++ bs) = trimRight cs := by
  have hbs : ∀ c ∈ bs.reverse, isBlank c := fun c hc => h c (List.mem_reverse.1 hc)
  rw [trimRight, List.reverse_append, List.dropWhile_append_of_pos hbs, trimRight]

end ExprLang.Text
