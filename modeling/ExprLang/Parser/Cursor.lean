import ExprLang.Token.Scanner

/-!
# Cursors

A cursor stands on a token and looks one token ahead.  Behind the token ahead a
scanner waits, from which `Cursor.advance` pulls one token.  At the end of the
source the cursor stands on the end token, and advancing keeps it there.

`Reaches c d` says that advancing leads from `c` to `d`.  Every loop over the
tokens ends because advancing lowers `Cursor.remaining` until the source is used
up (`remaining_advance_lt`), and nothing raises it (`Reaches.remaining_le`).
-/

namespace ExprLang

/-- A place in a source with one token of lookahead. -/
structure Cursor where
  /-- Where the tokens behind `peek` come from. -/
  scanner : Scanner
  /-- The token it stands on. -/
  current : Token
  /-- The token after it. -/
  peek : Token
  /-- How often it has advanced. -/
  index : Nat
deriving DecidableEq, Repr, Inhabited

namespace Cursor

/-- The cursor on the first token of a scanner. -/
def ofScanner (s : Scanner) : Cursor :=
  let first := s.next
  let second := first.2.next
  ⟨second.2, first.1, second.1, 0⟩

/-- The cursor one token on, where the scanner has given `next`. -/
def shift (c : Cursor) (next : Token × Scanner) : Cursor :=
  ⟨next.2, c.peek, next.1, c.index + 1⟩

/-- The cursor one token on. -/
def advance (c : Cursor) : Cursor := c.shift c.scanner.next

theorem index_advance (c : Cursor) : c.advance.index = c.index + 1 := rfl

/-! ## What is left -/

/-- Does a token come before the end? -/
def weight (t : Token) : Nat := if t.kind = .eof then 0 else 1

/-- A bound on how often the cursor can advance before the end. -/
def remaining (c : Cursor) : Nat :=
  3 * c.scanner.rest.length + 2 * weight c.peek + weight c.current

/-- Pulling a token leaves less to read, unless it is the end token. -/
theorem rest_next_weight (s : Scanner) :
    s.next.2.rest.length + weight s.next.1 ≤ s.rest.length := by
  unfold weight
  split
  · exact Scanner.rest_next_le s
  · exact Scanner.rest_next_lt ‹_›

theorem weight_le (t : Token) : weight t ≤ 1 := by unfold weight; split <;> decide

/-- Advancing leaves no more than before. -/
theorem remaining_advance_le (c : Cursor) : c.advance.remaining ≤ c.remaining := by
  have h := rest_next_weight c.scanner
  have := weight_le c.peek
  simp only [remaining, advance, shift]
  omega

/-- Advancing over a token leaves less than before. -/
theorem remaining_advance_lt {c : Cursor} (h : c.current.kind ≠ .eof ∨ c.peek.kind ≠ .eof) :
    c.advance.remaining < c.remaining := by
  have hn := rest_next_weight c.scanner
  have hp := weight_le c.peek
  have hw : 1 ≤ weight c.current + weight c.peek := by
    rcases h with h | h <;> simp [weight, h]
  simp only [remaining, advance, shift]
  omega

/-! ## Reaching -/

/-- Advancing some number of times leads from one cursor to another. -/
inductive Reaches : Cursor → Cursor → Prop where
  | refl (c : Cursor) : Reaches c c
  | step {c d : Cursor} : Reaches c.advance d → Reaches c d

theorem Reaches.advance (c : Cursor) : Reaches c c.advance := .step (.refl _)

theorem Reaches.trans {c d e : Cursor} (h : Reaches c d) (k : Reaches d e) : Reaches c e := by
  induction h with
  | refl => exact k
  | step _ ih => exact .step (ih k)

/-- Cursors that are one token on are reached from each other as they were. -/
theorem Reaches.advances {c d : Cursor} (h : c.Reaches d) : c.advance.Reaches d.advance := by
  induction h with
  | refl c => exact .refl _
  | step _ ih => exact .step ih

theorem Reaches.remaining_le {c d : Cursor} (h : Reaches c d) : d.remaining ≤ c.remaining := by
  induction h with
  | refl => exact Nat.le_refl _
  | step _ ih => exact Nat.le_trans ih (remaining_advance_le _)

/-- One more step from anywhere a token reaches leaves less than the token did. -/
theorem Reaches.remaining_advance_lt {c d : Cursor} (h : Reaches c d)
    (hc : c.current.kind ≠ .eof) : d.advance.remaining < c.remaining := by
  cases h with
  | refl => exact Cursor.remaining_advance_lt (.inl hc)
  | step h =>
    have h₁ := h.remaining_le
    have h₂ := Cursor.remaining_advance_lt (c := c) (.inl hc)
    have h₃ := remaining_advance_le d
    omega

end Cursor

end ExprLang
