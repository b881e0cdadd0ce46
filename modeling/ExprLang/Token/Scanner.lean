import ExprLang.Text.Utf8
import ExprLang.Token.Basic

/-!
# Scanning tokens

A scanner stands between two tokens of a source and holds the bytes it has not
read.  `Scanner.next` skips layout (blank, tab, line feed, carriage return) and
takes the longest lexeme that follows.  At the end of the source it gives the
end token, and goes on giving it.

A lexeme is measured in bytes by `lexeme`, from its first byte and what follows.

* A byte of `TokenKind.ofByte?` is a lexeme.
* `=` and `!` join a `=` right behind them.
* A run of ASCII letters and underscores is a word, a run of digits a number.
* Any other character is an illegal lexeme by itself, however many bytes it has.

`Scanner.tokens` scans to the end.  It ends because every token but the end token
has at least one byte (`rest_next_lt`).
-/

namespace ExprLang

/-! ## Classes of bytes -/

namespace Lexeme

/-- Does a byte separate tokens without being part of one? -/
def isLayout (b : UInt8) : Bool := b == 0x20 || b == 0x09 || b == 0x0A || b == 0x0D

/-- Can a byte stand in a word? -/
def isLetter (b : UInt8) : Bool :=
  (0x41 ≤ b && b ≤ 0x5A) || (0x61 ≤ b && b ≤ 0x7A) || b == 0x5F

/-- Can a byte stand in a number? -/
def isDigit (b : UInt8) : Bool := 0x30 ≤ b && b ≤ 0x39

/-- The sign `=`. -/
def equalsSign : UInt8 := 0x3D

/-- The sign `!`. -/
def bangSign : UInt8 := 0x21

/-! ## Lexemes -/

/-- A sign that joins a `=` right behind it. -/
def oneOrTwo (single double : TokenKind) (rest : List UInt8) : TokenKind × Nat :=
  if rest.head? = some equalsSign then (double, 2) else (single, 1)

/-- The kind and the number of bytes of the lexeme that starts with `lead` and
goes on into `rest`. -/
def measure (lead : UInt8) (rest : List UInt8) : TokenKind × Nat :=
  match TokenKind.ofByte? lead with
  | some kind => (kind, 1)
  | none =>
    if lead = equalsSign then oneOrTwo .assign .equals rest
    else if lead = bangSign then oneOrTwo .bang .notEquals rest
    else if isLetter lead then
      let run := rest.takeWhile isLetter
      (TokenKind.ofWord (Utf8.text (lead :: run)), run.length + 1)
    else if isDigit lead then (.int, (rest.takeWhile isDigit).length + 1)
    else (.illegal, Utf8.sequenceLength lead)

/-- A lexeme has at least one byte. -/
theorem measure_pos (lead : UInt8) (rest : List UInt8) : 0 < (measure lead rest).2 := by
  unfold measure oneOrTwo Utf8.sequenceLength
  repeat' split
  all_goals simp

end Lexeme

/-! ## Scanners -/

/-- A place between two tokens of a source. -/
structure Scanner where
  /-- The name of the source. -/
  file : String
  /-- The bytes not yet read. -/
  rest : List UInt8
  /-- How many bytes have been read. -/
  offset : Nat
deriving DecidableEq, Repr, Inhabited

namespace Scanner

/-- The scanner at the start of a source. -/
def ofSource (source : String) (file? : Option String) : Scanner :=
  ⟨file?.getD unnamedFile, Utf8.bytes source, 0⟩

/-- Has every byte been read? -/
def atEnd (s : Scanner) : Bool := s.rest.isEmpty

/-- The scanner `n` bytes on. -/
def skip (s : Scanner) (n : Nat) : Scanner :=
  { s with rest := s.rest.drop n, offset := s.offset + n }

/-- The scanner after the layout in front of it. -/
def skipLayout (s : Scanner) : Scanner := s.skip (s.rest.takeWhile Lexeme.isLayout).length

/-- The lexeme of `n` bytes in front of a scanner, as a token. -/
def token (s : Scanner) (kind : TokenKind) (n : Nat) : Token :=
  ⟨kind, Utf8.text (s.rest.take n), Span.between s.file s.offset (s.offset + n)⟩

/-- The next token, and the scanner after it. -/
def next (s : Scanner) : Token × Scanner :=
  let s := s.skipLayout
  match s.rest with
  | [] => (Token.endOf s.file s.offset, s)
  | lead :: rest =>
    let (kind, n) := Lexeme.measure lead rest
    (s.token kind n, s.skip n)

/-- A token other than the end token shortens what is left to read. -/
theorem rest_next_lt {s : Scanner} (h : s.next.1.kind ≠ .eof) :
    s.next.2.rest.length < s.rest.length := by
  have hle : s.skipLayout.rest.length ≤ s.rest.length := by simp [skipLayout, skip]
  unfold next at h ⊢
  cases hr : s.skipLayout.rest with
  | nil => simp [hr, Token.endOf] at h
  | cons lead rest =>
    have hpos := Lexeme.measure_pos lead rest
    simp only [hr, skip, List.length_drop]
    simp only [hr, List.length_cons] at hle ⊢
    omega

/-- No token lengthens what is left to read. -/
theorem rest_next_le (s : Scanner) : s.next.2.rest.length ≤ s.rest.length := by
  have hle : s.skipLayout.rest.length ≤ s.rest.length := by simp [skipLayout, skip]
  unfold next
  cases hr : s.skipLayout.rest with
  | nil => simp [hr]
  | cons lead rest => simp [hr, skip] at hle ⊢; omega

/-! ## All tokens -/

/-- The tokens up to the end token, behind those in `done`. -/
def tokensAfter (done : Array Token) (s : Scanner) : Array Token :=
  if s.next.1.kind = .eof then done.push s.next.1
  else tokensAfter (done.push s.next.1) s.next.2
termination_by s.rest.length
decreasing_by exact rest_next_lt ‹_›

/-- The tokens from a scanner on, the end token once at the end. -/
def tokens (s : Scanner) : List Token := (tokensAfter #[] s).toList

/-- The tokens already found are kept in front. -/
theorem tokensAfter_append (before done : Array Token) (s : Scanner) :
    tokensAfter (before ++ done) s = before ++ tokensAfter done s := by
  fun_induction tokensAfter done s with
  | case1 done s h => rw [tokensAfter, if_pos h, Array.append_push]
  | case2 done s h ih => rw [tokensAfter, if_neg h, ← Array.append_push, ih]

/-- At the end of the source only the end token is left. -/
theorem tokens_of_eof {s : Scanner} (h : s.next.1.kind = .eof) : s.tokens = [s.next.1] := by
  rw [tokens, tokensAfter, if_pos h]
  rfl

/-- Before the end, the next token comes first and the others follow it. -/
theorem tokens_of_ne_eof {s : Scanner} (h : s.next.1.kind ≠ .eof) :
    s.tokens = s.next.1 :: s.next.2.tokens := by
  have hp := tokensAfter_append (#[].push s.next.1) #[] s.next.2
  rw [Array.append_empty] at hp
  rw [tokens, tokensAfter, if_neg h, hp, tokens]
  simp

end Scanner

/-- The tokens of a source. -/
def tokenize (source : String) (file? : Option String) : List Token :=
  (Scanner.ofSource source file?).tokens

/-! ## Examples -/

example : (tokenize "let x = 5 != é;" none).map (·.kind)
    = [.kwLet, .identifier, .assign, .int, .notEquals, .illegal, .semicolon, .eof] := by
  decide +kernel

/-- A `=` joins the sign right before it, and only once. -/
example : (tokenize "=== = !=" none).map (·.kind) = [.equals, .assign, .assign, .notEquals, .eof] := by
  decide +kernel

/-- Spans count bytes. -/
example : (tokenize "é x" none).map (·.span.start.offset) = [0, 3, 4] := by decide +kernel

end ExprLang
