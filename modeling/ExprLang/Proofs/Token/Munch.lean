import ExprLang.Proofs.Text.Encoding
import ExprLang.Token.Scanner

/-!
# Maximal munch

A scanner works on bytes.  This module says what it does in terms of characters.

`Munch.lexeme` gives the kind and the text of the longest lexeme at the start of some
characters, and `Munch.pieces` cuts characters into lexemes and the layout in front of
them.  The signs and the keywords are spelled out here apart from the scanner (`Munch.signs`,
`Munch.wordKind`), and its tables agree with them (`ofChar?_eq_some_iff`,
`ofWord_eq_wordKind`).  `Munch.Longest` lists the ways a lexeme comes about.

`tokenize_eq_munch` says that the tokens of a source are its pieces and the end
token, and that every stretch of bytes a scanner reads the text of is a stretch of
characters.
-/

namespace ExprLang

open Utf8

namespace Munch

/-! ## The lexer on characters -/

/-- Does a character separate tokens without being part of one? -/
def isLayout (c : Char) : Bool := c = ' ' || c = '\t' || c = '\n' || c = '\r'

/-- Can a character stand in a word? -/
def isLetter (c : Char) : Bool := c.isAlpha || c = '_'

/-- The characters that are lexemes whatever follows them, with their kinds. -/
def signs : List (Char × TokenKind) :=
  [('+', .plus), (',', .comma), (';', .semicolon), ('(', .openParen), (')', .closeParen),
    ('\x7b', .openCurly), ('\x7d', .closeCurly), ('-', .minus), ('*', .asterisk), ('/', .slash),
    ('<', .less), ('>', .greater)]

/-- The kind of a word. -/
def wordKind : String → TokenKind
  | "fn" => .kwFn
  | "let" => .kwLet
  | "true" => .kwTrue
  | "false" => .kwFalse
  | "if" => .kwIf
  | "else" => .kwElse
  | "return" => .kwReturn
  | _ => .identifier

theorem wordKind_mem (word : String) :
    wordKind word ∈ [TokenKind.identifier, .kwFn, .kwLet, .kwTrue, .kwFalse, .kwIf, .kwElse,
      .kwReturn] := by
  unfold wordKind
  split <;> decide

/-- The kind and the text of the lexeme that starts with `c` and goes on into `cs`. -/
def lexeme (c : Char) (cs : List Char) : TokenKind × List Char :=
  match signs.lookup c with
  | some kind => (kind, [c])
  | none =>
    if c = '=' then if cs.head? = some '=' then (.equals, ['=', '=']) else (.assign, ['='])
    else if c = '!' then if cs.head? = some '=' then (.notEquals, ['!', '=']) else (.bang, ['!'])
    else if isLetter c then
      let word := c :: cs.takeWhile isLetter
      (wordKind (.ofList word), word)
    else if c.isDigit then (.int, c :: cs.takeWhile Char.isDigit)
    else (.illegal, [c])

/-! ## The ways a lexeme comes about -/

/-- A character has one kind as a sign, the one it is listed with. -/
theorem lookup_signs_eq_some_iff {c : Char} {kind : TokenKind} :
    signs.lookup c = some kind ↔ (c, kind) ∈ signs := by
  constructor
  · intro h
    obtain ⟨before, after, hsigns, -⟩ := List.lookup_eq_some_iff.1 h
    rw [hsigns]
    exact List.mem_append_right _ List.mem_cons_self
  · have hlookup : ∀ p ∈ signs, signs.lookup p.1 = some p.2 := by decide
    exact hlookup (c, kind)

theorem lookup_signs_eq_none_iff {c : Char} :
    signs.lookup c = none ↔ ∀ kind, (c, kind) ∉ signs := by
  simp only [Option.eq_none_iff_forall_ne_some, ne_eq, lookup_signs_eq_some_iff]

/-- A character of a class without signs is none. -/
theorem lookup_signs_of_class {p : Char → Bool} (hp : ∀ sign ∈ signs, p sign.1 = false) {c : Char}
    (hc : p c) : signs.lookup c = none := by
  refine lookup_signs_eq_none_iff.2 fun kind hsign => ?_
  have hnot := hp (c, kind) hsign
  rw [hc] at hnot
  cases hnot

/-- The longest lexeme at the start of some characters, with its kind. -/
inductive Longest : Char → List Char → TokenKind → List Char → Prop
  | sign {c : Char} {cs : List Char} {kind : TokenKind} : (c, kind) ∈ signs →
      Longest c cs kind [c]
  | equals {cs : List Char} : Longest '=' ('=' :: cs) .equals ['=', '=']
  | assign {cs : List Char} : cs.head? ≠ some '=' → Longest '=' cs .assign ['=']
  | notEquals {cs : List Char} : Longest '!' ('=' :: cs) .notEquals ['!', '=']
  | bang {cs : List Char} : cs.head? ≠ some '=' → Longest '!' cs .bang ['!']
  | word {c : Char} {cs : List Char} : isLetter c →
      Longest c cs (wordKind (.ofList (c :: cs.takeWhile isLetter))) (c :: cs.takeWhile isLetter)
  | number {c : Char} {cs : List Char} : c.isDigit →
      Longest c cs .int (c :: cs.takeWhile Char.isDigit)
  | illegal {c : Char} {cs : List Char} : (∀ kind, (c, kind) ∉ signs) → c ≠ '=' → c ≠ '!' →
      ¬ isLetter c → ¬ c.isDigit → Longest c cs .illegal [c]

theorem lexeme_longest (c : Char) (cs : List Char) :
    Longest c cs (lexeme c cs).1 (lexeme c cs).2 := by
  unfold lexeme
  cases hsign : signs.lookup c with
  | some kind => exact .sign (lookup_signs_eq_some_iff.1 hsign)
  | none =>
    dsimp only
    split
    · next hc =>
      subst hc
      split
      · next hcs =>
        obtain ⟨ds, rfl⟩ := List.head?_eq_some_iff.1 hcs
        exact .equals
      · next hcs => exact .assign hcs
    split
    · next hc =>
      subst hc
      split
      · next hcs =>
        obtain ⟨ds, rfl⟩ := List.head?_eq_some_iff.1 hcs
        exact .notEquals
      · next hcs => exact .bang hcs
    split
    · next hletter => exact .word hletter
    split
    · next hdigit => exact .number hdigit
    · next hequals hbang hletter hdigit =>
      exact .illegal (lookup_signs_eq_none_iff.1 hsign) hequals hbang hletter hdigit

/-- The text of a lexeme is what the characters start with, and there is some. -/
theorem Longest.exists_append {c : Char} {cs text : List Char} {kind : TokenKind}
    (h : Longest c cs kind text) : ∃ tail after, text = c :: tail ∧ cs = tail ++ after := by
  cases h with
  | sign _ => exact ⟨[], cs, rfl, rfl⟩
  | equals => exact ⟨['='], _, rfl, rfl⟩
  | assign _ => exact ⟨[], cs, rfl, rfl⟩
  | notEquals => exact ⟨['='], _, rfl, rfl⟩
  | bang _ => exact ⟨[], cs, rfl, rfl⟩
  | word _ => exact ⟨_, _, rfl, List.takeWhile_append_dropWhile.symm⟩
  | number _ => exact ⟨_, _, rfl, List.takeWhile_append_dropWhile.symm⟩
  | illegal _ _ _ _ _ => exact ⟨[], cs, rfl, rfl⟩

theorem lexeme_append (c : Char) (cs : List Char) :
    ∃ text after, (lexeme c cs).2 = c :: text ∧ cs = text ++ after :=
  (lexeme_longest c cs).exists_append

/-- A lexeme cuts the characters it starts. -/
theorem exists_lexeme_eq (c : Char) (cs : List Char) :
    ∃ text after, lexeme c cs = ((lexeme c cs).1, c :: text) ∧ c :: cs = (c :: text) ++ after := by
  obtain ⟨text, after, ht, hcs⟩ := lexeme_append c cs
  exact ⟨text, after, by rw [← ht], by rw [List.cons_append, ← hcs]⟩

/-- A lexeme with the layout in front of it. -/
structure Piece where
  /-- The layout in front. -/
  layout : List Char
  /-- What the lexeme is. -/
  kind : TokenKind
  /-- The characters of the lexeme. -/
  text : List Char

/-- The lexemes of some characters in order. -/
def pieces (cs : List Char) : List Piece :=
  match _h : cs.dropWhile isLayout with
  | [] => []
  | c :: ds =>
    let l := lexeme c ds
    ⟨cs.takeWhile isLayout, l.1, l.2⟩ :: pieces ((c :: ds).drop l.2.length)
termination_by cs.length
decreasing_by
  have hle := (List.dropWhile_suffix (l := cs) isLayout).length_le
  obtain ⟨text, after, ht, -⟩ := lexeme_append c ds
  rw [_h] at hle
  simp only [ht, List.length_drop, List.length_cons] at hle ⊢
  omega

/-- The pieces as tokens of a file, the first one `offset` bytes into it. -/
def place (file : String) : (offset : Nat) → List Piece → List Token
  | _, [] => []
  | offset, p :: ps =>
    let start := offset + width p.layout
    let stop := start + width p.text
    ⟨p.kind, .ofList p.text, .between file start stop⟩ :: place file stop ps

/-- The tokens of some characters of a file. -/
def tokens (file : String) (cs : List Char) : List Token := place file 0 (pieces cs)

/-! ## The tables of the scanner -/

/-- The scanner lists the same signs. -/
theorem ofChar?_eq_some_iff {c : Char} {kind : TokenKind} :
    TokenKind.ofChar? c = some kind ↔ (c, kind) ∈ signs := by
  constructor
  · intro h
    unfold TokenKind.ofChar? at h
    split at h <;> cases h <;> decide
  · have hsign : ∀ p ∈ signs, TokenKind.ofChar? p.1 = some p.2 := by decide
    exact hsign (c, kind)

theorem lookup_signs (c : Char) : signs.lookup c = TokenKind.ofChar? c :=
  Option.ext fun _ => lookup_signs_eq_some_iff.trans ofChar?_eq_some_iff.symm

/-- The scanner has the same words as keywords. -/
theorem ofWord_eq_wordKind (word : String) : TokenKind.ofWord word = wordKind word := by
  unfold wordKind
  split
  case h_8 =>
    have hnone : TokenKind.keywords.lookup word = none := by
      rw [List.lookup_eq_none_iff]
      simp only [TokenKind.keywords, List.forall_mem_cons, bne_iff_ne]
      exact ⟨‹_›, ‹_›, ‹_›, ‹_›, ‹_›, ‹_›, ‹_›, List.forall_mem_nil _⟩
    rw [TokenKind.ofWord, hnone]
    rfl
  all_goals decide

/-! ## Bytes and characters -/

theorem marks_layout : Marks Lexeme.isLayout isLayout where
  ascii := by decide +kernel
  byte_lt := by decide +kernel
  char_lt c hc := by
    simp only [isLayout, Bool.or_eq_true, decide_eq_true_eq] at hc
    rcases hc with ((rfl | rfl) | rfl) | rfl <;> decide

theorem marks_letter : Marks Lexeme.isLetter isLetter where
  ascii := by decide +kernel
  byte_lt := by decide +kernel
  char_lt c hc := by
    have hupper (h : c.isUpper) : c.toNat < 128 :=
      Nat.lt_of_le_of_lt (UInt32.le_iff_toNat_le.1 (of_decide_eq_true h).2) (by decide)
    have hlower (h : c.isLower) : c.toNat < 128 :=
      Nat.lt_of_le_of_lt (UInt32.le_iff_toNat_le.1
        (of_decide_eq_true (Bool.and_eq_true_iff.1 h).2)) (by decide)
    simp only [isLetter, Bool.or_eq_true, decide_eq_true_eq] at hc
    rcases hc with hc | rfl
    · rcases Bool.or_eq_true_iff.1 hc with h | h
      · exact hupper h
      · exact hlower h
    · decide

theorem marks_digit : Marks Lexeme.isDigit Char.isDigit where
  ascii := by decide +kernel
  byte_lt := by decide +kernel
  char_lt c hc := by
    have hval : c.toNat = c.val.toNat := rfl
    have hnine : '9'.val.toNat < 128 := by decide
    simp only [Char.isDigit, Bool.and_eq_true, decide_eq_true_eq, UInt32.le_iff_toNat_le] at hc
    omega

/-- A single ASCII character and its byte. -/
theorem marks_char {c : Char} (hc : c.toNat < 128) :
    Marks (· == UInt8.ofNat c.toNat) (· == c) where
  ascii n hn := by
    have hchar : ∀ n < 128, (Char.ofNat n).toNat = n := by decide +kernel
    have hbyte : ∀ n < 128, (UInt8.ofNat n).toNat = n := by decide +kernel
    rw [Bool.eq_iff_iff, beq_iff_eq, beq_iff_eq, ← Char.toNat_inj, ← UInt8.toNat_inj, hchar n hn,
      hbyte n hn, hbyte _ hc]
  byte_lt n hn h := by
    have hc' : c.toNat < 256 := Nat.lt_trans hc (by decide)
    rw [beq_iff_eq, ← UInt8.toNat_inj, UInt8.toNat_ofNat_of_lt' hn, UInt8.toNat_ofNat_of_lt' hc']
      at h
    omega
  char_lt d hd := by
    rw [beq_iff_eq.1 hd]
    exact hc

/-- A byte that is a token whatever follows it, and its character. -/
theorem marks_kind (k : TokenKind) :
    Marks (TokenKind.ofByte? · == some k) (TokenKind.ofChar? · == some k) where
  ascii n hn := by
    have h : ∀ n < 128, TokenKind.ofByte? (UInt8.ofNat n) = TokenKind.ofChar? (Char.ofNat n) := by
      decide +kernel
    rw [h n hn]
  byte_lt n hn hk := by
    have h : ∀ n < 256, (TokenKind.ofByte? (UInt8.ofNat n)).isSome → n < 128 := by decide +kernel
    exact h n hn (by rw [beq_iff_eq.1 hk]; rfl)
  char_lt c hc := by
    have hascii : ∀ p ∈ signs, p.1.toNat < 128 := by decide
    exact hascii (c, k) (ofChar?_eq_some_iff.1 (beq_iff_eq.1 hc))

theorem ofByte?_lead {c : Char} {lead : UInt8} {tail : List UInt8}
    (he : String.utf8EncodeChar c = lead :: tail) :
    TokenKind.ofByte? lead = TokenKind.ofChar? c := by
  refine Option.ext fun k => ?_
  rw [← beq_iff_eq, ← beq_iff_eq (a := TokenKind.ofChar? c)]
  exact Bool.eq_iff_iff.1 ((marks_kind k).lead_eq he)

theorem eq_lead_iff {c d : Char} {lead : UInt8} {tail : List UInt8} (hd : d.toNat < 128)
    (he : String.utf8EncodeChar c = lead :: tail) : lead = UInt8.ofNat d.toNat ↔ c = d := by
  rw [← beq_iff_eq, ← beq_iff_eq (a := c)]
  exact Bool.eq_iff_iff.1 ((marks_char hd).lead_eq he)

/-- Encoded text goes on with a sign where the characters do. -/
theorem head?_encode_iff {d : Char} (hd : d.toNat < 128) (cs : List Char) :
    (encode cs).head? = some (UInt8.ofNat d.toNat) ↔ cs.head? = some d := by
  cases cs with
  | nil => exact iff_of_false nofun nofun
  | cons c cs =>
    obtain ⟨lead, tail, he, -⟩ := sequenceLength_encode c
    rw [encode_cons, he, List.cons_append, List.head?_cons, List.head?_cons, Option.some_inj,
      Option.some_inj]
    exact eq_lead_iff hd he

/-! ## One lexeme -/

/-- A sign that joins a `=` is measured by bytes as by characters. -/
theorem oneOrTwo_encode (single double : TokenKind) (cs : List Char) :
    Lexeme.oneOrTwo single double (encode cs) =
      if cs.head? = some '=' then (double, 2) else (single, 1) := by
  have h := head?_encode_iff (d := '=') (by decide) cs
  rw [Lexeme.oneOrTwo]
  by_cases hd : cs.head? = some '='
  · rw [if_pos hd]
    exact if_pos (h.2 hd)
  · rw [if_neg hd]
    exact if_neg fun hb => hd (h.1 hb)

/-- The bytes of a lexeme are measured as its characters are. -/
theorem measure_encode {c : Char} {lead : UInt8} {tail : List UInt8}
    (he : String.utf8EncodeChar c = lead :: tail) (cs : List Char) :
    Lexeme.measure lead (tail ++ encode cs) = ((lexeme c cs).1, width (lexeme c cs).2) := by
  have hequals : lead = Lexeme.equalsSign ↔ c = '=' := eq_lead_iff (d := '=') (by decide) he
  have hbang : lead = Lexeme.bangSign ↔ c = '!' := eq_lead_iff (d := '!') (by decide) he
  have hcons (ds : List Char) : encode (c :: ds) = lead :: (tail ++ encode ds) := by
    rw [encode_cons, he, List.cons_append]
  rw [Lexeme.measure, lexeme, ofByte?_lead he, marks_letter.lead_eq he, marks_digit.lead_eq he,
    lookup_signs]
  simp only [hequals, hbang, ofWord_eq_wordKind]
  cases hk : TokenKind.ofChar? c with
  | some kind =>
    have ht := (marks_kind kind).tail_eq he (by rw [hk]; exact beq_self_eq_true _)
    simp [width, hcons, ht]
  | none =>
    dsimp only
    by_cases h1 : c = '='
    · subst h1
      have ht := (marks_char (c := '=') (by decide)).tail_eq he (beq_self_eq_true _)
      rw [ht, List.nil_append, if_pos rfl, if_pos rfl, oneOrTwo_encode]
      by_cases hd : cs.head? = some '=' <;> simp only [hd] <;> rfl
    rw [if_neg h1, if_neg h1]
    by_cases h2 : c = '!'
    · subst h2
      have ht := (marks_char (c := '!') (by decide)).tail_eq he (beq_self_eq_true _)
      rw [ht, List.nil_append, if_pos rfl, if_pos rfl, oneOrTwo_encode]
      by_cases hd : cs.head? = some '=' <;> simp only [hd] <;> rfl
    rw [if_neg h2, if_neg h2]
    by_cases h3 : isLetter c
    · have ht := marks_letter.tail_eq he h3
      have hword := hcons (cs.takeWhile isLetter)
      rw [ht, List.nil_append] at hword ⊢
      rw [if_pos h3, if_pos h3, marks_letter.takeWhile_encode, ← hword, text_encode, width, hword]
      rfl
    rw [if_neg h3, if_neg h3]
    by_cases h4 : c.isDigit
    · have ht := marks_digit.tail_eq he h4
      have hnumber := hcons (cs.takeWhile Char.isDigit)
      rw [ht, List.nil_append] at hnumber ⊢
      rw [if_pos h4, if_pos h4, marks_digit.takeWhile_encode, width, hnumber]
      rfl
    rw [if_neg h4, if_neg h4]
    obtain ⟨lead', tail', he', hlength⟩ := sequenceLength_encode c
    obtain ⟨rfl, rfl⟩ := List.cons.inj (he.symm.trans he')
    simp [width, hcons, hlength]

/-- No lexeme is the end of the source. -/
theorem Longest.ne_eof {c : Char} {cs text : List Char} {kind : TokenKind}
    (h : Longest c cs kind text) : kind ≠ .eof := by
  cases h with
  | sign hc =>
    rintro rfl
    simp [signs] at hc
  | word _ => exact ne_of_mem_of_not_mem (wordKind_mem _) (by decide)
  | equals | assign | notEquals | bang | number | illegal => exact nofun

theorem lexeme_ne_eof (c : Char) (cs : List Char) : (lexeme c cs).1 ≠ .eof :=
  (lexeme_longest c cs).ne_eof

/-- A character of a class without layout is none. -/
theorem isLayout_eq_false {p : Char → Bool} (hp : [' ', '\t', '\n', '\r'].all (!p ·))
    {c : Char} (hc : p c) : isLayout c = false := by
  rw [Bool.eq_false_iff]
  intro hlayout
  have hmem : c ∈ [' ', '\t', '\n', '\r'] := by simpa [isLayout, or_assoc] using hlayout
  have hnot := List.all_eq_true.1 hp c hmem
  rw [hc] at hnot
  cases hnot

theorem not_isLetter_of_isDigit {c : Char} (hc : c.isDigit) : ¬ isLetter c := by
  have hascii : ∀ n < 128, (Char.ofNat n).isDigit → ¬ isLetter (Char.ofNat n) := by
    decide +kernel
  have hnot := hascii c.toNat (marks_digit.char_lt c hc)
  rw [Char.ofNat_toNat] at hnot
  exact hnot hc

/-- No two of the ways lead to different lexemes. -/
theorem Longest.lexeme_eq {c : Char} {cs text : List Char} {kind : TokenKind}
    (h : Longest c cs kind text) : lexeme c cs = (kind, text) := by
  cases h with
  | sign hc => simp only [lexeme, lookup_signs_eq_some_iff.2 hc]
  | equals => rfl
  | assign hcs => exact if_neg hcs
  | notEquals => rfl
  | bang hcs => exact if_neg hcs
  | word hc =>
    have hsign := lookup_signs_of_class (p := isLetter) (by decide) hc
    have hequals : c ≠ '=' := by rintro rfl; cases hc
    have hbang : c ≠ '!' := by rintro rfl; cases hc
    simp only [lexeme, hsign, if_neg hequals, if_neg hbang, if_pos hc]
  | number hc =>
    have hsign := lookup_signs_of_class (p := Char.isDigit) (by decide) hc
    have hequals : c ≠ '=' := by rintro rfl; cases hc
    have hbang : c ≠ '!' := by rintro rfl; cases hc
    have hletter := not_isLetter_of_isDigit hc
    simp only [lexeme, hsign, if_neg hequals, if_neg hbang, if_neg hletter, if_pos hc]
  | illegal hsigns hequals hbang hletter hdigit =>
    have hsign := lookup_signs_eq_none_iff.2 hsigns
    simp only [lexeme, hsign, if_neg hequals, if_neg hbang, if_neg hletter, if_neg hdigit]

theorem lexeme_eq_iff {c : Char} {cs text : List Char} {kind : TokenKind} :
    lexeme c cs = (kind, text) ↔ Longest c cs kind text := by
  refine ⟨fun h => ?_, Longest.lexeme_eq⟩
  have hlongest := lexeme_longest c cs
  rwa [h] at hlongest

/-! ## Scanners -/

variable (file : String) (offset : Nat)

/-- Skipping some characters. -/
theorem skip_encode (cs ds : List Char) :
    (⟨file, encode (cs ++ ds), offset⟩ : Scanner).skip (width cs) =
      ⟨file, encode ds, offset + width cs⟩ := by
  rw [Scanner.skip, encode_append, width, List.drop_left]

theorem skipLayout_encode (cs : List Char) :
    (⟨file, encode cs, offset⟩ : Scanner).skipLayout =
      ⟨file, encode (cs.dropWhile isLayout), offset + width (cs.takeWhile isLayout)⟩ := by
  have h := skip_encode file offset (cs.takeWhile isLayout) (cs.dropWhile isLayout)
  rw [List.takeWhile_append_dropWhile] at h
  rw [Scanner.skipLayout, marks_layout.length_takeWhile_encode, h]

/-- Behind the last lexeme comes the end token. -/
theorem next_of_nil {cs : List Char} (h : cs.dropWhile isLayout = []) :
    (⟨file, encode cs, offset⟩ : Scanner).next =
      (Token.endOf file (offset + width cs), ⟨file, [], offset + width cs⟩) := by
  have hcs : cs.takeWhile isLayout = cs := by
    have happ := List.takeWhile_append_dropWhile (p := isLayout) (l := cs)
    rwa [h, List.append_nil] at happ
  rw [Scanner.next, skipLayout_encode, h, hcs]
  rfl

/-- Before the end the next lexeme comes with its characters. -/
theorem next_of_cons {cs ds text after : List Char} {c : Char} {kind : TokenKind}
    (h : cs.dropWhile isLayout = c :: ds) (hl : lexeme c ds = (kind, text))
    (happ : c :: ds = text ++ after) :
    let start := offset + width (cs.takeWhile isLayout)
    (⟨file, encode cs, offset⟩ : Scanner).next =
      (⟨kind, .ofList text, .between file start (start + width text)⟩,
        ⟨file, encode after, start + width text⟩) := by
  obtain ⟨lead, tail, he, -⟩ := sequenceLength_encode c
  have hm := measure_encode he ds
  have hrest : encode (c :: ds) = lead :: (tail ++ encode ds) := by
    rw [encode_cons, he, List.cons_append]
  have htake : (encode (c :: ds)).take (width text) = encode text := by
    rw [happ, encode_append, width, List.take_left]
  have hskip := skip_encode file (offset + width (cs.takeWhile isLayout)) text after
  rw [← happ] at hskip
  rw [hl] at hm
  rw [Scanner.next, skipLayout_encode, h]
  simp only [hrest, hm]
  rw [← hrest, hskip, Scanner.token, htake, text_encode]

/-! ## All tokens -/

theorem width_dropWhile (cs : List Char) :
    width (cs.takeWhile isLayout) + width (cs.dropWhile isLayout) = width cs := by
  rw [← width_append, List.takeWhile_append_dropWhile]

theorem pieces_of_nil {cs : List Char} (h : cs.dropWhile isLayout = []) : pieces cs = [] := by
  rw [pieces]
  split
  · rfl
  · next hc =>
    rw [h] at hc
    cases hc

theorem pieces_of_cons {cs ds text after : List Char} {c : Char} {kind : TokenKind}
    (h : cs.dropWhile isLayout = c :: ds) (hl : lexeme c ds = (kind, text))
    (happ : c :: ds = text ++ after) :
    pieces cs = ⟨cs.takeWhile isLayout, kind, text⟩ :: pieces after := by
  rw [pieces]
  split
  · next hc =>
    rw [h] at hc
    cases hc
  · next c' ds' hc =>
    rw [h] at hc
    obtain ⟨rfl, rfl⟩ := List.cons.inj hc
    simp only [hl]
    rw [happ, List.drop_left]

theorem place_kinds (offset : Nat) (ps : List Piece) :
    (place file offset ps).map (·.kind) = ps.map (·.kind) := by
  induction ps generalizing offset with
  | nil => rfl
  | cons p ps ih => rw [place, List.map_cons, List.map_cons, ih]

theorem pieces_ne_eof (cs : List Char) : ∀ p ∈ pieces cs, p.kind ≠ .eof := by
  fun_induction pieces cs with
  | case1 => exact nofun
  | case2 cs c ds _ _ ih => exact List.forall_mem_cons.2 ⟨lexeme_ne_eof c ds, ih⟩

/-- The end token is not among the lexemes. -/
theorem tokens_ne_eof (cs : List Char) : ∀ t ∈ tokens file cs, t.kind ≠ .eof := by
  intro t ht
  have hk : t.kind ∈ (tokens file cs).map (·.kind) := List.mem_map_of_mem ht
  rw [tokens, place_kinds] at hk
  obtain ⟨p, hp, hpk⟩ := List.mem_map.1 hk
  rw [← hpk]
  exact pieces_ne_eof cs p hp

/-- The tokens from a scanner on are the pieces of what is left to read. -/
theorem tokens_encode (cs : List Char) (offset : Nat) :
    (⟨file, encode cs, offset⟩ : Scanner).tokens =
      place file offset (pieces cs) ++ [Token.endOf file (offset + width cs)] := by
  induction hlen : cs.length using Nat.strongRecOn generalizing cs offset with
  | ind n ih =>
    cases h : cs.dropWhile isLayout with
    | nil =>
      have hn := next_of_nil file offset h
      rw [Scanner.tokens_of_eof (by rw [hn]; rfl), hn, pieces_of_nil h]
      rfl
    | cons c ds =>
      obtain ⟨text, after, hl, happ⟩ := exists_lexeme_eq c ds
      have hn := next_of_cons file offset h hl happ
      have hw := width_dropWhile cs
      have hle := (List.dropWhile_suffix (l := cs) isLayout).length_le
      rw [h, happ] at hle hw
      rw [Scanner.tokens_of_ne_eof (by rw [hn]; exact lexeme_ne_eof c ds), hn,
        pieces_of_cons h hl happ, ih after.length ?_ after _ rfl, ← hw, width_append]
      · simp [place, Nat.add_assoc]
      · simp only [List.length_append, List.length_cons] at hle
        omega

end Munch

/-! ## Where scanners stand -/

namespace Scanner

/-- The scanner after `n` tokens. -/
def later (s : Scanner) : (n : Nat) → Scanner
  | 0 => s
  | n + 1 => (s.later n).next.2

/-- Later tokens of the scanner behind the next token. -/
theorem later_next (s : Scanner) (n : Nat) : s.next.2.later n = s.later (n + 1) := by
  induction n with
  | zero => rfl
  | succ n ih =>
    show (s.next.2.later n).next.2 = (s.later (n + 1)).next.2
    rw [ih]

/-- A token starts behind the layout in front of it. -/
theorem start_next (s : Scanner) : s.next.1.span.start = .at s.file s.skipLayout.offset := by
  unfold next
  cases hr : s.skipLayout.rest with
  | nil =>
    simp only [hr]
    rfl
  | cons lead rest =>
    simp only [hr]
    rfl

/-- The scanner stands between two characters of the source. -/
structure Splits (s : Scanner) (source : String) (before after : List Char) : Prop where
  /-- The source is cut there. -/
  toList_eq : source.toList = before ++ after
  /-- The bytes in front have been read. -/
  offset_eq : s.offset = width before
  /-- The bytes behind have not. -/
  rest_eq : s.rest = encode after

variable {s : Scanner} {source : String} {before after : List Char}

theorem splits_ofSource (source : String) (file? : Option String) :
    (ofSource source file?).Splits source [] source.toList :=
  ⟨rfl, rfl, bytes_eq_encode source⟩

theorem Splits.eq (h : s.Splits source before after) :
    s = ⟨s.file, encode after, width before⟩ := by
  rw [← h.offset_eq, ← h.rest_eq]

/-- What the next token stands for in the source.  It starts and ends between two
characters, and its text is what stands between. -/
theorem Splits.next (h : s.Splits source before after) :
    ∃ start text rest, s.skipLayout.Splits source start (text ++ rest) ∧
      s.next.2.Splits source (start ++ text) rest ∧
      (s.next.1.kind = .eof ∧ text = [] ∧ rest = [] ∨
        s.next.1.kind ≠ .eof ∧ text ≠ [] ∧ s.next.1.literal = .ofList text) := by
  have hsource := h.toList_eq
  rw [← List.takeWhile_append_dropWhile (p := Munch.isLayout) (l := after), ← List.append_assoc]
    at hsource
  have hskip : s.skipLayout.Splits source (before ++ after.takeWhile Munch.isLayout)
      (after.dropWhile Munch.isLayout) := by
    rw [h.eq, Munch.skipLayout_encode]
    exact ⟨hsource, (width_append _ _).symm, rfl⟩
  cases hd : after.dropWhile Munch.isLayout with
  | nil =>
    have hn := Munch.next_of_nil s.file (width before) hd
    rw [hd] at hskip hsource
    rw [← h.eq] at hn
    refine ⟨_, [], [], hskip, ?_, .inl ⟨by rw [hn]; rfl, rfl, rfl⟩⟩
    rw [List.append_nil]
    refine ⟨hsource, ?_, by rw [hn]; rfl⟩
    have hw := Munch.width_dropWhile after
    rw [hd, width_nil] at hw
    rw [hn, width_append, ← hw]
    rfl
  | cons c ds =>
    obtain ⟨text, rest, hl, happ⟩ := Munch.exists_lexeme_eq c ds
    have hn := Munch.next_of_cons s.file (width before) hd hl happ
    rw [← h.eq] at hn
    rw [hd, happ] at hskip hsource
    refine ⟨_, c :: text, rest, hskip, ?_, .inr ⟨?_, by simp, by rw [hn]⟩⟩
    · refine ⟨by rw [hsource, ← List.append_assoc], ?_, by rw [hn]⟩
      rw [hn, width_append, width_append]
    · rw [hn]
      exact Munch.lexeme_ne_eof c ds

/-- However many tokens have been read, the scanner stands between two characters. -/
theorem Splits.later (h : s.Splits source before after) (n : Nat) :
    ∃ before after, (s.later n).Splits source before after := by
  induction n with
  | zero => exact ⟨_, _, h⟩
  | succ n ih =>
    obtain ⟨before, after, h⟩ := ih
    obtain ⟨start, text, rest, -, hn, -⟩ := h.next
    exact ⟨_, _, hn⟩

theorem splits_later (source : String) (file? : Option String) (n : Nat) :
    ∃ before after, ((ofSource source file?).later n).Splits source before after :=
  (splits_ofSource source file?).later n

end Scanner

/-- The tokens of a source are those of its characters, and the end token behind them. -/
theorem tokenize_eq_append_endOf (source : String) (file? : Option String) :
    tokenize source file? =
      Munch.tokens (file?.getD unnamedFile) source.toList ++
        [Token.endOf (file?.getD unnamedFile) source.utf8ByteSize] := by
  have h := Munch.tokens_encode (file?.getD unnamedFile) source.toList 0
  rw [← bytes_eq_encode, Nat.zero_add, width, ← bytes_eq_encode] at h
  exact h

/-- There is one end token. -/
theorem eq_endOf_of_mem {source : String} {file? : Option String} {t : Token}
    (ht : t ∈ tokenize source file?) (hk : t.kind = .eof) :
    t = Token.endOf (file?.getD unnamedFile) source.utf8ByteSize := by
  rw [tokenize_eq_append_endOf] at ht
  rcases List.mem_append.1 ht with ht | ht
  · exact absurd hk (Munch.tokens_ne_eof _ _ t ht)
  · exact List.mem_singleton.1 ht

/-- In front of the last token are those of the characters. -/
theorem eq_tokens_of_tokenize {source : String} {file? : Option String} {ts : List Token}
    {last : Token} (h : tokenize source file? = ts ++ [last]) :
    ts = Munch.tokens (file?.getD unnamedFile) source.toList := by
  rw [tokenize_eq_append_endOf] at h
  exact (List.append_inj' h rfl).1.symm

/-- The tokens of a source are the lexemes of its characters by maximal munch, and the end
token behind them.  However many tokens have been read, the next one starts and ends
between two characters of the source and has the text between. -/
theorem tokenize_eq_munch (source : String) (file? : Option String) :
    tokenize source file? =
        Munch.tokens (file?.getD unnamedFile) source.toList ++
          [Token.endOf (file?.getD unnamedFile) source.utf8ByteSize] ∧
      ∀ n, let s := (Scanner.ofSource source file?).later n
        ∃ start text rest, s.skipLayout.Splits source start (text ++ rest) ∧
          s.next.2.Splits source (start ++ text) rest ∧
          (s.next.1.kind = .eof ∧ text = [] ∧ rest = [] ∨
            s.next.1.kind ≠ .eof ∧ text ≠ [] ∧ s.next.1.literal = .ofList text) := by
  constructor
  · have h := Munch.tokens_encode (file?.getD unnamedFile) source.toList 0
    rw [← bytes_eq_encode, Nat.zero_add, width, ← bytes_eq_encode] at h
    exact h
  · intro n
    obtain ⟨before, after, h⟩ := Scanner.splits_later source file? n
    exact h.next

end ExprLang
