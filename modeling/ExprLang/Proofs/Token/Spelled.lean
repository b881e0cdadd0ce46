import ExprLang.Proofs.Token.Munch
import ExprLang.Proofs.Tree.Move

/-!
# Spelled tokens

A token is *spelled* if its text by itself is a lexeme of its kind.  Every token of a
source is (`Scanner.Splits.scanned`), and the texts of spelled tokens are scanned as those
tokens again, as long as no character behind one goes on with it (`Token.Spelled.lexed`).
-/

namespace ExprLang

/-! ## Lexemes by themselves -/

/-- Can a character behind a token of this kind belong to the token? -/
def TokenKind.goesOn : TokenKind → Char → Bool
  | int, c => c.isDigit
  | assign, c | bang, c => c = '='
  | identifier, c | kwFn, c | kwLet, c | kwTrue, c | kwFalse, c | kwIf, c | kwElse, c
  | kwReturn, c => Munch.isLetter c
  | _, _ => false

/-- A word goes on with letters, keyword or not. -/
theorem TokenKind.goesOn_wordKind (word : String) (c : Char) :
    (Munch.wordKind word).goesOn c = Munch.isLetter c := by
  unfold Munch.wordKind
  split <;> rfl

namespace Munch

/-- A run ends where the next character does not go on with it. -/
theorem takeWhile_append_of_stop {p : Char → Bool} {cs after : List Char}
    (h : ∀ d ∈ after.head?, p d = false) :
    (cs.takeWhile p ++ after).takeWhile p = cs.takeWhile p := by
  rw [List.takeWhile_append_of_pos (List.all_eq_true.1 List.all_takeWhile)]
  cases after with
  | nil => simp
  | cons d ds => simp [h d rfl]

/-- A lexeme is told from its own text, before any character that does not go on with
it. -/
theorem lexeme_append_of_stop {c : Char} {cs text after : List Char} {kind : TokenKind}
    (h : lexeme c cs = (kind, c :: text)) (hd : ∀ d ∈ after.head?, kind.goesOn d = false) :
    lexeme c (text ++ after) = (kind, c :: text) := by
  rw [lexeme_eq_iff] at h ⊢
  cases h with
  | sign hc => exact .sign hc
  | equals => exact .equals
  | assign _ => exact .assign fun hhead => absurd (hd '=' hhead) (by decide)
  | notEquals => exact .notEquals
  | bang _ => exact .bang fun hhead => absurd (hd '=' hhead) (by decide)
  | word hc =>
    have hword : Longest c (cs.takeWhile isLetter ++ after) _ _ := .word hc
    simp only [TokenKind.goesOn_wordKind] at hd
    rwa [takeWhile_append_of_stop hd] at hword
  | number hc =>
    have hnumber : Longest c (cs.takeWhile Char.isDigit ++ after) _ _ := .number hc
    rwa [takeWhile_append_of_stop (p := Char.isDigit) hd] at hnumber
  | illegal hsigns hequals hbang hletter hdigit =>
    exact .illegal hsigns hequals hbang hletter hdigit

end Munch

/-! ## Spelled tokens -/

/-- Is the text of the token by itself a lexeme of its kind? -/
def Token.Spelled (t : Token) : Prop :=
  ∃ c text, t.literal.toList = c :: text ∧ Munch.isLayout c = false ∧
    Munch.lexeme c text = (t.kind, c :: text)

/-- Is it the end token, or spelled? -/
def Token.Scanned (t : Token) : Prop := t.kind = .eof ∧ t.literal = "\x00" ∨ t.Spelled

/-- The tokens that a scanner gives are spelled, up to the end token. -/
theorem Scanner.Splits.scanned {s : Scanner} {source : String} {before after : List Char}
    (h : s.Splits source before after) : s.next.1.Scanned := by
  cases hd : after.dropWhile Munch.isLayout with
  | nil =>
    have hn := Munch.next_of_nil s.file (Utf8.width before) hd
    rw [← h.eq] at hn
    rw [hn]
    exact .inl ⟨rfl, rfl⟩
  | cons c ds =>
    obtain ⟨text, rest, hl, happ⟩ := Munch.exists_lexeme_eq c ds
    have hn := Munch.next_of_cons s.file (Utf8.width before) hd hl happ
    rw [← h.eq] at hn
    have hself : Munch.lexeme c (text ++ []) = (_, c :: text) :=
      Munch.lexeme_append_of_stop hl nofun
    rw [List.append_nil] at hself
    rw [hn]
    refine .inr ⟨c, text, String.toList_ofList, ?_, hself⟩
    have hc := List.head?_dropWhile_not Munch.isLayout after
    rw [hd] at hc
    simpa using hc

namespace Munch

/-! ## Lexing spelled tokens -/

/-- The token of a piece, without a place. -/
def Piece.token (p : Piece) : Token := ⟨p.kind, .ofList p.text, ⟨.nowhere, .nowhere⟩⟩

/-- The tokens of some characters, without their places. -/
def lexed (cs : List Char) : List Token := (pieces cs).map Piece.token

theorem place_unplaced (file : String) (offset : Nat) (ps : List Piece) :
    (place file offset ps).map Token.unplaced = ps.map Piece.token := by
  induction ps generalizing offset with
  | nil => rfl
  | cons p ps ih =>
    rw [place, List.map_cons, List.map_cons, ih]
    rfl

/-- The tokens of a source without their places. -/
theorem tokenize_unplaced (source : String) (file? : Option String) :
    (tokenize source file?).map Token.unplaced =
      lexed source.toList ++ [⟨.eof, "\x00", ⟨.nowhere, .nowhere⟩⟩] := by
  have h := tokens_encode (file?.getD unnamedFile) source.toList 0
  rw [← Utf8.bytes_eq_encode] at h
  have hs : tokenize source file? = _ := h
  rw [hs, List.map_append, place_unplaced]
  rfl

theorem lexed_nil : lexed [] = [] := by
  rw [lexed, pieces_of_nil rfl]
  rfl

theorem lexed_layout {c : Char} (hc : isLayout c) (cs : List Char) :
    lexed (c :: cs) = lexed cs := by
  have hdrop : (c :: cs).dropWhile isLayout = cs.dropWhile isLayout :=
    List.dropWhile_cons_of_pos hc
  unfold lexed
  cases hd : cs.dropWhile isLayout with
  | nil => rw [pieces_of_nil hd, pieces_of_nil (hdrop.trans hd)]
  | cons d ds =>
    obtain ⟨text, after, hl, happ⟩ := exists_lexeme_eq d ds
    rw [pieces_of_cons hd hl happ, pieces_of_cons (hdrop.trans hd) hl happ]
    rfl

theorem lexed_of_lexeme {c : Char} {ds text after : List Char} {kind : TokenKind}
    (hc : isLayout c = false) (hl : lexeme c ds = (kind, text)) (happ : c :: ds = text ++ after) :
    lexed (c :: ds) = ⟨kind, .ofList text, ⟨.nowhere, .nowhere⟩⟩ :: lexed after := by
  have hdrop : (c :: ds).dropWhile isLayout = c :: ds := by
    rw [List.dropWhile_cons, hc]
    rfl
  rw [lexed, pieces_of_cons hdrop hl happ]
  rfl

end Munch

/-- The text of a spelled token is scanned as the token. -/
theorem Token.Spelled.lexed {t : Token} (h : t.Spelled) {after : List Char}
    (hd : ∀ d ∈ after.head?, t.kind.goesOn d = false) :
    Munch.lexed (t.literal.toList ++ after) = t.unplaced :: Munch.lexed after := by
  obtain ⟨c, text, ht, hc, hl⟩ := h
  have hlit : t.literal = .ofList (c :: text) := by rw [← ht, String.ofList_toList]
  rw [ht, List.cons_append, Munch.lexed_of_lexeme hc (Munch.lexeme_append_of_stop hl hd) rfl,
    Token.unplaced, Token.move, hlit]
  rfl

theorem TokenKind.goesOn_layout (k : TokenKind) {c : Char} (hc : Munch.isLayout c) :
    k.goesOn c = false := by
  simp only [Munch.isLayout, Bool.or_eq_true, decide_eq_true_eq] at hc
  rcases hc with ((rfl | rfl) | rfl) | rfl <;> cases k <;> decide

/-- A blank behind a token only ends it. -/
theorem Token.Spelled.lexed_blank {t : Token} (h : t.Spelled) (after : List Char) :
    Munch.lexed (t.literal.toList ++ ' ' :: after) = t.unplaced :: Munch.lexed after := by
  rw [h.lexed, Munch.lexed_layout rfl]
  intro d hd
  cases hd
  exact t.kind.goesOn_layout rfl

/-! ## Sources for some tokens -/

/-- The texts of some tokens stand in order with layout around them, and none goes on with the
character behind it. -/
inductive Token.LaidOut : List Token → List Char → Prop
  | nil {back : List Char} : (∀ c ∈ back, Munch.isLayout c) → LaidOut [] back
  | cons {t : Token} {ts : List Token} {front after : List Char} :
      (∀ c ∈ front, Munch.isLayout c) → (∀ d ∈ after.head?, t.kind.goesOn d = false) →
      LaidOut ts after → LaidOut (t :: ts) (front ++ (t.literal.toList ++ after))

namespace Token.LaidOut

variable {t : Token} {ts : List Token} {front after : List Char} {c : Char}

/-- There may be more layout in front. -/
theorem layout (hc : Munch.isLayout c) (h : LaidOut ts after) : LaidOut ts (c :: after) := by
  cases h with
  | nil hback => exact .nil (List.forall_mem_cons.2 ⟨hc, hback⟩)
  | cons hfront hstop hafter =>
    exact .cons (List.forall_mem_cons.2 ⟨hc, hfront⟩) hstop hafter

/-- Where layout stands between tokens, none goes on. -/
theorem apart (hfront : ∀ d ∈ front, Munch.isLayout d) (hc : Munch.isLayout c)
    (h : LaidOut ts after) : LaidOut (t :: ts) (front ++ (t.literal.toList ++ c :: after)) := by
  refine .cons hfront ?_ (h.layout hc)
  intro d hd
  cases hd
  exact t.kind.goesOn_layout hc

end Token.LaidOut

namespace Munch

theorem lexed_layout_append {front : List Char} (h : ∀ c ∈ front, isLayout c) (cs : List Char) :
    lexed (front ++ cs) = lexed cs := by
  induction front with
  | nil => rfl
  | cons c front ih =>
    obtain ⟨hc, hfront⟩ := List.forall_mem_cons.1 h
    rw [List.cons_append, lexed_layout hc, ih hfront]

/-- Spelled tokens are scanned from where they are laid out. -/
theorem lexed_laidOut {ts : List Token} {cs : List Char} (h : Token.LaidOut ts cs)
    (hs : ∀ t ∈ ts, t.Spelled) : lexed cs = ts.map Token.unplaced := by
  induction h with
  | @nil back hback =>
    have hlexed := lexed_layout_append hback []
    rwa [List.append_nil, lexed_nil] at hlexed
  | cons hfront hstop _ ih =>
    obtain ⟨ht, hts⟩ := List.forall_mem_cons.1 hs
    rw [lexed_layout_append hfront, ht.lexed hstop, ih hts, List.map_cons]

end Munch

/-- The texts of some tokens, a blank behind each. -/
def Token.spaced (ts : List Token) : String :=
  .ofList (ts.flatMap fun t => t.literal.toList ++ [' '])

theorem Token.laidOut_spaced (ts : List Token) : LaidOut ts (Token.spaced ts).toList := by
  rw [spaced, String.toList_ofList]
  induction ts with
  | nil => exact .nil (List.forall_mem_nil _)
  | cons t ts ih =>
    have h : LaidOut (t :: ts) ([] ++ (t.literal.toList ++ ' ' :: _)) :=
      .apart (List.forall_mem_nil _) rfl ih
    rw [List.flatMap_cons, List.append_assoc, List.singleton_append]
    exact h

/-- Tokens with blanks between them are scanned as those tokens. -/
theorem tokenize_spaced {ts : List Token} (h : ∀ t ∈ ts, t.Spelled) (file? : Option String) :
    (tokenize (Token.spaced ts) file?).map Token.unplaced =
      ts.map Token.unplaced ++ [⟨.eof, "\x00", ⟨.nowhere, .nowhere⟩⟩] := by
  rw [Munch.tokenize_unplaced, Munch.lexed_laidOut (Token.laidOut_spaced ts) h]

end ExprLang
