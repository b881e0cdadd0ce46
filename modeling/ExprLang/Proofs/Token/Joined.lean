import ExprLang.Proofs.Token.Spelled

/-!
# Tokens of joined texts

A text behind another one is scanned as it is by itself, only further on in the source, if
its first character does not go on with the lexeme that the other one ends with
(`Munch.Apart`).  For a lexeme inside the first text it makes no difference what comes
behind, because maximal munch has stopped at a character that does not go on with it
(`Munch.lexeme_stops`).
-/

namespace ExprLang

open Utf8

/-! ## Positions further on -/

/-- The position `n` bytes further on in the same source. -/
def Position.shift (n : Nat) (p : Position) : Position := ⟨p.offset + UInt32.ofNat n, p.file⟩

theorem Position.shift_at (file : String) (n offset : Nat) :
    (Position.at file offset).shift n = .at file (n + offset) := by
  rw [Position.at, Position.at, shift, ← UInt32.ofNat_add, Nat.add_comm]

theorem Span.shift_between (file : String) (n start stop : Nat) :
    (Span.between file start stop).move (Position.shift n) =
      .between file (n + start) (n + stop) := by
  rw [between, move, Position.shift_at, Position.shift_at]
  rfl

theorem Token.shift_endOf (file : String) (n length : Nat) :
    (endOf file length).move (Position.shift n) = endOf file (n + length) :=
  congrArg (Token.mk _ _) (Span.shift_between file n length length)

/-! ## Characters that are lexemes whatever follows them -/

/-- No character goes on with the lexeme. -/
theorem TokenKind.sign_goesOn {c : Char} {k : TokenKind} (h : (c, k) ∈ Munch.signs) (d : Char) :
    k.goesOn d = false := by
  have hkinds : ∀ sign ∈ Munch.signs, sign.2.goesOn d = false := by
    simp [Munch.signs, goesOn]
  exact hkinds (c, k) h

/-- The character goes on with no lexeme. -/
theorem TokenKind.goesOn_sign {c : Char} {k : TokenKind} (h : (c, k) ∈ Munch.signs)
    (l : TokenKind) : l.goesOn c = false := by
  have hchars : ∀ sign ∈ Munch.signs, l.goesOn sign.1 = false := by
    cases l <;> decide
  exact hchars (c, k) h

namespace Munch

/-- Pieces further on in a file are tokens further on in it. -/
theorem place_shift (file : String) (n offset : Nat) (ps : List Piece) :
    place file (n + offset) ps = (place file offset ps).map (·.move (Position.shift n)) := by
  induction ps generalizing offset with
  | nil => rfl
  | cons p ps ih =>
    rw [place, place, List.map_cons, Token.move, Span.shift_between, ← ih]
    simp only [Nat.add_assoc]

/-! ## Where lexemes stop -/

/-- A run ends before a character that does not go on with it. -/
theorem takeWhile_stops {p : Char → Bool} {cs after : List Char}
    (h : cs = cs.takeWhile p ++ after) : ∀ d ∈ after.head?, p d = false := by
  have hafter : after = cs.dropWhile p :=
    List.append_cancel_left (h.symm.trans List.takeWhile_append_dropWhile.symm)
  intro d hd
  have hnot := List.head?_dropWhile_not p cs
  rw [← hafter, hd] at hnot
  simpa using hnot

/-- Behind a lexeme stands a character that does not go on with it. -/
theorem lexeme_stops {c : Char} {cs text after : List Char} {kind : TokenKind}
    (h : lexeme c cs = (kind, c :: text)) (happ : cs = text ++ after) :
    ∀ d ∈ after.head?, kind.goesOn d = false := by
  intro d hd
  cases lexeme_eq_iff.1 h with
  | sign hc => exact TokenKind.sign_goesOn hc d
  | equals => rfl
  | assign hcs | bang hcs =>
    refine decide_eq_false ?_
    rintro rfl
    exact hcs (happ ▸ hd)
  | notEquals => rfl
  | word _ =>
    rw [TokenKind.goesOn_wordKind]
    exact takeWhile_stops happ d hd
  | number _ => exact takeWhile_stops happ d hd
  | illegal _ _ _ _ _ => rfl

/-- Does `ds` not go on with the lexeme that `cs` ends with? -/
def Apart (cs ds : List Char) : Prop :=
  ∀ p, (pieces cs).getLast? = some p → p.text <:+ cs → ∀ d ∈ ds.head?, p.kind.goesOn d = false

/-- Layout in front only moves lexemes further on. -/
theorem place_pieces_layout (file : String) {cs : List Char} (h : cs.dropWhile isLayout = [])
    (ds : List Char) (offset : Nat) :
    place file offset (pieces (cs ++ ds)) = place file (offset + width cs) (pieces ds) := by
  have htake := List.takeWhile_append_dropWhile (p := isLayout) (l := cs)
  rw [h, List.append_nil] at htake
  have hcs : ∀ c ∈ cs, isLayout c := by
    rw [← htake]
    exact List.all_eq_true.1 List.all_takeWhile
  have hdrop : (cs ++ ds).dropWhile isLayout = ds.dropWhile isLayout :=
    List.dropWhile_append_of_pos hcs
  cases hd : ds.dropWhile isLayout with
  | nil => rw [pieces_of_nil hd, pieces_of_nil (hdrop.trans hd)]; rfl
  | cons d es =>
    obtain ⟨text, after, hl, happ⟩ := exists_lexeme_eq d es
    rw [pieces_of_cons hd hl happ, pieces_of_cons (hdrop.trans hd) hl happ,
      List.takeWhile_append_of_pos hcs, place, place, width_append]
    simp only [Nat.add_assoc]

/-- A run that ends within a text is not changed by what comes behind the text. -/
theorem takeWhile_append_of_dropWhile {p : Char → Bool} {cs es : List Char} {c : Char}
    (h : cs.dropWhile p = c :: es) (ds : List Char) :
    (cs ++ ds).takeWhile p = cs.takeWhile p := by
  induction cs with
  | nil => cases h
  | cons x xs ih =>
    rw [List.dropWhile_cons] at h
    rw [List.cons_append, List.takeWhile_cons, List.takeWhile_cons]
    split
    · next hx =>
      rw [if_pos hx] at h
      rw [ih h]
    · rfl

theorem Apart.of_suffix {cs after ds : List Char} {p : Piece} (h : Apart cs ds)
    (hp : pieces cs = p :: pieces after) (hs : after <:+ cs) : Apart after ds := by
  intro q hq htext
  refine h q ?_ (htext.trans hs)
  rw [hp, List.getLast?_cons, hq, Option.getD_some]

/-- Texts that are apart are cut into lexemes one behind the other. -/
theorem place_pieces_append (file : String) {cs ds : List Char} (h : Apart cs ds)
    (offset : Nat) :
    place file offset (pieces (cs ++ ds)) =
      place file offset (pieces cs) ++ place file (offset + width cs) (pieces ds) := by
  induction hlen : cs.length using Nat.strongRecOn generalizing cs offset with
  | ind n ih =>
    have hcs := List.takeWhile_append_dropWhile (p := isLayout) (l := cs)
    cases hd : cs.dropWhile isLayout with
    | nil => rw [place_pieces_layout file hd, pieces_of_nil hd]; rfl
    | cons c es =>
      obtain ⟨text, after, hl, happ⟩ := exists_lexeme_eq c es
      have hes : es = text ++ after := List.tail_eq_of_cons_eq happ
      have hpieces := pieces_of_cons hd hl happ
      rw [hd, happ] at hcs
      have hsuffix : after <:+ cs := ⟨_, by rw [← hcs, List.append_assoc]⟩
      -- The lexeme stops inside the first text, or at its end, where the texts are apart.
      have hstops : ∀ x ∈ (after ++ ds).head?, (lexeme c es).1.goesOn x = false := by
        cases after with
        | nil =>
          rw [List.append_nil] at hcs
          refine h ⟨cs.takeWhile isLayout, (lexeme c es).1, c :: text⟩ ?_ ⟨_, hcs⟩
          rw [hpieces, pieces_of_nil rfl]
          rfl
        | cons x after => exact fun y hy => lexeme_stops hl hes y hy
      have hl' : lexeme c (es ++ ds) = ((lexeme c es).1, c :: text) := by
        rw [show es ++ ds = text ++ (after ++ ds) by rw [hes, List.append_assoc]]
        exact lexeme_append_of_stop hl hstops
      have hdrop : (cs ++ ds).dropWhile isLayout = c :: (es ++ ds) := by
        rw [List.dropWhile_append, hd]
        rfl
      have happ' : c :: (es ++ ds) = (c :: text) ++ (after ++ ds) := by
        rw [hes, List.cons_append, List.append_assoc]
      have htake := takeWhile_append_of_dropWhile hd ds
      have hlt : after.length < n := by
        rw [← hlen, ← hcs]
        simp only [List.length_append, List.length_cons]
        omega
      have hw : width cs =
          width (cs.takeWhile isLayout) + width (c :: text) + width after := by
        rw [← width_append, ← width_append, List.append_assoc, hcs]
      rw [pieces_of_cons hdrop hl' happ', hpieces, htake, place, place, List.cons_append,
        ih after.length hlt (h.of_suffix hpieces hsuffix) _ rfl, hw]
      simp only [Nat.add_assoc]

/-! ## Lexemes of one character -/

variable {c : Char} {kind : TokenKind}

/-- A character that is a lexeme whatever follows it stands apart from what is in front. -/
theorem apart_of_sign (hc : (c, kind) ∈ signs) (cs : List Char) : Apart cs [c] := by
  intro p _ _ d hd
  cases hd
  exact TokenKind.goesOn_sign hc p.kind

theorem pieces_of_sign (hc : (c, kind) ∈ signs) : pieces [c] = [⟨[], kind, [c]⟩] := by
  have hlayout : isLayout c = false := by
    have hchars : ∀ sign ∈ signs, isLayout sign.1 = false := by decide
    exact hchars (c, kind) hc
  have hfirst : [c].dropWhile isLayout = [c] := by
    rw [List.dropWhile_cons, hlayout]
    rfl
  have htake : [c].takeWhile isLayout = [] := by
    rw [List.takeWhile_cons, hlayout]
    rfl
  have htext : [c] = [c] ++ [] := rfl
  rw [pieces_of_cons hfirst (lexeme_eq_iff.2 (.sign hc)) htext, pieces_of_nil rfl, htake]

/-- Behind other characters it is a token behind theirs. -/
theorem exists_tokens_concat (hc : (c, kind) ∈ signs) (file : String)
    (cs : List Char) :
    ∃ u, u.kind = kind ∧ tokens file (cs ++ [c]) = tokens file cs ++ [u] := by
  rw [tokens, place_pieces_append file (apart_of_sign hc cs), pieces_of_sign hc]
  exact ⟨_, rfl, rfl⟩

/-- What follows it stands apart from it. -/
theorem apart_concat (hc : (c, kind) ∈ signs) (cs ds : List Char) :
    Apart (cs ++ [c]) ds := by
  intro p hp _ d _
  obtain ⟨u, hu, htokens⟩ := exists_tokens_concat hc "" cs
  have hkinds := place_kinds "" 0 (pieces (cs ++ [c]))
  rw [← tokens, htokens, List.map_append] at hkinds
  have hlast := congrArg List.getLast? hkinds
  rw [List.map_singleton, List.getLast?_concat, List.getLast?_map, hp] at hlast
  have hk : p.kind = u.kind := (Option.some.inj hlast).symm
  rw [hk, hu]
  exact TokenKind.sign_goesOn hc d

end Munch

/-- A source whose last byte is a semicolon ends with that character. -/
theorem toList_of_semicolon {a : String} (h : (bytes a).getLast? = some 0x3B) :
    ∃ cs, a.toList = cs ++ [';'] := by
  rw [bytes_eq_encode] at h
  rcases List.eq_nil_or_concat a.toList with hnil | ⟨cs, c, hconcat⟩
  · rw [hnil] at h
    cases h
  · rw [List.concat_eq_append] at hconcat
    refine ⟨cs, ?_⟩
    rw [hconcat, encode_append, encode_cons, encode_nil, List.append_nil] at h
    obtain ⟨start, last, he, hlast⟩ := exists_encode_eq_concat c
    rw [he, ← List.append_assoc, List.getLast?_concat] at h
    obtain rfl := Option.some.inj h
    rw [hconcat, hlast ';' (by decide) rfl]

/-- The tokens of two texts that are apart are those of the first one, and those of the second
one further on. -/
theorem tokenize_append {a b : String} (h : Munch.Apart a.toList b.toList)
    (file? : Option String) :
    tokenize (a ++ b) file? = Munch.tokens (file?.getD unnamedFile) a.toList ++
      (tokenize b file?).map (·.move (Position.shift a.utf8ByteSize)) := by
  rw [tokenize_eq_append_endOf, tokenize_eq_append_endOf b, Munch.tokens, String.toList_append,
    Munch.place_pieces_append _ h, List.append_assoc, List.map_append, Nat.zero_add, width_toList]
  refine congrArg _ (congr (congrArg _ ?_) ?_)
  · exact Munch.place_shift _ _ 0 _
  · rw [List.map_singleton, Token.shift_endOf, String.utf8ByteSize_append]

/-- A source that ends with a semicolon may be continued with any other.  The tokens up to the
semicolon stay as they are, and behind it come those of the other one. -/
theorem tokenize_append_of_semicolon {a : String} (h : (bytes a).getLast? = some 0x3B)
    (b : String) (file? : Option String) :
    ∃ ts u, (∀ t ∈ ts, t.kind ≠ .eof) ∧ u.kind = .semicolon ∧
      tokenize a file? =
        (ts ++ [u]) ++ [Token.endOf (file?.getD unnamedFile) a.utf8ByteSize] ∧
      tokenize (a ++ b) file? =
        (ts ++ [u]) ++ (tokenize b file?).map (·.move (Position.shift a.utf8ByteSize)) := by
  obtain ⟨cs, hcs⟩ := toList_of_semicolon h
  have hsign : (';', .semicolon) ∈ Munch.signs := by decide
  have hapart : Munch.Apart a.toList b.toList := hcs ▸ Munch.apart_concat hsign cs _
  obtain ⟨u, hu, htokens⟩ := Munch.exists_tokens_concat hsign (file?.getD unnamedFile) cs
  rw [← hcs] at htokens
  refine ⟨_, u, Munch.tokens_ne_eof (file?.getD unnamedFile) cs, hu, ?_, ?_⟩
  · rw [← htokens]
    exact tokenize_eq_append_endOf a file?
  · rw [← htokens]
    exact tokenize_append hapart file?

end ExprLang
