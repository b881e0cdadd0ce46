import ExprLang.Proofs.Token.Excerpt

/-!
# Texts that are apart

Two texts one behind the other have the tokens of the first and, further on, those of the second
wherever no token of the first can go on into the second (`tokenize_append_of_apart`).

`Munch.Apart` asks this of the last lexeme of the first text, if the text ends with its
characters.  Here the same is told from the tokens.  The last of them stops where the text does
exactly if no layout is behind it, and then the text of its lexeme is what the text ends with,
for no lexeme has layout in it (`Munch.text_of_mem_pieces`).
-/

namespace ExprLang

open Utf8

namespace Munch

/-! ## Lexemes have no layout in them -/

/-- A run of characters of a class without layout has none in it. -/
theorem isLayout_of_mem_run {p : Char → Bool} (hp : [' ', '\t', '\n', '\r'].all (!p ·))
    {c : Char} (hc : isLayout c = false) (cs : List Char) :
    ∀ d ∈ c :: cs.takeWhile p, isLayout d = false := by
  refine List.forall_mem_cons.2 ⟨hc, fun d hd => ?_⟩
  exact isLayout_eq_false hp (List.all_eq_true.1 List.all_takeWhile d hd)

/-- A lexeme that does not start with layout has none in it. -/
theorem Longest.isLayout_of_mem {c : Char} {cs text : List Char} {kind : TokenKind}
    (h : Longest c cs kind text) (hc : isLayout c = false) : ∀ d ∈ text, isLayout d = false := by
  have hsingle : ∀ d ∈ [c], isLayout d = false := List.forall_mem_singleton.2 hc
  cases h with
  | sign _ => exact hsingle
  | equals | assign | notEquals | bang => simp [isLayout]
  | word _ => exact isLayout_of_mem_run (by decide) hc cs
  | number _ => exact isLayout_of_mem_run (by decide) hc cs
  | illegal _ _ _ _ _ => exact hsingle

/-- Every piece has a text, and no layout in it. -/
theorem text_of_mem_pieces (cs : List Char) :
    ∀ p ∈ pieces cs, p.text ≠ [] ∧ ∀ d ∈ p.text, isLayout d = false := by
  fun_induction pieces cs with
  | case1 => exact List.forall_mem_nil _
  | case2 cs c ds hd l ih =>
    have hc : isLayout c = false := by
      have hnot := List.head?_dropWhile_not isLayout cs
      rw [hd] at hnot
      simpa using hnot
    obtain ⟨text, after, ht, -⟩ := lexeme_append c ds
    have hne : l.2 ≠ [] := by
      show (lexeme c ds).2 ≠ []
      rw [ht]
      exact List.cons_ne_nil _ _
    exact List.forall_mem_cons.2 ⟨⟨hne, (lexeme_longest c ds).isLayout_of_mem hc⟩, ih⟩

/-! ## Where the last token stops -/

theorem dropWhile_of_pieces_eq_nil {cs : List Char} (h : pieces cs = []) :
    cs.dropWhile isLayout = [] := by
  cases hd : cs.dropWhile isLayout with
  | nil => rfl
  | cons c ds =>
    obtain ⟨text, after, hl, happ⟩ := exists_lexeme_eq c ds
    rw [pieces_of_cons hd hl happ] at h
    cases h

theorem pieces_of_place_eq_nil {file : String} {offset : Nat} {ps : List Piece}
    (h : place file offset ps = []) : ps = [] := by
  cases ps with
  | nil => rfl
  | cons p ps => cases h

/-- A text that ends with characters which are no layout has no layout at its end. -/
theorem eq_nil_of_suffix {front back text : List Char} (hback : back.dropWhile isLayout = [])
    (hne : text ≠ []) (htext : ∀ d ∈ text, isLayout d = false) (h : text <:+ front ++ back) :
    back = [] := by
  rcases List.eq_nil_or_concat back with hnil | ⟨bs, b, rfl⟩
  · exact hnil
  rw [List.concat_eq_append] at hback h
  obtain ⟨pre, hpre⟩ := h
  rcases List.eq_nil_or_concat text with hnil | ⟨ts, t, rfl⟩
  · exact absurd hnil hne
  rw [List.concat_eq_append, ← List.append_assoc, ← List.append_assoc] at hpre
  obtain ⟨-, hlast⟩ := List.append_inj' hpre rfl
  obtain rfl : t = b := List.head_eq_of_cons_eq hlast
  have hlayout : isLayout t := by
    have hall := List.all_eq_true.1 (List.all_takeWhile (p := isLayout) (l := bs ++ [t]))
    have htake := List.takeWhile_append_dropWhile (p := isLayout) (l := bs ++ [t])
    rw [hback, List.append_nil] at htake
    rw [htake] at hall
    exact hall t (List.mem_append_right bs (List.mem_singleton_self t))
  have hnot := htext t (by simp)
  rw [hlayout] at hnot
  cases hnot

/-- Texts are apart unless the last token of the first stops where the text does and goes on with
the first character of the second. -/
theorem apart_of_tokens {file : String} {cs ds : List Char}
    (h : ∀ t ∈ (tokens file cs).getLast?, t.span.stop = .at file (width cs) →
      ∀ d ∈ ds.head?, t.kind.goesOn d = false) : Apart cs ds := by
  intro p hp htext
  have hkinds := congrArg List.getLast? (place_kinds file 0 (pieces cs))
  rw [List.getLast?_map, List.getLast?_map, hp] at hkinds
  obtain ⟨t, ht, hk⟩ := Option.map_eq_some_iff.1 hkinds
  obtain ⟨front, back, hcs, -, hback, hstop⟩ :=
    exists_cut (List.append_nil (tokens file cs)).symm
  obtain ⟨hne, hnone⟩ := text_of_mem_pieces cs p (List.mem_of_getLast? hp)
  have hlayout := dropWhile_of_pieces_eq_nil (pieces_of_place_eq_nil hback)
  -- Nothing is behind the last token, because the text ends with what is no layout.
  obtain rfl := eq_nil_of_suffix hlayout hne hnone (hcs ▸ htext)
  rw [List.append_nil] at hcs
  have hlast : t.span.stop = .at file (width cs) := by
    rw [tokens, List.getLastD_eq_getLast?, List.getLast?_map, ht, Nat.zero_add, ← hcs] at hstop
    exact hstop
  have hk : t.kind = p.kind := hk
  rw [← hk]
  exact h t ht hlast

end Munch

/-! ## Joined sources -/

/-- The last token of a source by maximal munch is the one in front of the end token. -/
theorem dropLast_tokenize (source : String) (file? : Option String) :
    (tokenize source file?).dropLast = Munch.tokens (file?.getD unnamedFile) source.toList := by
  rw [tokenize_eq_append_endOf, List.dropLast_concat]

/-- No token of a source that 32-bit offsets can address stops behind its end. -/
theorem stop_le_of_mem_tokenize {source : String} {file? : Option String} {t : Token}
    (h : source.utf8ByteSize < UInt32.size) (ht : t ∈ tokenize source file?) :
    t.start ≤ t.stop ∧ t.stop ≤ source.utf8ByteSize := by
  obtain ⟨ts, htokens, htiles⟩ := exists_tiles h file?
  rw [htokens] at ht
  rcases List.mem_append.1 ht with ht | ht
  · obtain ⟨-, -, hlt, hle⟩ := htiles.bounds t ht
    rw [Nat.zero_add, length_bytes] at hle
    exact ⟨Nat.le_of_lt hlt, hle⟩
  · obtain rfl := List.mem_singleton.1 ht
    have hend : (Token.endOf (file?.getD unnamedFile) source.utf8ByteSize).stop =
        source.utf8ByteSize := Position.offset_at h
    exact ⟨Nat.le_refl _, Nat.le_of_eq hend⟩

/-- As long as 32 bits hold it, a shifted position is further on by just as much. -/
theorem Position.toNat_shift {n : Nat} {p : Position} (h : n + p.offset.toNat < UInt32.size) :
    (p.shift n).offset.toNat = n + p.offset.toNat := by
  have hn : (UInt32.ofNat n).toNat = n :=
    Nat.mod_eq_of_lt (Nat.lt_of_le_of_lt (Nat.le_add_right _ _) h)
  rw [shift, UInt32.toNat_add, hn, Nat.add_comm]
  exact Nat.mod_eq_of_lt h

/-- Joined sources have the tokens of the first one without its end token, and behind them those
of the second one, further on by the length of the first.  The only exception is a token that the
first source ends with and that goes on with the first character of the second: a word before a
letter or an underscore, a number before a digit, and a `=` or `!` before a `=`. -/
theorem tokenize_append_of_apart {a b : String} {file? : Option String}
    (hsize : a.utf8ByteSize + b.utf8ByteSize < UInt32.size)
    (h : ∀ t ∈ (tokenize a file?).dropLast.getLast?, t.stop = a.utf8ByteSize →
      ∀ c ∈ b.toList.head?, t.kind.goesOn c = false) :
    tokenize (a ++ b) file? = (tokenize a file?).dropLast ++
        (tokenize b file?).map (·.move (.shift a.utf8ByteSize)) ∧
      ∀ t ∈ tokenize b file?, (t.move (.shift a.utf8ByteSize)).start = a.utf8ByteSize + t.start ∧
        (t.move (.shift a.utf8ByteSize)).stop = a.utf8ByteSize + t.stop := by
  have hwidth : width a.toList = a.utf8ByteSize := by
    rw [width, ← bytes_eq_encode, length_bytes]
  rw [dropLast_tokenize] at h ⊢
  have hapart : Munch.Apart a.toList b.toList := by
    refine Munch.apart_of_tokens fun t ht hstop => h t ht ?_
    rw [Token.stop, hstop, hwidth]
    exact Position.offset_at (by omega)
  refine ⟨tokenize_append hapart file?, fun t ht => ?_⟩
  obtain ⟨hle, hstop⟩ := stop_le_of_mem_tokenize (by omega) ht
  exact ⟨Position.toNat_shift (p := t.span.start) (show _ + t.start < _ by omega),
    Position.toNat_shift (p := t.span.stop) (show _ + t.stop < _ by omega)⟩

/-- A `==` is complete, and a `=` behind it is a token of its own. -/
theorem tokenize_append_of_apart_sign :
    "x ==".utf8ByteSize + "= é".utf8ByteSize < UInt32.size ∧
      (∀ t ∈ (tokenize "x ==" none).dropLast.getLast?, t.stop = "x ==".utf8ByteSize →
        ∀ c ∈ "= é".toList.head?, t.kind.goesOn c = false) ∧
      tokenize ("x ==" ++ "= é") none = (tokenize "x ==" none).dropLast ++
        (tokenize "= é" none).map (·.move (.shift 4)) ∧
      (tokenize ("x ==" ++ "= é") none).map (·.kind) =
        [.identifier, .equals, .assign, .illegal, .eof] := by
  have hsize : "x ==".utf8ByteSize + "= é".utf8ByteSize < UInt32.size := by decide
  have hlast : (tokenize "x ==" none).dropLast.getLast?.map (·.kind) = some .equals := by
    decide +kernel
  have h : ∀ t ∈ (tokenize "x ==" none).dropLast.getLast?, t.stop = "x ==".utf8ByteSize →
      ∀ c ∈ "= é".toList.head?, t.kind.goesOn c = false := by
    intro t ht _ c _
    rw [ht, Option.map_some, Option.some.injEq] at hlast
    rw [hlast]
    rfl
  exact ⟨hsize, h, (tokenize_append_of_apart hsize h).1, by decide +kernel⟩

end ExprLang
