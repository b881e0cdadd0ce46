import ExprLang.Proofs.Token.Munch

/-!
# Tokens and the layout around them

Nothing of a source is lost in its tokens.  A source of less than `2 ^ 32` bytes is made
of the texts of its tokens, each at the place its span gives, and of layout before,
between and behind them (`Token.Tiles`).

A scanner that has given the end token stays where it is and gives it again
(`Scanner.Splits.next_of_eof`), so asking a scanner for more and more tokens goes through
the tokens of the source and stops at the last (`Scanner.Splits.getElem?_tokens`).
-/

namespace ExprLang

open Utf8

namespace Token

/-- How many bytes into its source a token starts. -/
def start (t : Token) : Nat := t.span.start.offset.toNat

/-- How many bytes into its source a token stops. -/
def stop (t : Token) : Nat := t.span.stop.offset.toNat

/-! ## Tiles -/

/-- Some bytes, `offset` bytes into a source, are the texts of the tokens and layout
around them. -/
inductive Tiles : (offset : Nat) → List UInt8 → List Token → Prop
  | nil {offset : Nat} {gap : List UInt8} : (∀ b ∈ gap, Lexeme.isLayout b) → Tiles offset gap []
  | cons {offset : Nat} {gap rest : List UInt8} {t : Token} {ts : List Token} :
      (∀ b ∈ gap, Lexeme.isLayout b) → t.kind ≠ .eof → bytes t.literal ≠ [] →
      t.start = offset + gap.length → t.stop = t.start + (bytes t.literal).length →
      Tiles t.stop rest ts → Tiles offset (gap ++ (bytes t.literal ++ rest)) (t :: ts)

/-- The bytes before, between and behind some tokens, from `offset` on. -/
def gaps (source : List UInt8) : (offset : Nat) → List Token → List (List UInt8)
  | offset, [] => [source.drop offset]
  | offset, t :: ts => source.extract offset t.start :: gaps source t.stop ts

/-- The gaps with the texts of the tokens between them. -/
def weave : List (List UInt8) → List Token → List UInt8
  | gap :: gs, t :: ts => gap ++ (bytes t.literal ++ weave gs ts)
  | gs, _ => gs.flatten

namespace Tiles

variable {offset : Nat} {bs : List UInt8} {ts : List Token}

/-- Every token has a text, which stands within the bytes. -/
theorem bounds (h : Tiles offset bs ts) :
    ∀ t ∈ ts, t.kind ≠ .eof ∧ offset ≤ t.start ∧ t.start < t.stop ∧
      t.stop ≤ offset + bs.length := by
  induction h with
  | nil _ => simp
  | @cons offset gap rest t ts hgap hk hne hstart hstop _ ih =>
    have hpos := List.length_pos_iff.2 hne
    simp only [List.forall_mem_cons, List.length_append]
    refine ⟨⟨hk, by omega, by omega, by omega⟩, fun u hu => ?_⟩
    obtain ⟨hku, hlo, hlt, hhi⟩ := ih u hu
    exact ⟨hku, by omega, hlt, by omega⟩

/-- A token stops before the next one starts. -/
theorem pairwise (h : Tiles offset bs ts) : ts.Pairwise fun t u => t.stop ≤ u.start := by
  induction h with
  | nil _ => exact .nil
  | cons _ _ _ _ _ hts ih => exact .cons (fun u hu => (hts.bounds u hu).2.1) ih

/-- A stretch of bytes is cut out of the bytes around it. -/
theorem extract_append (before xs after : List UInt8) :
    (before ++ (xs ++ after)).extract before.length (before.length + xs.length) = xs := by
  rw [List.extract_eq_take_drop, List.drop_left, Nat.add_sub_cancel_left, List.take_left]

/-- The text of a token is what stands at its place. -/
theorem literal_eq (h : Tiles offset bs ts) (before : List UInt8) (ho : before.length = offset) :
    ∀ t ∈ ts, bytes t.literal = (before ++ bs).extract t.start t.stop := by
  induction h generalizing before with
  | nil _ => simp
  | @cons offset gap rest t ts _ _ _ hstart hstop _ ih =>
    have hlen : (before ++ gap).length = t.start := by rw [List.length_append, ho, hstart]
    refine List.forall_mem_cons.2 ⟨?_, fun u hu => ?_⟩
    · rw [← List.append_assoc, hstop, ← hlen, extract_append]
    · have hnext := ih ((before ++ gap) ++ bytes t.literal)
        (by rw [List.length_append, hlen, hstop]) u hu
      rwa [List.append_assoc, List.append_assoc] at hnext

/-- What stands around the tokens is layout, and it makes up the bytes together with their
texts. -/
theorem weave_gaps (h : Tiles offset bs ts) (before : List UInt8) (ho : before.length = offset) :
    (∀ gap ∈ Token.gaps (before ++ bs) offset ts, ∀ b ∈ gap, Lexeme.isLayout b) ∧
      weave (Token.gaps (before ++ bs) offset ts) ts = bs := by
  induction h generalizing before with
  | nil hgap => exact ⟨by simpa [Token.gaps, ← ho] using hgap, by simp [Token.gaps, weave, ← ho]⟩
  | @cons offset gap rest t ts hgap _ _ hstart hstop _ ih =>
    have hfirst : (before ++ (gap ++ (bytes t.literal ++ rest))).extract offset t.start = gap := by
      rw [hstart, ← ho, extract_append]
    have hlen : ((before ++ gap) ++ bytes t.literal).length = t.stop := by
      rw [List.length_append, List.length_append, ho, hstop, hstart]
    obtain ⟨hlayout, hweave⟩ := ih _ hlen
    rw [List.append_assoc, List.append_assoc] at hlayout hweave
    rw [Token.gaps, weave, hfirst, hweave]
    exact ⟨List.forall_mem_cons.2 ⟨hgap, hlayout⟩, rfl⟩

/-- The layout in front of a lexeme, the lexeme, and the tiles behind it. -/
theorem lexeme (file : String) {gap text : List Char} {rest : List UInt8} {t : Token}
    (hgap : ∀ b ∈ encode gap, Lexeme.isLayout b) (hk : t.kind ≠ .eof) (htext : text ≠ [])
    (hliteral : t.literal = .ofList text)
    (hspan : t.span = .between file (offset + width gap) (offset + width gap + width text))
    (hlt : offset + width gap + width text < UInt32.size)
    (h : Tiles (offset + width gap + width text) rest ts) :
    Tiles offset (encode gap ++ (encode text ++ rest)) (t :: ts) := by
  have hbytes : bytes t.literal = encode text := by rw [hliteral]; exact bytes_ofList text
  have hne : encode text ≠ [] := by
    obtain ⟨c, cs, rfl⟩ := List.exists_cons_of_ne_nil htext
    obtain ⟨lead, tail, he, -⟩ := sequenceLength_encode c
    rw [encode_cons, he]
    exact List.cons_ne_nil _ _
  have hstart : t.start = offset + width gap := by
    rw [start, hspan]
    exact Position.offset_at (Nat.lt_of_le_of_lt (Nat.le_add_right _ _) hlt)
  have hstop : t.stop = offset + width gap + width text := by
    rw [stop, hspan]
    exact Position.offset_at hlt
  rw [← hbytes]
  refine .cons hgap hk (by rwa [hbytes]) hstart ?_ (by rwa [hstop])
  rw [hstop, hstart, hbytes]
  rfl

end Tiles

/-! ## The tokens of a source -/

/-- The tokens of some characters tile their encoding. -/
theorem tiles_place (file : String) (cs : List Char) (offset : Nat)
    (h : offset + width cs < UInt32.size) :
    Tiles offset (encode cs) (Munch.place file offset (Munch.pieces cs)) := by
  induction hlen : cs.length using Nat.strongRecOn generalizing cs offset with
  | ind n ih =>
    have hgap : ∀ b ∈ encode (cs.takeWhile Munch.isLayout), Lexeme.isLayout b := by
      rw [← Munch.marks_layout.takeWhile_encode]
      exact List.all_eq_true.1 List.all_takeWhile
    have hcs := List.takeWhile_append_dropWhile (p := Munch.isLayout) (l := cs)
    cases hd : cs.dropWhile Munch.isLayout with
    | nil =>
      rw [hd, List.append_nil] at hcs
      rw [hcs] at hgap
      rw [Munch.pieces_of_nil hd]
      exact .nil hgap
    | cons c ds =>
      obtain ⟨text, after, hl, happ⟩ := Munch.exists_lexeme_eq c ds
      have hw := Munch.width_dropWhile cs
      have hle := (List.dropWhile_suffix (l := cs) Munch.isLayout).length_le
      rw [hd, happ] at hcs hw hle
      rw [width_append] at hw
      rw [List.length_append, List.length_cons] at hle
      rw [Munch.pieces_of_cons hd hl happ, Munch.place]
      have hrest := ih after.length (by omega) after
        (offset + width (cs.takeWhile Munch.isLayout) + width (c :: text)) (by omega) rfl
      have htiles := Tiles.lexeme file (t := ⟨_, _, _⟩) hgap (Munch.lexeme_ne_eof c ds)
        (List.cons_ne_nil c text) rfl rfl (by omega) hrest
      rwa [← encode_append, ← encode_append, hcs] at htiles

end Token

/-! ## Asking for more tokens -/

namespace Scanner

variable {s : Scanner} {source : String} {before after : List Char}

theorem later_add (s : Scanner) (m n : Nat) : s.later (m + n) = (s.later m).later n := by
  induction n with
  | zero => rfl
  | succ n ih => exact congrArg (·.next.2) ih

/-- Behind the end token the scanner stands still. -/
theorem Splits.next_of_eof (h : s.Splits source before after) (he : s.next.1.kind = .eof) :
    s.next.2.next = s.next := by
  cases hd : after.dropWhile Munch.isLayout with
  | nil =>
    have hn := Munch.next_of_nil s.file (width before) hd
    rw [← h.eq] at hn
    rw [hn]
    have hnil : ([] : List Char).dropWhile Munch.isLayout = [] := rfl
    exact Munch.next_of_nil s.file (width before + width after) hnil
  | cons c ds =>
    obtain ⟨text, rest, hl, happ⟩ := Munch.exists_lexeme_eq c ds
    have hn := Munch.next_of_cons s.file (width before) hd hl happ
    rw [← h.eq] at hn
    rw [hn] at he
    exact absurd he (Munch.lexeme_ne_eof c ds)

theorem Splits.later_of_eof (h : s.Splits source before after) (he : s.next.1.kind = .eof)
    (n : Nat) : s.later (n + 1) = s.next.2 := by
  induction n with
  | zero => rfl
  | succ n ih =>
    show (s.later (n + 1)).next.2 = s.next.2
    rw [ih, h.next_of_eof he]

/-- The tokens a scanner goes on giving are those of the source, and the last one again and
again. -/
theorem Splits.getElem?_tokens (h : s.Splits source before after) (n : Nat) :
    s.tokens[min n (s.tokens.length - 1)]? = some (s.later n).next.1 := by
  induction n generalizing s before after with
  | zero =>
    by_cases he : s.next.1.kind = .eof
    · rw [tokens_of_eof he]
      rfl
    · rw [tokens_of_ne_eof he]
      rfl
  | succ n ih =>
    obtain ⟨start, text, rest, -, hn, -⟩ := h.next
    have ih := ih hn
    by_cases he : s.next.1.kind = .eof
    · rw [tokens_of_eof he, h.later_of_eof he, h.next_of_eof he]
      rfl
    · have hpos : s.next.2.tokens ≠ [] := by
        intro hnil
        rw [hnil] at ih
        cases ih
      have hlen := List.length_pos_iff.2 hpos
      rw [tokens_of_ne_eof he, ← later_next, ← ih, List.length_cons,
        show min (n + 1) (s.next.2.tokens.length + 1 - 1) =
          min n (s.next.2.tokens.length - 1) + 1 by omega, List.getElem?_cons_succ]

end Scanner

/-- The tokens of a source that 32-bit offsets can address tile it, up to the end token. -/
theorem exists_tiles {source : String} (h : source.utf8ByteSize < UInt32.size)
    (file? : Option String) :
    ∃ ts, tokenize source file? =
        ts ++ [Token.endOf (file?.getD unnamedFile) source.utf8ByteSize] ∧
      Token.Tiles 0 (bytes source) ts := by
  refine ⟨_, tokenize_eq_append_endOf source file?, ?_⟩
  rw [bytes_eq_encode]
  refine Token.tiles_place _ source.toList 0 ?_
  rwa [Nat.zero_add, width_toList]

/-- Every token but the end token starts before it. -/
theorem mem_tokenize {source : String} {file? : Option String} {t : Token}
    (h : source.utf8ByteSize < UInt32.size) (ht : t ∈ tokenize source file?) :
    t.kind ≠ .eof ∧ t.start < source.utf8ByteSize ∨
      t = Token.endOf (file?.getD unnamedFile) source.utf8ByteSize := by
  obtain ⟨ts, htokens, htiles⟩ := exists_tiles h file?
  rw [htokens] at ht
  rcases List.mem_append.1 ht with ht | ht
  · obtain ⟨hk, -, hlt, hle⟩ := htiles.bounds t ht
    rw [Nat.zero_add, length_bytes] at hle
    exact .inl ⟨hk, Nat.lt_of_lt_of_le hlt hle⟩
  · exact .inr (List.mem_singleton.1 ht)

/-- Every token starts behind the stops of those before it. -/
theorem pairwise_stop_tokenize {source : String} (h : source.utf8ByteSize < UInt32.size)
    (file? : Option String) : (tokenize source file?).Pairwise fun t u => t.stop ≤ u.start := by
  obtain ⟨ts, htokens, htiles⟩ := exists_tiles h file?
  have hend : (Token.endOf (file?.getD unnamedFile) source.utf8ByteSize).start =
      source.utf8ByteSize := Position.offset_at h
  rw [htokens, List.pairwise_append]
  refine ⟨htiles.pairwise, List.pairwise_singleton _ _, fun t ht u hu => ?_⟩
  obtain ⟨-, -, -, hle⟩ := htiles.bounds t ht
  rw [Nat.zero_add, length_bytes] at hle
  rw [List.mem_singleton.1 hu, hend]
  exact hle

/-- Every token starts behind the starts of those before it. -/
theorem pairwise_start_tokenize {source : String} (h : source.utf8ByteSize < UInt32.size)
    (file? : Option String) : (tokenize source file?).Pairwise fun t u => t.start < u.start := by
  obtain ⟨ts, htokens, htiles⟩ := exists_tiles h file?
  have hend : (Token.endOf (file?.getD unnamedFile) source.utf8ByteSize).start =
      source.utf8ByteSize := Position.offset_at h
  rw [htokens, List.pairwise_append]
  refine ⟨?_, List.pairwise_singleton _ _, fun t ht u hu => ?_⟩
  · refine htiles.pairwise.imp_of_mem fun ht _ hle => ?_
    exact Nat.lt_of_lt_of_le (htiles.bounds _ ht).2.2.1 hle
  · obtain ⟨-, -, hlt, hle⟩ := htiles.bounds t ht
    rw [length_bytes] at hle
    rw [List.mem_singleton.1 hu, hend]
    omega

/-- Tokens lose nothing of a source that 32-bit offsets can address.  Every token but the end
token has a text, which is what stands at its place, tokens stop before the next one
starts, and there is only layout around them, which makes up the source together with the
texts.  Asked again and again, a scanner gives the tokens in their order and then the end
token, behind which it stands still. -/
theorem tokenize_lossless {source : String} {file? : Option String}
    (h : source.utf8ByteSize < UInt32.size) :
    ∃ ts e, tokenize source file? = ts ++ [e] ∧
      (e.kind = .eof ∧ e.start = source.utf8ByteSize ∧ e.stop = source.utf8ByteSize) ∧
      (∀ t ∈ ts, t.kind ≠ .eof ∧ t.start < t.stop ∧ t.stop ≤ source.utf8ByteSize ∧
        bytes t.literal = (bytes source).extract t.start t.stop) ∧
      ts.Pairwise (fun t u => t.stop ≤ u.start) ∧
      (∀ gap ∈ Token.gaps (bytes source) 0 ts, ∀ b ∈ gap, Lexeme.isLayout b) ∧
      Token.weave (Token.gaps (bytes source) 0 ts) ts = bytes source ∧
      ∀ k, let s := (Scanner.ofSource source file?).later k
        (ts ++ [e])[min k ts.length]? = some s.next.1 ∧ (ts.length < k → s.next = (e, s)) := by
  let file := file?.getD unnamedFile
  let e := Token.endOf file source.utf8ByteSize
  have hsource := bytes_eq_encode source
  have hwidth : width source.toList = source.utf8ByteSize := by
    rw [width, ← hsource, length_bytes]
  have htokens : tokenize source file? =
      Munch.place file 0 (Munch.pieces source.toList) ++ [e] := by
    have ht := Munch.tokens_encode file source.toList 0
    rwa [← hsource, Nat.zero_add, hwidth] at ht
  have htiles := Token.tiles_place file source.toList 0 (by omega)
  rw [← hsource] at htiles
  generalize Munch.place file 0 (Munch.pieces source.toList) = ts at htokens htiles
  obtain ⟨hgaps, hweave⟩ := htiles.weave_gaps [] rfl
  have hgiven (k : Nat) :
      (ts ++ [e])[min k ts.length]? = some ((Scanner.ofSource source file?).later k).next.1 := by
    have hnext := (Scanner.splits_ofSource source file?).getElem?_tokens k
    rwa [show (Scanner.ofSource source file?).tokens = ts ++ [e] from htokens, List.length_append,
      List.length_singleton, Nat.add_sub_cancel] at hnext
  refine ⟨ts, e, htokens, ⟨rfl, Position.offset_at h, Position.offset_at h⟩, fun t ht => ?_,
    htiles.pairwise, hgaps, hweave, fun k => ⟨hgiven k, fun hk => ?_⟩⟩
  · obtain ⟨hk, -, hlt, hle⟩ := htiles.bounds t ht
    rw [Nat.zero_add, length_bytes] at hle
    exact ⟨hk, hlt, hle, htiles.literal_eq [] rfl t ht⟩
  · obtain ⟨n, rfl⟩ := Nat.exists_eq_add_of_lt hk
    obtain ⟨before, after, hs⟩ := Scanner.splits_later source file? ts.length
    have he := hgiven ts.length
    rw [Nat.min_self, List.getElem?_concat_length, Option.some_inj] at he
    have heof : ((Scanner.ofSource source file?).later ts.length).next.1.kind = .eof := by
      rw [← he]
      rfl
    rw [Nat.add_assoc, Scanner.later_add, hs.later_of_eof heof, hs.next_of_eof heof, he]

theorem tokenize_lossless_wide :
    "\té = 12 ".utf8ByteSize < UInt32.size ∧
      ∃ ts e, tokenize "\té = 12 " none = ts ++ [e] ∧ e.start = 9 ∧
        Token.weave (Token.gaps (bytes "\té = 12 ") 0 ts) ts = bytes "\té = 12 " := by
  have h : "\té = 12 ".utf8ByteSize < UInt32.size := by decide
  obtain ⟨ts, e, htokens, ⟨-, hstart, -⟩, -, -, -, hweave, -⟩ :=
    @tokenize_lossless _ none h
  exact ⟨h, ts, e, htokens, hstart, hweave⟩

end ExprLang
