import ExprLang.Proofs.Token.Joined
import ExprLang.Proofs.Token.Lossless

/-!
# Tokens of an excerpt

A stretch of a source from the start of a token to the end of a token is scanned by itself as it
is within the source, only that places are counted from its start (`exists_excerpt`).  What comes
in front is not looked at, and what comes behind makes no difference to the last lexeme, because
maximal munch has stopped there (`Munch.exists_cut`).
-/

namespace ExprLang

open Utf8

namespace Munch

variable {file : String} {offset : Nat} {cs : List Char} {xs ys : List Token}

/-- A lexeme with the layout in front of it stays one in front of anything that does not go on with
it. -/
theorem pieces_of_stop {c : Char} {ds text front : List Char} {kind : TokenKind}
    (hd : cs.dropWhile isLayout = c :: ds) (hl : lexeme c ds = (kind, c :: text))
    (hstops : ∀ d ∈ front.head?, kind.goesOn d = false) :
    pieces (cs.takeWhile isLayout ++ ((c :: text) ++ front)) =
      ⟨cs.takeWhile isLayout, kind, c :: text⟩ :: pieces front := by
  have hlayout : ∀ d ∈ cs.takeWhile isLayout, isLayout d := List.all_eq_true.1 List.all_takeWhile
  have hc : isLayout c = false := by
    have hnot := List.head?_dropWhile_not isLayout cs
    rw [hd] at hnot
    simpa using hnot
  have hdrop : (cs.takeWhile isLayout ++ ((c :: text) ++ front)).dropWhile isLayout =
      c :: (text ++ front) := by
    rw [List.dropWhile_append_of_pos hlayout, List.cons_append, List.dropWhile_cons, hc]
    rfl
  have htake : (cs.takeWhile isLayout ++ ((c :: text) ++ front)).takeWhile isLayout =
      cs.takeWhile isLayout := by
    rw [List.takeWhile_append_of_pos hlayout, List.cons_append, List.takeWhile_cons, hc]
    exact List.append_nil _
  rw [pieces_of_cons hdrop (lexeme_append_of_stop hl hstops) rfl, htake]

/-- Characters are cut where their tokens are.  The first part ends where the last of its tokens
stops. -/
theorem exists_cut (h : place file offset (pieces cs) = xs ++ ys) :
    ∃ front back, cs = front ++ back ∧ place file offset (pieces front) = xs ∧
      place file (offset + width front) (pieces back) = ys ∧
      (xs.map (·.span.stop)).getLastD (.at file offset) = .at file (offset + width front) := by
  induction xs generalizing cs offset with
  | nil => exact ⟨[], cs, rfl, by rw [pieces_of_nil rfl]; rfl, h, rfl⟩
  | cons x xs ih =>
    cases hd : cs.dropWhile isLayout with
    | nil =>
      rw [pieces_of_nil hd] at h
      cases h
    | cons c ds =>
      obtain ⟨text, after, hl, happ⟩ := exists_lexeme_eq c ds
      have hds : ds = text ++ after := List.tail_eq_of_cons_eq happ
      rw [pieces_of_cons hd hl happ, place, List.cons_append] at h
      obtain ⟨rfl, hrest⟩ := List.cons.inj h
      obtain ⟨front, back, rfl, hfront, hback, hstop⟩ := ih hrest
      -- There is less behind the lexeme than there was, and it still does not go on with it.
      have hstops : ∀ d ∈ front.head?, (lexeme c ds).1.goesOn d = false := by
        intro d hd
        refine lexeme_stops hl hds d ?_
        rw [List.head?_append, hd]
        rfl
      have hwidth : offset + width (cs.takeWhile isLayout) + width (c :: text) + width front =
          offset + width (cs.takeWhile isLayout ++ ((c :: text) ++ front)) := by
        rw [width_append, width_append, ← Nat.add_assoc, ← Nat.add_assoc]
      rw [hwidth] at hback hstop
      refine ⟨cs.takeWhile isLayout ++ ((c :: text) ++ front), back, ?_, ?_, hback, ?_⟩
      · rw [List.append_assoc, List.append_assoc, ← happ, ← hd, List.takeWhile_append_dropWhile]
      · rw [pieces_of_stop hd hl hstops, place, hfront]
      · rw [List.map_cons, List.getLastD_cons]
        exact hstop

/-- Where characters do not start with layout their first token starts with them. -/
theorem start_place {t : Token} {ts : List Token} (hcs : ∀ c ∈ cs.head?, isLayout c = false)
    (h : place file offset (pieces cs) = t :: ts) :
    t.span.start = .at file offset ∧ ∃ c, cs.head? = some c ∧ t.literal.toList.head? = some c := by
  cases cs with
  | nil =>
    rw [pieces_of_nil rfl] at h
    cases h
  | cons c ds =>
    have hc : isLayout c = false := hcs c rfl
    have hdrop : (c :: ds).dropWhile isLayout = c :: ds := by
      rw [List.dropWhile_cons, hc]
      rfl
    have htake : (c :: ds).takeWhile isLayout = [] := by
      rw [List.takeWhile_cons, hc]
      rfl
    obtain ⟨text, after, hl, happ⟩ := exists_lexeme_eq c ds
    rw [pieces_of_cons hdrop hl happ, place, htake] at h
    rw [← List.head_eq_of_cons_eq h]
    exact ⟨rfl, c, rfl, by rw [String.toList_ofList]; rfl⟩

/-- The last tokens of some characters are those of the last characters, which start with the first
of the tokens. -/
theorem exists_rest {pre post : List Token} (h : tokens file cs = pre ++ post) :
    ∃ before text, cs = before ++ text ∧ (∀ c ∈ text.head?, isLayout c = false) ∧
      place file (width before) (pieces text) = post := by
  obtain ⟨front, rest, rfl, -, hrest, -⟩ := exists_cut h
  have hlayout : (rest.takeWhile isLayout).dropWhile isLayout = [] := by
    rw [← List.append_nil (rest.takeWhile isLayout),
      List.dropWhile_append_of_pos (List.all_eq_true.1 List.all_takeWhile)]
    rfl
  have hskip := place_pieces_layout file hlayout (rest.dropWhile isLayout) (0 + width front)
  rw [List.takeWhile_append_dropWhile, hrest, Nat.zero_add, ← width_append] at hskip
  refine ⟨front ++ rest.takeWhile isLayout, rest.dropWhile isLayout, ?_, fun c hc => ?_, hskip.symm⟩
  · rw [List.append_assoc, List.takeWhile_append_dropWhile]
  · have hnot := List.head?_dropWhile_not isLayout rest
    rw [hc] at hnot
    simpa using hnot

/-- Characters are cut out where their tokens are, from the start of the first one to the stop of
the last one. -/
theorem exists_stretch {pre run post : List Token} (h : tokens file cs = pre ++ run ++ post)
    (hrun : run ≠ []) :
    ∃ before text after, cs = before ++ text ++ after ∧
      place file (width before) (pieces text) = run ∧
      (run.headD default).span.start = .at file (width before) ∧
      (run.getLastD default).span.stop = .at file (width before + width text) := by
  rw [List.append_assoc] at h
  obtain ⟨before, rest, rfl, hlayout, hrest⟩ := exists_rest h
  obtain ⟨text, after, rfl, hplace, -, hstop⟩ := exists_cut hrest
  obtain ⟨t, ts, rfl⟩ := List.exists_cons_of_ne_nil hrun
  have hhead : ∀ c ∈ text.head?, isLayout c = false := by
    intro c hc
    refine hlayout c ?_
    rw [List.head?_append, hc]
    rfl
  refine ⟨before, text, after, (List.append_assoc _ _ _).symm, hplace, (start_place hhead hplace).1,
    ?_⟩
  rw [List.map_cons, List.getLastD_cons, List.getLastD_map] at hstop
  rw [List.getLastD_cons, hstop]

end Munch

/-- The text from the start of a token of a source to the stop of a token is scanned as the tokens
between, further on. -/
theorem exists_excerpt {source file : String} {run : List Token}
    (hsize : source.utf8ByteSize < UInt32.size) (h : run <:+: Munch.tokens file source.toList)
    (hrun : run ≠ []) :
    ∃ before text, width before = (run.headD default).start ∧
      encode text =
        (bytes source).extract (run.headD default).start (run.getLastD default).stop ∧
      Munch.place file (width before) (Munch.pieces text) = run := by
  obtain ⟨pre, post, happ⟩ := h
  obtain ⟨before, text, after, hsource, hplace, hstart, hstop⟩ :=
    Munch.exists_stretch happ.symm hrun
  have hbytes : bytes source = encode before ++ (encode text ++ encode after) := by
    rw [bytes_eq_encode, hsource, encode_append, encode_append, List.append_assoc]
  have hlen : source.utf8ByteSize = width before + (width text + width after) := by
    rw [← width_toList, hsource, width_append, width_append, Nat.add_assoc]
  have hlower : (run.headD default).start = width before := by
    rw [Token.start, hstart]
    exact Position.offset_at (by omega)
  have hupper : (run.getLastD default).stop = width before + width text := by
    rw [Token.stop, hstop]
    exact Position.offset_at (by omega)
  refine ⟨before, text, hlower.symm, ?_, hplace⟩
  rw [hlower, hupper, hbytes]
  exact (Token.Tiles.extract_append _ _ _).symm

/-- A token of a source starts between two characters of it.  The one behind is the first character
of the token and no layout, and there is none behind the end token. -/
theorem exists_start {source : String} {file? : Option String} {t : Token}
    (ht : t ∈ tokenize source file?) :
    ∃ before after, source.toList = before ++ after ∧
      t.span.start = .at (file?.getD unnamedFile) (width before) ∧
      (∀ c ∈ after.head?, Munch.isLayout c = false) ∧
      (t.kind ≠ .eof → ∃ c, after.head? = some c ∧ t.literal.toList.head? = some c) := by
  rw [tokenize_eq_append_endOf] at ht
  rcases List.mem_append.1 ht with ht | ht
  · obtain ⟨pre, post, htokens⟩ := List.append_of_mem ht
    obtain ⟨before, after, hsource, hlayout, hplace⟩ := Munch.exists_rest htokens
    obtain ⟨hstart, hfirst⟩ := Munch.start_place hlayout hplace
    exact ⟨before, after, hsource, hstart, hlayout, fun _ => hfirst⟩
  · obtain rfl := List.mem_singleton.1 ht
    refine ⟨source.toList, [], (List.append_nil _).symm, ?_, ?_, fun hk => absurd rfl hk⟩
    · rw [width_toList]
      rfl
    · intro c hc
      cases hc

/-- Further on in a source, text has its tokens further on. -/
theorem Scanner.tokens_excerpt (file? : Option String) (n : Nat) (text : List Char) :
    (⟨file?.getD unnamedFile, encode text, n⟩ : Scanner).tokens =
      (tokenize (.ofList text) file?).map (·.move (Position.shift n)) := by
  have hwidth : width text = (String.ofList text).utf8ByteSize := by
    rw [← width_toList, String.toList_ofList]
  rw [Munch.tokens_encode, tokenize_eq_append_endOf, List.map_append, Munch.tokens,
    ← Munch.place_shift, String.toList_ofList, Nat.add_zero, List.map_singleton,
    Token.shift_endOf, hwidth]

end ExprLang
