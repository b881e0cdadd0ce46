import ExprLang.Proofs.Parser.Reading
import ExprLang.Proofs.Token.Lossless

/-!
# The stream of a cursor

The *stream* of a cursor is the token it stands on, the token ahead, and all that its
scanner will give.  Advancing drops the first of them (`Cursor.stream_advance`), so
wherever a cursor is led, its stream is a later part of the one it had
(`Cursor.Reaches.stream`).

`c.Passes ts d` says that `c` is led to `d` over the tokens `ts`, of which the first is the
one `c` stands on.  The one that `d` stands on is not among them, and so such ways are put
one behind the other as their tokens are (`Cursor.Passes.trans`).

No two tokens of a source start at one place, so a diagnostic that blames one of them blames
no other (`Diagnostic.blames_of_getElem?`).
-/

namespace ExprLang

namespace Cursor

/-! ## Streams -/

/-- The token it stands on, the token ahead, and those behind it. -/
def stream (c : Cursor) : Nat → Token
  | 0 => c.current
  | 1 => c.peek
  | n + 2 => (c.scanner.later n).next.1

theorem stream_advance (c : Cursor) (n : Nat) : c.advance.stream n = c.stream (n + 1) := by
  match n with
  | 0 => rfl
  | 1 => rfl
  | n + 2 =>
    show (c.scanner.next.2.later n).next.1 = (c.scanner.later (n + 1)).next.1
    rw [Scanner.later_next]

theorem stream_ofScanner (s : Scanner) (n : Nat) : (ofScanner s).stream n = (s.later n).next.1 := by
  match n with
  | 0 => rfl
  | 1 => rfl
  | n + 2 =>
    show (s.next.2.next.2.later n).next.1 = (s.later (n + 2)).next.1
    rw [Scanner.later_next, Scanner.later_next]

/-- Where a cursor is led, its stream goes on with what it had. -/
theorem Reaches.stream {c d : Cursor} (h : c.Reaches d) :
    ∃ k, d.index = c.index + k ∧ ∀ n, d.stream n = c.stream (k + n) := by
  induction h with
  | refl c => exact ⟨0, rfl, fun n => by rw [Nat.zero_add]⟩
  | @step c d _ ih =>
    obtain ⟨k, hindex, hstream⟩ := ih
    refine ⟨k + 1, by rw [hindex, index_advance]; omega, fun n => ?_⟩
    rw [hstream, stream_advance, show k + 1 + n = k + n + 1 by omega]

/-- The scanner of a cursor stands behind the tokens up to the one ahead. -/
theorem Reaches.scanner_eq {s : Scanner} {c d : Cursor} (h : c.Reaches d)
    (hc : c.scanner = s.later (c.index + 2)) : d.scanner = s.later (d.index + 2) := by
  induction h with
  | refl => exact hc
  | step _ ih => exact ih (congrArg (·.next.2) hc)

/-- Does the end token of the stream, once it is there, come again and again? -/
def Settled (c : Cursor) : Prop := ∀ n, (c.stream n).kind = .eof → c.stream (n + 1) = c.stream n

theorem Settled.of_reaches {c d : Cursor} (h : c.Settled) (k : c.Reaches d) : d.Settled := by
  obtain ⟨j, -, hstream⟩ := k.stream
  intro n hn
  rw [hstream] at hn
  rw [hstream, hstream]
  exact h (j + n) hn

/-- On the end token a settled cursor has it ahead as well. -/
theorem Settled.peek_eq {c : Cursor} (h : c.Settled) (hc : c.current.kind = .eof) :
    c.peek = c.current := h 0 hc

/-- From the end token it is led to the end token. -/
theorem Settled.eof_advance {c : Cursor} (h : c.Settled) (hc : c.current.kind = .eof) :
    c.advance.current.kind = .eof := (congrArg (·.kind) (h.peek_eq hc)).trans hc

/-- Behind the end token a settled cursor has the same tokens. -/
theorem Settled.tokens_advance {c : Cursor} (h : c.Settled) (hc : c.current.kind = .eof) :
    c.advance.tokens = c.tokens := by
  have hpeek : c.advance.current = c.current := h.peek_eq hc
  rw [tokens_of_eof hc, tokens_of_eof (h.eof_advance hc), hpeek]

/-- Wherever a settled cursor is led, its tokens are the last of those it had. -/
theorem Settled.tokens_suffix {c d : Cursor} (h : c.Settled) (k : c.Reaches d) :
    d.tokens <:+ c.tokens := by
  induction k with
  | refl => exact List.suffix_rfl
  | @step c d _ ih =>
    have ih := ih (h.of_reaches (.advance c))
    by_cases hc : c.current.kind = .eof
    · rwa [h.tokens_advance hc] at ih
    · rw [tokens_of_ne_eof hc]
      exact ih.trans (List.suffix_cons _ _)

theorem settled_ofScanner {s : Scanner} {source : String} {before after : List Char}
    (h : s.Splits source before after) : (ofScanner s).Settled := by
  intro n hn
  obtain ⟨before, after, h⟩ := h.later n
  rw [stream_ofScanner] at hn
  rw [stream_ofScanner, stream_ofScanner]
  exact congrArg Prod.fst (h.next_of_eof hn)

theorem settled_ofSource (source : String) (file? : Option String) :
    (ofScanner (.ofSource source file?)).Settled :=
  settled_ofScanner (Scanner.splits_ofSource source file?)

/-- Behind the end token a settled stream has nothing else. -/
theorem Settled.stream_eq {c : Cursor} (h : c.Settled) {i j : Nat} (hij : i ≤ j)
    (hi : (c.stream i).kind = .eof) : c.stream j = c.stream i := by
  induction hij with
  | refl => rfl
  | @step j _ ih => rw [h j (ih ▸ hi), ih]

variable {source : String} {file? : Option String}

/-- Wherever a cursor is led, its stream goes on at its index in the tokens of the source, which
end with the end token again and again. -/
theorem Reaches.getElem?_tokenize {c : Cursor}
    (h : (ofScanner (.ofSource source file?)).Reaches c) (n : Nat) :
    (tokenize source file?)[min (c.index + n) ((tokenize source file?).length - 1)]? =
      some (c.stream n) := by
  obtain ⟨k, hindex, hstream⟩ := h.stream
  have hk : c.index = k := by rw [hindex]; exact Nat.zero_add k
  rw [hk, hstream, stream_ofScanner]
  exact (Scanner.splits_ofSource source file?).getElem?_tokens (k + n)

theorem Reaches.mem_tokenize {c : Cursor} (h : (ofScanner (.ofSource source file?)).Reaches c)
    (n : Nat) : c.stream n ∈ tokenize source file? := List.mem_of_getElem? (h.getElem?_tokenize n)

/-- The stream has the end token at the index where the source has it, and from there on. -/
theorem Reaches.kind_stream_eq_eof_iff {c : Cursor}
    (h : (ofScanner (.ofSource source file?)).Reaches c) (n : Nat) :
    (c.stream n).kind = .eof ↔ (tokenize source file?).length ≤ c.index + n + 1 := by
  have htoken := h.getElem?_tokenize n
  have hne := Munch.tokens_ne_eof (file?.getD unnamedFile) source.toList
  rw [tokenize_eq_append_endOf] at htoken ⊢
  generalize Munch.tokens (file?.getD unnamedFile) source.toList = ts at htoken hne
  rw [List.length_append, List.length_singleton, Nat.add_sub_cancel] at htoken
  rw [List.length_append, List.length_singleton, Nat.add_le_add_iff_right]
  rcases Nat.lt_or_ge (c.index + n) ts.length with hlt | hge
  · rw [Nat.min_eq_left (Nat.le_of_lt hlt), List.getElem?_append_left hlt] at htoken
    exact iff_of_false (hne _ (List.mem_of_getElem? htoken)) (Nat.not_le.2 hlt)
  · rw [Nat.min_eq_right hge, List.getElem?_concat_length, Option.some_inj] at htoken
    exact iff_of_true (by rw [← htoken]; rfl) hge

/-- What the tokens of a source have in their order the stream has, up to the end token. -/
theorem Reaches.rel_of_pairwise {c : Cursor} {R : Token → Token → Prop}
    (h : (ofScanner (.ofSource source file?)).Reaches c) (hR : (tokenize source file?).Pairwise R)
    {i j : Nat} (hij : i < j) (hi : (c.stream i).kind ≠ .eof) : R (c.stream i) (c.stream j) := by
  have hfirst := h.getElem?_tokenize i
  have hsecond := h.getElem?_tokenize j
  have hlt := mt (h.kind_stream_eq_eof_iff i).2 hi
  rw [List.getElem?_eq_some_iff] at hfirst hsecond
  obtain ⟨hi, hfirst⟩ := hfirst
  obtain ⟨hj, hsecond⟩ := hsecond
  rw [← hfirst, ← hsecond]
  exact List.pairwise_iff_getElem.1 hR _ _ hi hj (by omega)

/-- A later token of the stream starts further on. -/
theorem Reaches.start_lt {c : Cursor} (h : (ofScanner (.ofSource source file?)).Reaches c)
    (hsize : source.utf8ByteSize < UInt32.size) {i j : Nat} (hij : i < j)
    (hi : (c.stream i).kind ≠ .eof) : (c.stream i).start < (c.stream j).start :=
  h.rel_of_pairwise (pairwise_start_tokenize hsize file?) hij hi

/-! ## Passing tokens -/

/-- Advancing leads from one cursor to another over the given tokens. -/
inductive Passes : Cursor → List Token → Cursor → Prop
  | nil (c : Cursor) : Passes c [] c
  | cons {c d : Cursor} {ts : List Token} : Passes c.advance ts d → Passes c (c.current :: ts) d

variable {c d e : Cursor} {ts us : List Token}

theorem Passes.advance (c : Cursor) : c.Passes [c.current] c.advance := .cons (.nil _)

theorem Passes.trans (h : c.Passes ts d) (k : d.Passes us e) : c.Passes (ts ++ us) e := by
  induction h with
  | nil => exact k
  | cons _ ih => exact .cons (ih k)

theorem Passes.reaches (h : c.Passes ts d) : c.Reaches d := by
  induction h with
  | nil c => exact .refl c
  | cons _ ih => exact .step ih

/-- Every token that is passed is one step. -/
theorem Passes.index_eq (h : c.Passes ts d) : d.index = c.index + ts.length := by
  induction h with
  | nil => rfl
  | cons _ ih =>
    rw [ih, index_advance, List.length_cons]
    omega

/-- The tokens from a cursor on are those it passes and those from there on. -/
theorem Passes.tokens_eq (h : c.Passes ts d) (hts : ∀ t ∈ ts, t.kind ≠ .eof) :
    c.tokens = ts ++ d.tokens := by
  induction h with
  | nil => rfl
  | cons _ ih =>
    obtain ⟨hc, hts⟩ := List.forall_mem_cons.1 hts
    rw [tokens_of_ne_eof hc, ih hts, List.cons_append]

theorem Passes.of_cons {t : Token} (h : c.Passes (t :: ts) d) :
    c.current = t ∧ c.advance.Passes ts d := by
  cases h with
  | cons h => exact ⟨rfl, h⟩

theorem Passes.eq_of_nil (h : c.Passes [] d) : c = d := by cases h; rfl

/-- The token that a cursor stands on is the first of those it passes. -/
theorem Passes.head? (h : c.Passes ts d) (hts : ts ≠ []) : ts.head? = some c.current := by
  cases h with
  | nil => exact absurd rfl hts
  | cons _ => rfl

/-- A cursor can pass the first of its tokens up to any of them. -/
theorem exists_passes (h : c.tokens = ts ++ us) (hts : ∀ t ∈ ts, t.kind ≠ .eof) :
    ∃ d, c.Passes ts d ∧ d.tokens = us := by
  induction ts generalizing c with
  | nil => exact ⟨c, .nil c, h⟩
  | cons t ts ih =>
    obtain ⟨ht, hts⟩ := List.forall_mem_cons.1 hts
    obtain ⟨vs, hvs⟩ := c.exists_tokens_eq
    have hc : c.current = t := List.head_eq_of_cons_eq (hvs.symm.trans h)
    rw [tokens_of_ne_eof (hc ▸ ht)] at h
    obtain ⟨d, hd, htokens⟩ := ih (List.tail_eq_of_cons_eq h) hts
    exact ⟨d, hc ▸ .cons hd, htokens⟩

end Cursor

/-! ## The token that is blamed -/

/-- Does a diagnostic blame the `n`th of the tokens, and no other one? -/
def Diagnostic.Blames (d : Diagnostic) (ts : List Token) (n : Nat) : Prop :=
  ∀ i, ts[i]?.map (·.span.start) = some d.position ↔ i = n

/-- Two tokens of a source that start at one place are one token. -/
theorem eq_of_getElem?_tokenize {source : String} {file? : Option String}
    (hsize : source.utf8ByteSize < UInt32.size) {i j : Nat} {t u : Token}
    (hi : (tokenize source file?)[i]? = some t) (hj : (tokenize source file?)[j]? = some u)
    (h : t.span.start = u.span.start) : i = j := by
  have hstart : t.start = u.start := congrArg (·.offset.toNat) h
  have hpairwise := List.pairwise_iff_getElem.1 (pairwise_start_tokenize hsize file?)
  obtain ⟨hil, rfl⟩ := List.getElem?_eq_some_iff.1 hi
  obtain ⟨hjl, rfl⟩ := List.getElem?_eq_some_iff.1 hj
  rcases Nat.lt_trichotomy i j with hlt | heq | hlt
  · exact absurd hstart (Nat.ne_of_lt (hpairwise i j hil hjl hlt))
  · exact heq
  · exact absurd hstart.symm (Nat.ne_of_lt (hpairwise j i hjl hil hlt))

/-- A diagnostic at the start of a token of the source blames that token. -/
theorem Diagnostic.blames_of_getElem? {source : String} {file? : Option String}
    (hsize : source.utf8ByteSize < UInt32.size) {d : Diagnostic} {n : Nat} {t : Token}
    (h : (tokenize source file?)[n]? = some t) (hd : d.position = t.span.start) :
    d.Blames (tokenize source file?) n := by
  intro i
  constructor
  · intro hi
    obtain ⟨u, hu, hposition⟩ := Option.map_eq_some_iff.1 hi
    exact eq_of_getElem?_tokenize hsize hu h (hposition.trans hd)
  · rintro rfl
    rw [h, hd]
    rfl

end ExprLang
