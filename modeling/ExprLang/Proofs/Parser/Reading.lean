import ExprLang.Parser.Basic
import ExprLang.Proofs.Grammar.Written

/-!
# Reading tokens

`p.Reads ts q` says that `p` stands on the first of the tokens `ts`, and that `q` is
`p` advanced to the last of them.  `p.Ahead ts q` says the same of tokens that start
behind the one `p` stands on, and so `ts` may be empty there.

Both fix `q`, which has the depth and the diagnostics of `p`.  A run of tokens can be
cut anywhere (`ahead_append`, `reads_append`).

`Cursor.tokens` lists the tokens from a cursor on, the end token once at the end.  A
run that ends on the end token is all of them (`tokens_of_reads`), and there always is
one (`exists_reads`).
-/

namespace ExprLang

namespace Parser

/-! ## Runs of tokens -/

/-- The tokens `ts` come behind the one that `p` stands on, and `q` stands on the last
of them, or where `p` does if there is none. -/
def Ahead : Parser → List Token → Parser → Prop
  | p, [], q => q = p
  | p, t :: ts, q => p.peek = t ∧ Ahead p.advance ts q

/-- The parser `p` stands on the first of the tokens `ts` and `q` on the last. -/
def Reads (p : Parser) : List Token → Parser → Prop
  | [], _ => False
  | t :: ts, q => p.current = t ∧ p.Ahead ts q

theorem ahead_nil {p q : Parser} : p.Ahead [] q ↔ q = p := Iff.rfl

theorem ahead_cons {p q : Parser} {t : Token} {ts : List Token} :
    p.Ahead (t :: ts) q ↔ p.peek = t ∧ p.advance.Ahead ts q := Iff.rfl

theorem ahead_append {p q : Parser} {ts us : List Token} :
    p.Ahead (ts ++ us) q ↔ ∃ r, p.Ahead ts r ∧ r.Ahead us q := by
  induction ts generalizing p with
  | nil =>
    constructor
    · intro h
      exact ⟨p, rfl, h⟩
    · rintro ⟨r, rfl, h⟩
      exact h
  | cons t ts ih =>
    rw [List.cons_append, ahead_cons, ih]
    constructor
    · rintro ⟨ht, r, hr, h⟩
      exact ⟨r, ⟨ht, hr⟩, h⟩
    · rintro ⟨r, ⟨ht, hr⟩, h⟩
      exact ⟨ht, r, hr, h⟩

theorem Reads.append {p q r : Parser} {ts us : List Token} (h : p.Reads ts r)
    (k : r.Ahead us q) : p.Reads (ts ++ us) q := by
  cases ts with
  | nil => exact h.elim
  | cons t ts => exact ⟨h.1, ahead_append.2 ⟨r, h.2, k⟩⟩

/-- A run that starts with an expression or a statement reads that first. -/
theorem reads_append {p q : Parser} {t : Token} {ts us vs : List Token} (hts : ts = t :: vs) :
    p.Reads (ts ++ us) q ↔ ∃ r, p.Reads ts r ∧ r.Ahead us q := by
  subst hts
  constructor
  · rintro ⟨ht, h⟩
    obtain ⟨r, hr, hq⟩ := ahead_append.1 h
    exact ⟨r, ⟨ht, hr⟩, hq⟩
  · rintro ⟨r, hr, hq⟩
    exact hr.append hq

/-- Tokens behind `p` that are at least one are read from the next on. -/
theorem Ahead.reads {p q : Parser} {t : Token} {ts us : List Token} (h : p.Ahead ts q)
    (hts : ts = t :: us) : p.advance.Reads ts q := by
  subst hts
  exact h

/-- So are tokens behind `p` with a last one. -/
theorem Ahead.reads_concat {p q : Parser} {c : Token} {ts : List Token}
    (h : p.Ahead (ts ++ [c]) q) : p.advance.Reads (ts ++ [c]) q := by
  cases ts with
  | nil => exact h
  | cons t ts => exact h

theorem Reads.ahead {p q : Parser} {ts : List Token} (h : p.advance.Reads ts q) :
    p.Ahead ts q := by
  cases ts with
  | nil => exact h.elim
  | cons t ts => exact h

/-- Behind a run stands the next token. -/
theorem Reads.ahead_advance {p q : Parser} {ts : List Token} (h : p.Reads ts q) :
    p.Ahead (ts.tail ++ [q.peek]) q.advance := by
  cases ts with
  | nil => exact h.elim
  | cons t ts => exact ahead_append.2 ⟨q, h.2, rfl, rfl⟩

/-! ## What a run keeps -/

theorem Ahead.diagnostics_eq {p q : Parser} {ts : List Token} (h : p.Ahead ts q) :
    q.diagnostics = p.diagnostics := by
  induction ts generalizing p with
  | nil => rw [ahead_nil.1 h]
  | cons t ts ih => exact ih (p := p.advance) h.2

theorem Ahead.depth_eq {p q : Parser} {ts : List Token} (h : p.Ahead ts q) :
    q.depth = p.depth := by
  induction ts generalizing p with
  | nil => rw [ahead_nil.1 h]
  | cons t ts ih => exact ih (p := p.advance) h.2

theorem Reads.diagnostics_eq {p q : Parser} {ts : List Token} (h : p.Reads ts q) :
    q.diagnostics = p.diagnostics := by
  cases ts with
  | nil => exact h.elim
  | cons t ts => exact h.2.diagnostics_eq

theorem advance_enter (p : Parser) : p.enter.advance = p.advance.enter := rfl

theorem Ahead.enter {p q : Parser} {ts : List Token} (h : p.Ahead ts q) :
    p.enter.Ahead ts q.enter := by
  induction ts generalizing p with
  | nil => rw [ahead_nil.1 h]; rfl
  | cons t ts ih => exact ⟨h.1, ih h.2⟩

theorem Ahead.leave {p q : Parser} {ts : List Token} (h : p.Ahead ts q) :
    p.leave.Ahead ts q.leave := by
  induction ts generalizing p with
  | nil => rw [ahead_nil.1 h]; rfl
  | cons t ts ih => exact ⟨h.1, ih h.2⟩

theorem Reads.enter {p q : Parser} {ts : List Token} (h : p.Reads ts q) :
    p.enter.Reads ts q.enter := by
  cases ts with
  | nil => exact h.elim
  | cons t ts => exact ⟨h.1, h.2.enter⟩

/-- A run read one expression further in is read around it as well. -/
theorem Reads.leave {p q : Parser} {ts : List Token} (h : p.enter.Reads ts q) :
    p.Reads ts q.leave := by
  cases ts with
  | nil => exact h.elim
  | cons t ts => exact ⟨h.1, h.2.leave⟩

/-- At its end a run stands on its last token. -/
theorem Ahead.getLastD {p q : Parser} {ts : List Token} (h : p.Ahead ts q) :
    ts.getLastD p.current = q.current := by
  induction ts generalizing p with
  | nil => rw [ahead_nil.1 h]; rfl
  | cons t ts ih =>
    rw [List.getLastD_cons, ← h.1]
    exact ih h.2

theorem Reads.stopOf {p q : Parser} {ts : List Token} (h : p.Reads ts q) :
    stopOf ts = q.current.span.stop := by
  cases ts with
  | nil => exact h.elim
  | cons t ts =>
    rw [ExprLang.stopOf, List.getLastD_cons, ← h.1, h.2.getLastD]

/-- The site that a run gives to the node it ends with. -/
theorem Reads.site {p q : Parser} {ts : List Token} (h : p.Reads ts q) :
    (⟨p.current, q.spanFrom p.current.span.start⟩ : Site) = .ofTokens ts := by
  rw [Site.ofTokens, h.stopOf]
  cases ts with
  | nil => exact h.elim
  | cons t ts =>
    rw [h.1]
    rfl

end Parser

/-! ## The tokens from a cursor on -/

namespace Cursor

/-- The tokens from the current one on, the end token once at the end. -/
def tokens (c : Cursor) : List Token :=
  if c.current.kind = .eof then [c.current]
  else if c.peek.kind = .eof then [c.current, c.peek]
  else c.current :: c.peek :: c.scanner.tokens

/-- The current token comes first. -/
theorem exists_tokens_eq (c : Cursor) : ∃ us, c.tokens = c.current :: us := by
  unfold tokens
  split
  · exact ⟨_, rfl⟩
  · split <;> exact ⟨_, rfl⟩

theorem head?_tokens (c : Cursor) : c.tokens.head? = some c.current := by
  obtain ⟨us, hu⟩ := c.exists_tokens_eq
  rw [hu, List.head?_cons]

theorem tokens_of_eof {c : Cursor} (h : c.current.kind = .eof) : c.tokens = [c.current] :=
  if_pos h

/-- Before the end the current token comes first and the others are those of the next
place. -/
theorem tokens_of_ne_eof {c : Cursor} (h : c.current.kind ≠ .eof) :
    c.tokens = c.current :: c.advance.tokens := by
  rw [tokens, if_neg h]
  by_cases hp : c.peek.kind = .eof
  · rw [if_pos hp, tokens_of_eof (c := c.advance) hp]
    rfl
  · rw [if_neg hp, tokens, if_neg (show ¬ c.advance.current.kind = .eof from hp)]
    by_cases hn : c.advance.peek.kind = .eof
    · rw [if_pos hn, Scanner.tokens_of_eof hn]
      rfl
    · rw [if_neg hn, Scanner.tokens_of_ne_eof hn]
      rfl

/-- The first cursor of a scanner has all its tokens. -/
theorem tokens_ofScanner (s : Scanner) : (ofScanner s).tokens = s.tokens := by
  by_cases h : s.next.1.kind = .eof
  · rw [Scanner.tokens_of_eof h, tokens_of_eof (c := ofScanner s) h]
    rfl
  · rw [Scanner.tokens_of_ne_eof h, tokens,
      if_neg (show ¬ (ofScanner s).current.kind = .eof from h)]
    by_cases hn : (ofScanner s).peek.kind = .eof
    · rw [if_pos hn, Scanner.tokens_of_eof hn]
      rfl
    · rw [if_neg hn, Scanner.tokens_of_ne_eof hn]
      rfl

end Cursor

namespace Parser

/-- A run to the end token is all the tokens that are left. -/
theorem tokens_of_reads {p q : Parser} {ts : List Token} {e : Token} (he : e.kind = .eof)
    (hts : ∀ t ∈ ts, t.kind ≠ .eof) (h : p.Reads (ts ++ [e]) q) : p.cursor.tokens = ts ++ [e] := by
  induction ts generalizing p with
  | nil =>
    have hc : p.cursor.current = e := h.1
    rw [Cursor.tokens_of_eof (by rw [hc, he]), hc]
    rfl
  | cons t ts ih =>
    have hc : p.cursor.current = t := h.1
    have ht : p.cursor.current.kind ≠ .eof := hc ▸ hts t List.mem_cons_self
    rw [Cursor.tokens_of_ne_eof ht, hc, List.cons_append,
      ← ih (fun u hu => hts u (.tail _ hu)) h.2.reads_concat, cursor_advance]

/-- The tokens that are left are a run to the end token. -/
theorem exists_reads {p : Parser} {ts : List Token} {e : Token}
    (hts : ∀ t ∈ ts, t.kind ≠ .eof) (h : p.cursor.tokens = ts ++ [e]) :
    ∃ q, p.Reads (ts ++ [e]) q := by
  induction ts generalizing p with
  | nil =>
    obtain ⟨us, hu⟩ := p.cursor.exists_tokens_eq
    rw [hu] at h
    exact ⟨p, List.head_eq_of_cons_eq h, rfl⟩
  | cons t ts ih =>
    obtain ⟨us, hu⟩ := p.cursor.exists_tokens_eq
    have hc : p.cursor.current = t := List.head_eq_of_cons_eq (hu.symm.trans h)
    have ht : p.cursor.current.kind ≠ .eof := hc ▸ hts t List.mem_cons_self
    rw [Cursor.tokens_of_ne_eof ht, hc] at h
    obtain ⟨q, hq⟩ := ih (p := p.advance) (fun u hu => hts u (.tail _ hu))
      (List.tail_eq_of_cons_eq h)
    exact ⟨q, hc, hq.ahead⟩

end Parser

end ExprLang
