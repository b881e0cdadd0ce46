import ExprLang.Proofs.Parser.Completeness
import ExprLang.Proofs.Parser.Unwinding

/-!
# Rounds of the loop over a program

The loop over a program takes tokens off the front round by round.  A round keeps a statement
(`Keeps`), or its statement fails, and the next one starts behind the token it failed on
(`Drops`).  `Yields ts body ds` says what all rounds make of the tokens `ts`: the statements
`body`, and the diagnostics `ds`.

Too deep a nesting is one such failure.  It is that of the token behind as many operators as the
limit allows, which are left all at once (`fails_of_openers`, `Drops.tooDeep`).
-/

namespace ExprLang

open Parse

variable {t : Token} {ts us : List Token} {s : Stmt} {d : Diagnostic} {body : List Stmt}
  {ds : List Diagnostic}

/-! ## Rounds -/

/-- Where the tokens `us` are left the next statement is `s`, and behind it `ts` are left. -/
def Keeps (us : List Token) (s : Stmt) (ts : List Token) : Prop :=
  ∀ p : Parser, p.cursor.tokens = us → p.depth = 0 → p.current.kind ≠ .eof ∧
    ∃ q, (statement .full).run p = .ok s q ∧ q.diagnostics = p.diagnostics ∧
      q.advance.cursor.tokens = ts

/-- Where the tokens `us` are left the next statement fails with `d`, and behind the token it
fails on `ts` are left. -/
def Drops (us : List Token) (d : Diagnostic) (ts : List Token) : Prop :=
  ∀ p : Parser, p.cursor.tokens = us → p.depth = 0 → p.current.kind ≠ .eof ∧
    ∃ q, (statement .full).run p = .error d q ∧ q.diagnostics = p.diagnostics ∧
      q.advance.cursor.tokens = ts

/-- Where the tokens `ts` are left the loop over a program adds the statements `body` and the
diagnostics `ds`. -/
def Yields (ts : List Token) (body : List Stmt) (ds : List Diagnostic) : Prop :=
  ∀ (p : Parser) (done : Array Stmt), p.cursor.tokens = ts → p.depth = 0 →
    (Parser.topLevel done p).1.toList = done.toList ++ body ∧
      (Parser.topLevel done p).2.diagnostics.toList = p.diagnostics.toList ++ ds

namespace Yields

theorem nil (ht : t.kind = .eof) : Yields [t] [] [] := by
  intro p done htokens _
  have hcurrent := p.cursor.head?_tokens
  rw [htokens, List.head?_cons, Option.some.injEq] at hcurrent
  have hp : p.current.kind = .eof := by rw [← ht, hcurrent]; rfl
  rw [Parser.topLevel_eq, if_pos hp, List.append_nil, List.append_nil]
  exact ⟨rfl, rfl⟩

theorem kept (h : Keeps us s ts) (k : Yields ts body ds) : Yields us (s :: body) ds := by
  intro p done htokens hdepth
  obtain ⟨hp, q, hs, hdiagnostics, hq⟩ := h p htokens hdepth
  have hleads := (steady_statement .full p).of_eq hs
  have hnext := k q.advance (done.push s) hq (hleads.depth_eq.trans hdepth)
  rw [Array.toList_push, List.append_assoc, List.singleton_append] at hnext
  rw [Parser.topLevel_eq, if_neg hp, hs, ← hdiagnostics]
  exact hnext

theorem dropped (h : Drops us d ts) (k : Yields ts body ds) : Yields us body (d :: ds) := by
  intro p done htokens hdepth
  obtain ⟨hp, q, hd, hdiagnostics, hq⟩ := h p htokens hdepth
  have hleads := (steady_statement .full p).of_eq hd
  have hnext := k (q.record d).advance done hq (hleads.depth_eq.trans hdepth)
  have hrecord : (q.record d).advance.diagnostics.toList = q.diagnostics.toList ++ [d] := by
    simp [Parser.record, Parser.advance]
  rw [hrecord, hdiagnostics, List.append_assoc, List.singleton_append] at hnext
  rw [Parser.topLevel_eq, if_neg hp, hd]
  exact hnext

/-- What the tokens of a source yield is what the source is parsed to. -/
theorem parse {source : String} {file? : Option String}
    (h : Yields (tokenize source file?) body ds) :
    (ExprLang.parse source file?).1.body = body ∧
      (ExprLang.parse source file?).2.diagnostics.toList = ds := by
  obtain ⟨hbody, hds⟩ := h (Parser.ofScanner (.ofSource source file?)).reset #[]
    (Cursor.tokens_ofScanner _) rfl
  exact ⟨hbody, hds⟩

end Yields

/-! ## Runs that start a round -/

namespace Parser

variable {p q : Parser}

/-- A run in front of other tokens is read up to its last token, and behind it the others are
left. -/
theorem exists_reads_of_tokens (h : p.cursor.tokens = us ++ t :: ts)
    (hus : ∀ u ∈ us, u.kind ≠ .eof) (ht : t.kind ≠ .eof) :
    ∃ q, p.Reads (us ++ [t]) q ∧ q.advance.cursor.tokens = ts := by
  induction us generalizing p with
  | nil =>
    have hcurrent := p.cursor.head?_tokens
    rw [h, List.nil_append, List.head?_cons, Option.some.injEq] at hcurrent
    rw [Cursor.tokens_of_ne_eof (hcurrent ▸ ht)] at h
    exact ⟨p, ⟨hcurrent.symm, rfl⟩, List.tail_eq_of_cons_eq h⟩
  | cons u us ih =>
    obtain ⟨hu, hus⟩ := List.forall_mem_cons.1 hus
    have hcurrent := p.cursor.head?_tokens
    rw [h, List.cons_append, List.head?_cons, Option.some.injEq] at hcurrent
    rw [Cursor.tokens_of_ne_eof (hcurrent ▸ hu)] at h
    obtain ⟨q, hq, hrest⟩ := ih (p := p.advance) (List.tail_eq_of_cons_eq h) hus
    exact ⟨q, ⟨hcurrent.symm, hq.ahead⟩, hrest⟩

theorem Reads.head?_eq (h : p.Reads us q) : us.head? = some p.current := by
  cases us with
  | nil => exact h.elim
  | cons u us => rw [List.head?_cons, h.1]

end Parser

/-! ## Too deep a nesting -/

/-- An operator in front of its operand, or an opening parenthesis. -/
def Token.Opens (t : Token) : Prop :=
  t.kind.prefixRule? = some .unary ∨ t.kind.prefixRule? = some .group

theorem Token.Opens.ne_eof (h : t.Opens) : t.kind ≠ .eof := by
  intro hk
  rcases h with h | h <;> rw [hk] at h <;> cases h

/-- Behind it the expression inside is called, one deeper. -/
theorem Token.Opens.exists_calls {p : Parser} (h : p.current.Opens)
    (hlt : p.depth < Parser.depthLimit) (power : Power) :
    ∃ power', Calls (.expression power) p (.expression power') p.advance.enter := by
  rcases h with h | h
  · exact ⟨.unary, .starts hlt h .operand⟩
  · exact ⟨.default, .starts hlt h .inside⟩

/-- As many operators as the limit leaves room for are left at once, with the diagnostic of the
token behind them. -/
theorem fails_of_openers {p q : Parser} (hus : ∀ u ∈ us, u.Opens)
    (hlen : p.depth + us.length = Parser.depthLimit) (h : p.Reads (us ++ [t]) q) (power : Power) :
    (Operand.full.parse power).run p =
      .error ⟨.nestingTooDeep Parser.depthLimit, t.span.start⟩ q := by
  induction us generalizing p q power with
  | nil =>
    obtain ⟨rfl, rfl⟩ := h
    rw [Operand.run_full_parse, run_nested_of_le (Nat.le_of_eq hlen.symm)]
    rfl
  | cons u us ih =>
    obtain ⟨hu, hus⟩ := List.forall_mem_cons.1 hus
    obtain ⟨hcurrent, hahead⟩ := h
    rw [List.length_cons] at hlen
    have hlt : p.depth < Parser.depthLimit := by omega
    obtain ⟨power', hcalls⟩ := Token.Opens.exists_calls (hcurrent ▸ hu) hlt power
    have hinside : p.advance.enter.Reads (us ++ [t]) q.enter := hahead.reads_concat.enter
    have hdepth : p.advance.enter.depth + us.length = Parser.depthLimit := by
      show p.depth + 1 + us.length = _
      omega
    exact hcalls.fails_of_expression (ih hus hdepth hinside power')

theorem Token.Opens.stmtRule?_eq_none (h : t.Opens) : t.kind.stmtRule? = none := by
  refine TokenKind.stmtRule?_eq_none ?_
  rcases h with h | h <;> rw [h] <;> rfl

/-- A statement fails with them, and the next one starts behind the token that was too deep. -/
theorem Drops.tooDeep (hus : ∀ u ∈ us, u.Opens) (hlen : us.length = Parser.depthLimit)
    (ht : t.kind ≠ .eof) (ts : List Token) :
    Drops (us ++ t :: ts) ⟨.nestingTooDeep Parser.depthLimit, t.span.start⟩ ts := by
  intro p htokens hdepth
  obtain ⟨q, hreads, hrest⟩ :=
    Parser.exists_reads_of_tokens htokens (fun u hu => (hus u hu).ne_eof) ht
  have hfails := fails_of_openers hus (by omega) hreads .default
  have hopens : p.current.Opens := by
    cases us with
    | nil => cases hlen
    | cons u us => exact hreads.1 ▸ hus u List.mem_cons_self
  have hcalls := Calls.expression hopens.stmtRule?_eq_none
  exact ⟨hopens.ne_eof, q, hcalls.fails_of_expression hfails, hreads.diagnostics_eq, hrest⟩

/-! ## Other rounds -/

/-- A token that starts neither a statement nor an expression is left by itself. -/
theorem Drops.stray (hstmt : t.kind.stmtRule? = none) (hrule : t.kind.prefixRule? = none)
    (ht : t.kind ≠ .eof) (ts : List Token) :
    Drops (t :: ts) ⟨.noPrefixRule t.kind t.literal, t.span.start⟩ ts := by
  intro p htokens hdepth
  obtain ⟨q, hreads, hrest⟩ :=
    Parser.exists_reads_of_tokens (htokens.trans (List.nil_append _).symm)
      (List.forall_mem_nil _) ht
  obtain ⟨rfl, rfl⟩ := hreads
  have hoperation : (operation .full .default).run q.enter =
      .error ⟨.noPrefixRule q.current.kind q.current.literal, q.position⟩ q.enter := by
    have hrule : q.enter.current.kind.prefixRule? = none := hrule
    rw [operation, run_current_bind, hrule]
    rfl
  have hfails := Call.Fails.of_operation (hdepth ▸ (by decide)) hoperation
  exact ⟨ht, q, (Calls.expression hstmt).fails_of_expression hfails, rfl, hrest⟩

/-- A statement that is written in front of a token which can stand behind it is kept. -/
theorem Keeps.written {n : Nat} (h : s.Written us n none) (hn : n ≤ Parser.depthLimit)
    (hts : ts.head? = some t) (ht : t.kind.Separates) : Keeps (us ++ ts) s ts := by
  intro p htokens hdepth
  rcases List.eq_nil_or_concat us with rfl | ⟨vs, v, rfl⟩
  · obtain ⟨u, _, hu, -⟩ := h.head
    cases hu
  have hne := h.ne_eof
  rw [List.concat_eq_append] at htokens hne h
  rw [List.append_assoc, List.singleton_append] at htokens
  obtain ⟨hvs, hv⟩ := List.forall_mem_append.1 hne
  obtain ⟨q, hreads, hrest⟩ :=
    Parser.exists_reads_of_tokens htokens hvs (hv v (List.mem_singleton_self v))
  have hpeek : q.peek = t := by
    have hcurrent := q.advance.cursor.head?_tokens
    rw [hrest, hts, Option.some.injEq] at hcurrent
    exact hcurrent.symm
  have hmeets := h.complete hreads fun _ => hpeek ▸ ht
  have hroom : n ≤ p.room := by rwa [Parser.room, hdepth]
  have hcurrent : p.current.kind ≠ .eof := hne _ (List.mem_of_mem_head? hreads.head?_eq)
  exact ⟨hcurrent, q, hmeets.eq hroom, hreads.diagnostics_eq, hrest⟩

end ExprLang
