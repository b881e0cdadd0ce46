import ExprLang.Parser.Program
import ExprLang.Proofs.Parser.Reading
import ExprLang.Proofs.Parser.Success

/-!
# What is parsed without a diagnostic

A source that is parsed without a diagnostic is a writing of the program it gives.

Each rule is looked at where it succeeds and records nothing.  Then it has read a run
of tokens, and these write the tree it gives.  An operand is *sound* up to `n` levels
if that holds of it, with at most `n` expressions inside each other and the token ahead
no operator that binds tighter than the power asked for.  The rules for an expression
turn an operand sound up to `n` into one sound up to `n + 1`, and so the operand of `n`
levels is sound up to `n` (`Operand.ofLevels_sound`).

Diagnostics are only added, so where none has been added at the end of a rule none
has been added by any part of it (`Parser.Leads.quiet`).
-/

namespace ExprLang

open Parse

/-! ## Parses that record nothing -/

namespace Parser

/-- Nothing recorded over a whole way means nothing recorded on either part of it. -/
theorem Leads.quiet {p q r : Parser} (h : p.Leads q) (k : q.Leads r)
    (hr : r.diagnostics = p.diagnostics) :
    q.diagnostics = p.diagnostics ∧ r.diagnostics = q.diagnostics := by
  have hk := k.diagnostics
  rw [hr] at hk
  have hq : q.diagnostics = p.diagnostics :=
    Array.toList_inj.1 (hk.eq_of_length_le h.diagnostics.length_le)
  exact ⟨hq, hr.trans hq.symm⟩

/-- A way on which a diagnostic is recorded is not one on which nothing is. -/
theorem Leads.not_quiet {p q r : Parser} {d : Diagnostic} (h : p.Leads q)
    (k : (q.record d).Leads r) : r.diagnostics ≠ p.diagnostics := by
  intro hr
  have hq := (h.trans (q.leads_record d)).quiet k hr
  have hl := h.diagnostics.length_le
  rw [← hq.1] at hl
  simp only [record, Array.toList_push, List.length_append, List.length_singleton] at hl
  omega

end Parser

/-- What a sound operand gives: wherever it succeeds and records nothing, it has read
tokens that write the expression. -/
def Operand.Sound (operand : Operand) (n : Nat) : Prop :=
  ∀ {power : Power} {p q : Parser} {e : Expr}, power < .call →
    (operand.parse power).run p = .ok e q → q.diagnostics = p.diagnostics →
    ∃ ts top k, p.Reads ts q ∧ e.Written ts top k ∧ k ≤ n ∧ power.Admits top ∧
      q.peek.kind.power ≤ power

namespace Parse

variable {operand : Operand} {n : Nat} {p q : Parser}

/-! ## Statements and blocks -/

/-- The semicolon that was skipped, if there was one. -/
theorem skipSemicolon_ahead {u : Unit} (h : skipSemicolon.run p = .ok u q) :
    ∃ semicolon? : Option Token, (∀ t ∈ semicolon?, t.kind = .semicolon) ∧
      p.Ahead semicolon?.toList q ∧ (semicolon? = none → q = p) := by
  rw [run_skipSemicolon] at h
  by_cases hk : p.peek.kind = .semicolon
  · rw [if_pos hk] at h
    cases h
    refine ⟨some p.peek, ?_, ⟨rfl, rfl⟩, by simp⟩
    intro t ht
    cases ht
    exact hk
  · rw [if_neg hk] at h
    cases h
    exact ⟨none, by simp, rfl, fun _ => rfl⟩

/-- An expression with an optional semicolon, as a statement ends with it. -/
theorem value_sound (h : operand.Sound n) {e : Expr} {r : Parser} {u : Unit}
    (he : (operand.parse .default).run p = .ok e r) (hs : skipSemicolon.run r = .ok u q)
    (hq : q.diagnostics = p.diagnostics) :
    ∃ ts top k semicolon?, p.Reads (ts ++ Option.toList semicolon?) q ∧ e.Written ts top k ∧
      k ≤ n ∧ (∀ t ∈ semicolon?, t.kind = .semicolon) ∧
      (semicolon? = none → q.peek.kind.power = .default) := by
  obtain ⟨semicolon?, hk, ha, hn⟩ := skipSemicolon_ahead hs
  obtain ⟨ts, top, k, hr, hw, hkn, -, hp⟩ :=
    h (by decide) he (ha.diagnostics_eq.symm.trans hq)
  refine ⟨ts, top, k, semicolon?, hr.append ha, hw, hkn, hk, ?_⟩
  intro hnone
  rw [hn hnone]
  exact Power.le_default hp

/-- A statement that records nothing is written, and one without a semicolon ends
before a token of the default power. -/
theorem statement_sound (h : operand.Sound n) {s : Stmt}
    (hs : (statement operand).run p = .ok s q) (hq : q.diagnostics = p.diagnostics) :
    ∃ ts k semicolon?, p.Reads ts q ∧ s.Written ts k semicolon? ∧ k ≤ n ∧
      (semicolon? = none → q.peek.kind.power = .default) := by
  have hs : (stmtRule operand p.current.kind.stmtRule?).run p = .ok s q := hs
  match hrule : p.current.kind.stmtRule?, hs with
  | some .binding, hs =>
    obtain ⟨hname, hsign, e, r, he, u, hu, rfl⟩ := binding_eq_ok_iff.1 hs
    obtain ⟨ts, top, k, semicolon?, hr, hw, hk, hsemi, hend⟩ := value_sound h he hu hq
    have hreads : p.Reads (p.current :: p.peek :: p.advance.peek :: (ts ++ semicolon?.toList)) q :=
      ⟨rfl, rfl, rfl, hr.ahead⟩
    rw [hreads.site]
    exact ⟨_, k, semicolon?, hreads, .binding (TokenKind.stmtRule?_eq_binding_iff.1 hrule) hname
      hsign hw hsemi, hk, hend⟩
  | some .result, hs =>
    obtain ⟨e, r, he, u, hu, rfl⟩ := result_eq_ok_iff.1 hs
    obtain ⟨ts, top, k, semicolon?, hr, hw, hk, hsemi, hend⟩ := value_sound h he hu hq
    have hreads : p.Reads (p.current :: (ts ++ semicolon?.toList)) q := ⟨rfl, hr.ahead⟩
    rw [hreads.site]
    exact ⟨_, k, semicolon?, hreads, .result (TokenKind.stmtRule?_eq_result_iff.1 hrule) hw hsemi,
      hk, hend⟩
  | none, hs =>
    obtain ⟨e, r, he, u, hu, rfl⟩ := expressionStatement_eq_ok_iff.1 hs
    obtain ⟨ts, top, k, semicolon?, hr, hw, hk, hsemi, hend⟩ := value_sound h he hu hq
    rw [hr.site]
    exact ⟨_, k, semicolon?, hr, .expression hw hsemi, hk, hend⟩

/-- The next statement may follow a statement without a semicolon. -/
theorem head_power {r : Parser} {ts : List Token} {c : Token} (h : r.advance.Reads (ts ++ [c]) q)
    (hp : r.peek.kind.power = .default) : ∀ t ∈ ts.head?, t.kind.power = .default := by
  intro t ht
  cases ts with
  | nil => cases ht
  | cons u us =>
    cases ht
    rw [← h.1]
    exact hp

/-- The statements that a block reads, up to its closing brace. -/
theorem moreStatements_sound (h : operand.Sound n) {done body : Array Stmt}
    (hb : moreStatements operand done p = .ok body q) (hq : q.diagnostics = p.diagnostics) :
    ∃ ss ts k c, p.Reads (ts ++ [c]) q ∧ c.kind = .closeCurly ∧ Stmt.ListWritten ss ts k ∧
      k ≤ n ∧ body.toList = done.toList ++ ss := by
  fun_induction moreStatements operand done p with
  | case1 done p hc =>
    cases hb
    exact ⟨[], [], 0, _, ⟨rfl, rfl⟩, hc, .nil, Nat.zero_le _, by simp⟩
  | case2 done p hc he => cases hb
  | case3 done p hc he s r hs ih =>
    have hl : p.Leads r := (steady_statement operand p).of_eq hs
    have hm : r.advance.Leads q :=
      (leads_moreStatements operand (done.push s) r.advance).of_eq hb
    obtain ⟨hr, hrest⟩ := (hl.trans r.leads_advance).quiet hm hq
    obtain ⟨ts, k, semicolon?, hreads, hw, hk, hend⟩ := statement_sound h hs hr
    obtain ⟨ss, us, m, c, hus, hc, hws, hm, hbody⟩ := ih hb hrest
    refine ⟨s :: ss, ts ++ us, max k m, c, ?_, hc, ?_, Nat.max_le.2 ⟨hk, hm⟩, ?_⟩
    · rw [List.append_assoc]
      exact hreads.append hus.ahead
    · exact .cons hw (fun hn => head_power hus (hend hn)) hws
    · simp [hbody]
  | case4 done p hc he d r hs hr => cases hb
  | case5 done p hc he d r hs hr ih =>
    have hl : p.Leads r := (steady_statement operand p).of_eq hs
    have hm : (r.record d).advance.Leads q :=
      (leads_moreStatements operand done (r.record d).advance).of_eq hb
    exact absurd hq (hl.not_quiet ((Parser.leads_advance _).trans hm))

theorem block_sound (h : operand.Sound n) {b : Block} (hb : (block operand).run p = .ok b q)
    (ho : p.current.kind = .openCurly) (hq : q.diagnostics = p.diagnostics) :
    ∃ ts k, p.Reads ts q ∧ b.Written ts k ∧ k ≤ n := by
  obtain ⟨body, hm, rfl⟩ := block_eq_ok_iff.1 hb
  obtain ⟨ss, ts, k, c, hr, hc, hw, hk, hbody⟩ := moreStatements_sound h hm hq
  have hreads : p.Reads (p.current :: (ts ++ [c])) q := ⟨rfl, hr.ahead⟩
  rw [hreads.site, show body.toList = ss by simpa using hbody]
  exact ⟨_, k, hreads, .mk ho hw hc, hk⟩

/-! ## How an expression starts -/

theorem moreParameters_sound {done found : Array Identifier}
    (h : moreParameters done p = .ok found q) :
    ∃ t ids ts, p.Ahead (t :: ts) q ∧ t.kind = .identifier ∧ Identifier.MoreWritten ids ts ∧
      found.toList = done.toList ++ .ofToken t :: ids := by
  fun_induction moreParameters done p with
  | case1 done p d r hs => cases h
  | case2 done p t r hs hc ih =>
    obtain ⟨hk, rfl, rfl⟩ := expect_eq_ok hs
    obtain ⟨u, ids, ts, ha, hu, hw, hf⟩ := ih h
    refine ⟨_, .ofToken u :: ids, p.advance.peek :: u :: ts, ⟨rfl, rfl, ha⟩, hk,
      .cons hc hu hw, ?_⟩
    simp [hf]
  | case3 done p t r hs hc =>
    obtain ⟨hk, rfl, rfl⟩ := expect_eq_ok hs
    cases h
    exact ⟨_, [], [], ⟨rfl, rfl⟩, hk, .nil, by simp⟩

theorem parameters_sound {ids : List Identifier} (h : parameters.run p = .ok ids q) :
    ∃ ts c, p.Ahead (ts ++ [c]) q ∧ c.kind = .closeParen ∧ Identifier.ListWritten ids ts := by
  rcases parameters_eq_ok_iff.1 h with ⟨hc, rfl, rfl⟩ | ⟨-, found, r, hm, hc, rfl, rfl⟩
  · exact ⟨[], p.peek, ⟨rfl, rfl⟩, hc, .nil⟩
  · obtain ⟨t, ids, ts, ha, ht, hw, hf⟩ := moreParameters_sound hm
    rw [show found.toList = .ofToken t :: ids by simpa using hf]
    exact ⟨t :: ts, r.peek, Parser.ahead_append.2 ⟨r, ha, rfl, rfl⟩, hc, .cons ht hw⟩

theorem alternative_sound (h : operand.Sound n) {a : Option Block}
    (ha : (alternative operand).run p = .ok a q) (hq : q.diagnostics = p.diagnostics) :
    ∃ ts k, p.Ahead ts q ∧ Block.ElseWritten a ts k ∧ k ≤ n := by
  rcases alternative_eq_ok_iff.1 ha with ⟨hk, ho, b, hb, rfl⟩ | ⟨-, rfl, rfl⟩
  · obtain ⟨ts, k, hr, hw, hkn⟩ := block_sound h hb ho hq
    exact ⟨p.peek :: ts, k, ⟨rfl, hr.ahead⟩, .some hk hw, hkn⟩
  · exact ⟨[], 0, rfl, .none, Nat.zero_le _⟩

theorem conditional_sound (h : operand.Sound n) {e : Expr}
    (he : (conditional operand).run p = .ok e q) (hk : p.current.kind = .kwIf)
    (hq : q.diagnostics = p.diagnostics) :
    ∃ ts k, p.Reads ts q ∧ e.Written ts .call k ∧ k ≤ n + 1 := by
  obtain ⟨ho, c, r, hc, hcl, hbr, b, s, hb, a, ha, rfl⟩ := conditional_eq_ok_iff.1 he
  -- The parts that can record something: the condition and the two branches.
  have hlc : p.advance.advance.Leads r := (operand.steady .default _).of_eq hc
  have hlb : r.advance.advance.Leads s := (steady_block operand _).of_eq hb
  have hla : s.Leads q := (steady_alternative operand _).of_eq ha
  have hlr : r.Leads q := (r.leads_advance.trans (Parser.leads_advance _)).trans (hlb.trans hla)
  obtain ⟨hqc, hq⟩ := hlc.quiet hlr hq
  obtain ⟨hqb, hqa⟩ := hlb.quiet hla hq
  obtain ⟨ts, top, l, hts, hwc, hl, -, -⟩ := h (by decide) hc hqc
  obtain ⟨us, m, hus, hwb, hm⟩ := block_sound h hb hbr hqb
  obtain ⟨vs, k, hvs, hwa, hkn⟩ := alternative_sound h ha hqa
  have hreads : p.Reads (p.current :: p.peek :: (ts ++ r.peek :: (us ++ vs))) q :=
    ⟨rfl, rfl, Parser.ahead_append.2 ⟨r, hts.ahead, rfl, (hus.append hvs).ahead⟩⟩
  rw [hreads.site]
  exact ⟨_, _, hreads, .conditional hk ho hwc hcl hwb hwa, by omega⟩

theorem function_sound (h : operand.Sound n) {e : Expr}
    (he : (function operand).run p = .ok e q) (hk : p.current.kind = .kwFn)
    (hq : q.diagnostics = p.diagnostics) :
    ∃ ts k, p.Reads ts q ∧ e.Written ts .call k ∧ k ≤ n + 1 := by
  obtain ⟨ho, ids, r, hids, hbr, b, hb, rfl⟩ := function_eq_ok_iff.1 he
  obtain ⟨ts, c, hts, hc, hwi⟩ := parameters_sound hids
  have hqb : q.diagnostics = r.diagnostics := by
    rw [hts.diagnostics_eq]
    exact hq
  obtain ⟨us, k, hus, hwb, hkn⟩ := block_sound h hb hbr hqb
  have hreads : p.Reads (p.current :: p.peek :: (ts ++ c :: us)) q := by
    have ha := Parser.ahead_append.2 ⟨r, hts, hus.ahead⟩
    rw [List.append_assoc] at ha
    exact ⟨rfl, rfl, ha⟩
  rw [hreads.site]
  exact ⟨_, _, hreads, .function hk ho hwi hc hwb, Nat.succ_le_succ hkn⟩

/-- The start of an expression.  Nothing it can be asked for stops short of it, for it
binds as tightly as an operand of a prefix operator has to. -/
theorem prefixRule_sound (h : operand.Sound n) {rule : PrefixRule} {e : Expr}
    (he : (prefixRule operand rule).run p = .ok e q)
    (hk : p.current.kind.prefixRule? = some rule) (hq : q.diagnostics = p.diagnostics) :
    ∃ ts top k, p.Reads ts q ∧ e.Written ts top k ∧ k ≤ n + 1 ∧ .unary ≤ top ∧
      q.peek.kind.power ≤ top := by
  have hmem := TokenKind.prefixRule?_eq_some_iff.1 hk
  cases rule with
  | identifier =>
    obtain ⟨rfl, rfl⟩ := identifier_eq_ok_iff.1 he
    exact ⟨[_], _, _, ⟨rfl, rfl⟩, .identifier (List.mem_singleton.1 hmem), by omega, by decide,
      Power.le_call _⟩
  | integer =>
    obtain ⟨v, hv, rfl, rfl⟩ := integer_eq_ok_iff.1 he
    exact ⟨[_], _, _, ⟨rfl, rfl⟩, .integer (List.mem_singleton.1 hmem) hv, by omega, by decide,
      Power.le_call _⟩
  | boolean =>
    obtain ⟨rfl, rfl⟩ := boolean_eq_ok_iff.1 he
    exact ⟨[_], _, _, ⟨rfl, rfl⟩, .boolean (by simpa [TokenKind.ofPrefixRule] using hmem), by omega,
      by decide, Power.le_call _⟩
  | unary =>
    obtain ⟨right, hr, rfl⟩ := unary_eq_ok_iff.1 he
    obtain ⟨ts, top, k, hts, hw, hkn, hadm, hp⟩ := h (by decide) hr hq
    have hreads : p.Reads (p.current :: ts) q := ⟨rfl, hts.ahead⟩
    rw [hreads.site]
    exact ⟨_, _, _, hreads, .unary hk hw (hadm.le (Power.le_refl _)), Nat.succ_le_succ hkn,
      Power.le_refl _, hp⟩
  | group =>
    obtain ⟨r, hr, hc, rfl⟩ := group_eq_ok_iff.1 he
    obtain ⟨ts, top, k, hts, hw, hkn, -, -⟩ := h (by decide) hr hq
    refine ⟨p.current :: (ts ++ [r.peek]), _, _, ⟨rfl, ?_⟩,
      .group (List.mem_singleton.1 hmem) hw hc, Nat.succ_le_succ hkn, by decide, Power.le_call _⟩
    exact Parser.ahead_append.2 ⟨r, hts.ahead, rfl, rfl⟩
  | conditional =>
    obtain ⟨ts, k, hts, hw, hkn⟩ := conditional_sound h he (List.mem_singleton.1 hmem) hq
    exact ⟨ts, _, k, hts, hw, hkn, by decide, Power.le_call _⟩
  | function =>
    obtain ⟨ts, k, hts, hw, hkn⟩ := function_sound h he (List.mem_singleton.1 hmem) hq
    exact ⟨ts, _, k, hts, hw, hkn, by decide, Power.le_call _⟩

/-! ## How an expression goes on -/

theorem moreArguments_sound (h : operand.Sound n) {done found : Array Expr}
    (hm : moreArguments operand done p = .ok found q) (hq : q.diagnostics = p.diagnostics) :
    ∃ es ts k, p.Ahead ts q ∧ Expr.MoreWritten es ts k ∧ k ≤ n + 1 ∧
      found.toList = done.toList ++ es := by
  fun_induction moreArguments operand done p with
  | case1 done p hc e r he ih =>
    have hl : p.advance.advance.Leads r := (operand.steady .default _).of_eq he
    have hrest : r.Leads q := (leads_moreArguments operand (done.push e) r).of_eq hm
    obtain ⟨hqe, hq⟩ := hl.quiet hrest hq
    obtain ⟨ts, top, k, hts, hw, hk, -, -⟩ := h (by decide) he hqe
    obtain ⟨es, us, l, hus, hws, hl, hf⟩ := ih hm hq
    refine ⟨e :: es, p.peek :: (ts ++ us), _, ⟨rfl, ?_⟩, .cons hc hw hws, by omega, by simp [hf]⟩
    exact Parser.ahead_append.2 ⟨r, hts.ahead, hus⟩
  | case2 done p hc d r he => cases hm
  | case3 done p hc =>
    cases hm
    exact ⟨[], [], 0, rfl, .nil, Nat.zero_le _, by simp⟩

theorem arguments_sound (h : operand.Sound n) {es : List Expr}
    (ha : (arguments operand).run p = .ok es q) (hq : q.diagnostics = p.diagnostics) :
    ∃ ts c k, p.Ahead (ts ++ [c]) q ∧ c.kind = .closeParen ∧ Expr.ListWritten es ts k ∧
      k ≤ n + 1 := by
  rcases arguments_eq_ok_iff.1 ha with ⟨hc, rfl, rfl⟩ | ⟨-, e, r, he, found, s, hm, hc, rfl, rfl⟩
  · exact ⟨[], p.peek, 0, ⟨rfl, rfl⟩, hc, .nil, Nat.zero_le _⟩
  · have hl : p.advance.Leads r := (operand.steady .default _).of_eq he
    have hrest : r.Leads s := (leads_moreArguments operand #[e] r).of_eq hm
    obtain ⟨hqe, hqm⟩ := hl.quiet hrest hq
    obtain ⟨ts, top, k, hts, hw, hk, -, -⟩ := h (by decide) he hqe
    obtain ⟨es, us, l, hus, hws, hl, hf⟩ := moreArguments_sound h hm hqm
    rw [show found.toList = e :: es by simpa using hf]
    refine ⟨ts ++ us, s.peek, _, ?_, hc, .cons hw hws, by omega⟩
    exact Parser.ahead_append.2 ⟨s, Parser.ahead_append.2 ⟨r, hts.ahead, hus⟩, rfl, rfl⟩

/-- One more operator behind a left operand.  The power at the top is then that of the
operator. -/
theorem infixRule_sound (h : operand.Sound n) {rule : InfixRule} {left e : Expr} {r : Parser}
    {ts : List Token} {top : Power} {k : Nat} (hts : p.Reads ts r) (hw : left.Written ts top k)
    (hk : k ≤ n + 1) (hp : r.peek.kind.power ≤ top) (hrule : r.peek.kind.infixRule? = some rule)
    (he : (infixRule operand left r.peek.kind.power rule).run r.advance = .ok e q)
    (hq : q.diagnostics = r.diagnostics) :
    ∃ us l, p.Reads us q ∧ e.Written us r.peek.kind.power l ∧ l ≤ n + 1 ∧
      q.peek.kind.power ≤ r.peek.kind.power := by
  cases rule with
  | binary =>
    obtain ⟨right, hr, rfl⟩ := binary_eq_ok_iff.1 he
    have hlt := TokenKind.power_lt_unary hrule
    obtain ⟨us, top', l, hus, hwr, hl, hadm, hpq⟩ := h (Nat.lt_trans hlt (by decide)) hr hq
    have hop : r.peek.kind.power < top' := by
      rcases hadm with hadm | ⟨heq, -⟩
      · exact hadm
      · rw [heq] at hlt
        exact absurd hlt (Nat.lt_irrefl _)
    refine ⟨ts ++ r.peek :: us, max k (l + 1), hts.append ⟨rfl, hus.ahead⟩, ?_, by omega, hpq⟩
    have hspan : q.spanFrom left.site.span.start = ⟨left.site.span.start, stopOf us⟩ := by
      rw [hus.stopOf]
      rfl
    rw [hspan]
    exact .binary hw hrule hwr hp hop
  | call =>
    obtain ⟨es, ha, rfl⟩ := call_eq_ok_iff.1 he
    have hopen := TokenKind.infixRule?_eq_call_iff.1 hrule
    rw [hopen] at hp ⊢
    obtain ⟨us, c, l, hus, hc, hws, hl⟩ := arguments_sound h ha hq
    have htop := Power.eq_call hp
    subst htop
    have hlast : q.current = c := by
      rw [← hus.getLastD, List.getLastD_concat]
    refine ⟨ts ++ r.peek :: (us ++ [c]), max k l, hts.append ⟨rfl, hus⟩, ?_, by omega,
      Power.le_call _⟩
    have hspan : q.spanFrom left.site.span.start = ⟨left.site.span.start, c.span.stop⟩ := by
      rw [← hlast]
      rfl
    rw [hspan]
    exact .call hw hopen hws hc

/-- Operators one after the other.  The invariant is that the tokens from the start of
the expression write what is on the left, and that the next operator may take that as
its left operand. -/
theorem operationsFrom_sound (h : operand.Sound n) {power : Power} {left e : Expr} {r : Parser}
    {ts : List Token} {top : Power} {k : Nat} (hts : p.Reads ts r) (hw : left.Written ts top k)
    (hk : k ≤ n + 1) (hadm : power.Admits top) (hp : r.peek.kind.power ≤ top)
    (he : operationsFrom operand power left r = .ok e q) (hq : q.diagnostics = r.diagnostics) :
    ∃ us top' l, p.Reads us q ∧ e.Written us top' l ∧ l ≤ n + 1 ∧ power.Admits top' ∧
      q.peek.kind.power ≤ power := by
  fun_induction operationsFrom operand power left r generalizing ts top k with
  | case1 left r hlt hrule => exact absurd hrule (TokenKind.infixRule?_ne_none hlt)
  | case2 left r hlt rule hrule e' s hs ih =>
    have hl : r.advance.Leads s := (steady_infixRule operand left _ rule _).of_eq hs
    have hrest : s.Leads q := (leads_operationsFrom operand power e' s).of_eq he
    obtain ⟨hqs, hq⟩ := hl.quiet hrest hq
    obtain ⟨us, l, hus, hw', hl', hp'⟩ := infixRule_sound h hts hw hk hp hrule hs hqs
    exact ih hus hw' hl' (.inl hlt) hp' he hq
  | case3 left r hlt rule hrule d s hs => cases he
  | case4 left r hlt =>
    cases he
    exact ⟨ts, top, k, hts, hw, hk, hadm, Power.not_lt.1 hlt⟩

/-- Operations whose operands are sound up to `n` levels are sound up to one more. -/
theorem operation_sound (h : operand.Sound n) {power : Power} {e : Expr} (hpow : power < .call)
    (he : (operation operand power).run p = .ok e q) (hq : q.diagnostics = p.diagnostics) :
    ∃ ts top k, p.Reads ts q ∧ e.Written ts top k ∧ k ≤ n + 1 ∧ power.Admits top ∧
      q.peek.kind.power ≤ power := by
  obtain ⟨rule, hrule, left, r, hr, hrest⟩ := operation_eq_ok_iff.1 he
  have hl : p.Leads r := (steady_prefixRule operand rule p).of_eq hr
  have hlrest : r.Leads q := (leads_operationsFrom operand power left r).of_eq hrest
  obtain ⟨hqr, hq⟩ := hl.quiet hlrest hq
  obtain ⟨ts, top, k, hts, hw, hk, htop, hp⟩ := prefixRule_sound h hr hrule hqr
  exact operationsFrom_sound h hts hw hk (.of_unary_le hpow htop) hp hrest hq

end Parse

/-! ## Operands and programs -/

namespace Operand

/-- The operand of `n` levels is sound up to `n`. -/
theorem ofLevels_sound (n : Nat) : (ofLevels n).Sound n := by
  induction n with
  | zero =>
    intro power p q e hpow he hq
    cases he
  | succ n ih =>
    intro power p q e hpow he hq
    have he : (nested (operation (ofLevels n) power)).run p = .ok e q := he
    obtain ⟨-, r, hr, rfl⟩ := nested_eq_ok_iff.1 he
    obtain ⟨ts, top, k, hts, hw, hk, hadm, hp⟩ := operation_sound ih hpow hr hq
    exact ⟨ts, top, k, hts.leave, hw, hk, hadm, hp⟩

theorem full_sound : full.Sound Parser.depthLimit := by
  intro power p q e hpow he hq
  obtain ⟨ts, top, k, hts, hw, hk, hadm, hp⟩ := ofLevels_sound _ hpow he hq
  exact ⟨ts, top, k, hts, hw, by omega, hadm, hp⟩

end Operand

/-- The statements up to the end of the source. -/
theorem Parser.topLevel_sound {done body : Array Stmt} {p q : Parser}
    (hb : topLevel done p = (body, q)) (hq : q.diagnostics = p.diagnostics) :
    ∃ ss ts k last, p.Reads (ts ++ [last]) q ∧ last.kind = .eof ∧ Stmt.ListWritten ss ts k ∧
      k ≤ depthLimit ∧ body.toList = done.toList ++ ss := by
  fun_induction topLevel done p with
  | case1 done p hc =>
    cases hb
    exact ⟨[], [], 0, _, ⟨rfl, rfl⟩, hc, .nil, Nat.zero_le _, by simp⟩
  | case2 done p hc s r hs ih =>
    have hl : p.Leads r := (steady_statement .full p).of_eq hs
    have hm := leads_topLevel (done.push s) r.advance
    rw [hb] at hm
    obtain ⟨hr, hrest⟩ := (hl.trans r.leads_advance).quiet hm hq
    obtain ⟨ts, k, semicolon?, hreads, hw, hk, hend⟩ := statement_sound Operand.full_sound hs hr
    obtain ⟨ss, us, m, last, hus, hlast, hws, hm, hbody⟩ := ih hb hrest
    refine ⟨s :: ss, ts ++ us, max k m, last, ?_, hlast, ?_, Nat.max_le.2 ⟨hk, hm⟩, by simp [hbody]⟩
    · rw [List.append_assoc]
      exact hreads.append hus.ahead
    · exact .cons hw (fun hn => head_power hus (hend hn)) hws
  | case3 done p hc d r hs ih =>
    have hl : p.Leads r := (steady_statement .full p).of_eq hs
    have hm := leads_topLevel done (r.record d).advance
    rw [hb] at hm
    exact absurd hq (hl.not_quiet ((leads_advance _).trans hm))

/-- The tokens of a source that is parsed without a diagnostic write its statements, up to the end
token, and parsing reads them all. -/
theorem exists_written {source : String} {file? : Option String}
    (h : (parse source file?).2.diagnostics = #[]) :
    ∃ ts k last, tokenize source file? = ts ++ [last] ∧ last.kind = .eof ∧
      Stmt.ListWritten (parse source file?).1.body ts k ∧ k ≤ Parser.depthLimit ∧
      (Parser.ofScanner (.ofSource source file?)).reset.Reads (ts ++ [last])
        (Parser.topLevel #[] (Parser.ofScanner (.ofSource source file?)).reset).2 := by
  let p := (Parser.ofScanner (.ofSource source file?)).reset
  let r := Parser.topLevel #[] p
  obtain ⟨ss, ts, k, last, hr, hlast, hw, hk, hbody⟩ :=
    Parser.topLevel_sound (show Parser.topLevel #[] p = (r.1, r.2) from rfl) h
  have htokens : tokenize source file? = ts ++ [last] := by
    rw [← Parser.tokens_of_reads hlast hw.ne_eof hr]
    exact (Cursor.tokens_ofScanner _).symm
  have hbody : r.1.toList = ss := by simpa using hbody
  refine ⟨ts, k, last, htokens, hlast, ?_, hk, hr⟩
  show Stmt.ListWritten r.1.toList ts k
  rwa [hbody]

/-- A source that is parsed without a diagnostic is a writing of its program: its
tokens, all of them in their order, write exactly that program, with at most as many
expressions inside each other as the limit allows. -/
theorem parse_written {source : String} {file? : Option String}
    (h : (parse source file?).2.diagnostics = #[]) :
    ∃ need ≤ Parser.depthLimit, (parse source file?).1.Written (tokenize source file?) need := by
  obtain ⟨ts, k, last, htokens, hlast, hw, hk, hr⟩ := exists_written h
  let p := (Parser.ofScanner (.ofSource source file?)).reset
  let q := (Parser.topLevel #[] p).2
  have hfirst : ((ts ++ [last]).headD default) = p.current := by
    cases ts with
    | nil => exact hr.1.symm
    | cons t ts => exact hr.1.symm
  have hstop : q.current.span.stop = last.span.stop := by
    rw [← hr.stopOf, stopOf_append_singleton]
  have hprogram : (parse source file?).1 =
      ⟨(parse source file?).1.body,
        ⟨.at ((ts ++ [last]).headD default).span.start.file 0, last.span.stop⟩⟩ := by
    rw [hfirst, ← hstop]
    rfl
  rw [hprogram, htokens]
  exact ⟨k, hk, .mk hw hlast⟩

theorem parse_written_operators :
    (parse "let f = fn(x) \x7b -x * 2 \x7d f(1)" none).2.diagnostics = #[] ∧
      ∃ need ≤ Parser.depthLimit,
        (parse "let f = fn(x) \x7b -x * 2 \x7d f(1)" none).1.Written
          (tokenize "let f = fn(x) \x7b -x * 2 \x7d f(1)" none) need :=
  ⟨by decide +kernel, parse_written (by decide +kernel)⟩

end ExprLang
