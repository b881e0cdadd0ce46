import ExprLang.Proofs.Parser.Calls
import ExprLang.Proofs.Parser.Stream

/-!
# Failures that come up

A call that fails on the end token is not gone on with: whatever made it fails with the same
diagnostic (`Calls.fails`), and so it comes up through all calls to the loop over the program
(`Active.diagnostics_topLevel`).  A statement in a block that fails just before the end token is
recorded by the block, which then fails on the end token itself, and that comes up as well
(`Active.unclosed`).  In both cases nothing else is recorded.

Where a loop comes to a place it does what it would do from there, with more behind it
(`Turns.moreStatements_eq`, `Turns.topLevel_eq`, `Operates.operation_eq`, `Argument.comes`).
-/

namespace ExprLang

open Parse

/-! ## What a call takes part in -/

namespace Parser

variable {p q r : Parser} {power : Power} {left : Expr} {d : Diagnostic}

/-- A loop over the statements of a block is at every place it comes to. -/
theorem Turns.moreStatements_eq (h : p.Turns blockStops q) (done : Array Stmt) :
    ∃ done', moreStatements .full done p = moreStatements .full done' q := by
  induction h with
  | first => exact ⟨done, rfl⟩
  | @kept q r s _ hq hs ih =>
    obtain ⟨done', hdone⟩ := ih
    obtain ⟨hc, he⟩ := not_mem_blockStops.1 hq
    refine ⟨done'.push s, hdone.trans ?_⟩
    rw [Parse.moreStatements_eq .full done' q, if_neg hc, if_neg he, hs]
  | @dropped q r d _ hq hd hr ih =>
    obtain ⟨done', hdone⟩ := ih
    obtain ⟨hc, he⟩ := not_mem_blockStops.1 hq
    refine ⟨done', hdone.trans ?_⟩
    rw [Parse.moreStatements_eq .full done' q, if_neg hc, if_neg he, hd]
    exact if_neg hr

/-- The loop over a program is at every place it comes to. -/
theorem Turns.topLevel_eq (h : p.Turns programStops q) (done : Array Stmt) :
    ∃ done', topLevel done p = topLevel done' q := by
  induction h with
  | first => exact ⟨done, rfl⟩
  | @kept q r s _ hq hs ih =>
    obtain ⟨done', hdone⟩ := ih
    refine ⟨done'.push s, hdone.trans ?_⟩
    rw [Parser.topLevel_eq done' q, if_neg (not_mem_programStops.1 hq), hs]
  | @dropped q r d _ hq hd _ ih =>
    obtain ⟨done', hdone⟩ := ih
    refine ⟨done', hdone.trans ?_⟩
    rw [Parser.topLevel_eq done' q, if_neg (not_mem_programStops.1 hq), hd]

/-- An operation is at every place it comes to. -/
theorem Operates.operation_eq (h : p.Operates power left q) :
    (operation .full power).run p = operationsFrom .full power left q := by
  induction h with
  | @first q rule e hrule he =>
    rw [operation, run_current_bind, hrule]
    exact run_bind_of_ok he
  | @next q r rule left e _ hlt hrule he ih =>
    rw [ih, operationsFrom_eq, if_pos hlt, hrule]
    dsimp only
    rw [he]

/-- Every argument but the first is behind a comma, which the loop over the arguments comes to. -/
theorem Argument.comes (h : p.Argument q) : p.peek.kind ≠ .closeParen ∧
    (q = p.advance ∨ ∃ e r done s, (Operand.full.parse .default).run p.advance = .ok e r ∧
      moreArguments .full #[e] r = moreArguments .full done s ∧ s.peek.kind = .comma ∧
      q = s.advance.advance) := by
  induction h with
  | first hk => exact ⟨hk, .inl rfl⟩
  | @next q s e _ he hc ih =>
    refine ⟨ih.1, .inr ?_⟩
    rcases ih.2 with rfl | ⟨e₁, r₁, done, r, he₁, hmore, hc₁, rfl⟩
    · exact ⟨e, s, #[e], s, he, rfl, hc, rfl⟩
    · refine ⟨e₁, r₁, done.push e, s, he₁, hmore.trans ?_, hc, rfl⟩
      rw [moreArguments_eq .full done r, if_pos hc₁, he]

/-- A call fails if one of its arguments does. -/
theorem Argument.fails (h : p.Argument q) (hd : (Operand.full.parse .default).run q = .error d r) :
    (arguments .full).run p = .error d r := by
  obtain ⟨hk, rfl | ⟨e, r₁, done, s, he, hmore, hc, rfl⟩⟩ := h.comes
  · rw [arguments, run_peekKind_bind, if_neg hk, run_advance_bind]
    exact run_bind_of_error hd
  · rw [arguments, run_peekKind_bind, if_neg hk, run_advance_bind, run_bind_of_ok he]
    refine run_bind_of_error ?_
    show moreArguments .full #[e] r₁ = .error d r
    rw [hmore, moreArguments_eq, if_pos hc, hd]

end Parser

/-! ## A failure comes up -/

namespace Parse

variable {p q r : Parser} {power : Power} {c c' : Call} {d : Diagnostic}

/-- The call fails with the diagnostic `d` and leaves the parser `q`. -/
def Call.Fails : Call → Parser → Diagnostic → Parser → Prop
  | .statement, p, d, q => (Parse.statement .full).run p = .error d q
  | .expression power, p, d, q => (Operand.full.parse power).run p = .error d q

/-- What a call leaves if what it makes leaves `q` and nothing more is done. -/
def Call.exit : Call → Parser → Parser
  | .statement, q => q
  | .expression _, q => q.leave

@[simp] theorem Call.cursor_exit (c : Call) (q : Parser) : (c.exit q).cursor = q.cursor := by
  cases c <;> rfl

@[simp] theorem Call.diagnostics_exit (c : Call) (q : Parser) :
    (c.exit q).diagnostics = q.diagnostics := by
  cases c <;> rfl

/-! ### Through a block -/

/-- A statement that fails on the end token is not recorded by the loop that it is in. -/
theorem moreStatements_of_eof (hq : q.current.kind ∉ Parser.blockStops)
    (hd : (statement .full).run q = .error d r) (hr : r.current.kind = .eof)
    (done : Array Stmt) : moreStatements .full done q = .error d r := by
  obtain ⟨hc, he⟩ := Parser.not_mem_blockStops.1 hq
  rw [moreStatements_eq, if_neg hc, if_neg he, hd]
  exact if_pos hr

/-- A statement that fails just before the end token is recorded, and the block is missed its
closing brace. -/
theorem moreStatements_unclosed (hq : q.current.kind ∉ Parser.blockStops)
    (hd : (statement .full).run q = .error d r) (hr : r.current.kind ≠ .eof)
    (hpeek : r.peek.kind = .eof) (done : Array Stmt) :
    moreStatements .full done q =
      .error (.unexpected .closeCurly r.peek) (r.record d).advance := by
  obtain ⟨hc, he⟩ := Parser.not_mem_blockStops.1 hq
  have hnext : (r.record d).advance.current.kind = .eof := hpeek
  rw [moreStatements_eq, if_neg hc, if_neg he, hd]
  show (if r.current.kind = .eof then _ else _) = _
  rw [if_neg hr, moreStatements_eq, if_neg (by rw [hnext]; decide), if_pos hnext]
  rfl

/-- A block fails if its loop fails from one of its statements on. -/
theorem BlockCalls.fails (h : BlockCalls p q)
    (hd : ∀ done, moreStatements .full done q = .error d r) :
    (block .full).run p = .error d r := by
  obtain ⟨done, hdone⟩ := h.turns.moreStatements_eq #[]
  rw [block, run_advance_bind]
  exact run_bind_of_error (hdone.trans (hd done))

/-! ### Through a rule -/

theorem PrefixCalls.fails {rule : PrefixRule} (h : PrefixCalls rule p (.expression power) q)
    (hd : (Operand.full.parse power).run q = .error d r) :
    (prefixRule .full rule).run p = .error d r := by
  cases h with
  | operand =>
    show (unary .full).run p = _
    rw [unary, run_advance_bind]
    exact run_bind_of_error hd
  | inside =>
    show (group .full).run p = _
    rw [group, run_advance_bind]
    exact run_bind_of_error hd
  | condition hparen =>
    show (conditional .full).run p = _
    rw [conditional, run_current_bind, run_expect_bind hparen, run_advance_bind]
    exact run_bind_of_error hd

/-- A statement is called in a block, and the rule fails if the block does. -/
theorem PrefixCalls.exists_block {rule : PrefixRule} (h : PrefixCalls rule p .statement q) :
    ∃ b, BlockCalls b q ∧ ∀ d r, (block .full).run b = .error d r →
      (prefixRule .full rule).run p = .error d r := by
  cases h with
  | @consequence _ _ r condition hparen hc hclose hopen hq =>
    refine ⟨_, hq, fun d s hd => ?_⟩
    show (conditional .full).run p = _
    rw [conditional, run_current_bind, run_expect_bind hparen, run_advance_bind, run_bind_of_ok hc,
      run_expect_bind hclose, run_expect_bind hopen]
    exact run_bind_of_error hd
  | @alternative _ _ r s condition consequence hparen hc hclose hopen hb helse hopen' hq =>
    refine ⟨_, hq, fun d t hd => ?_⟩
    show (conditional .full).run p = _
    rw [conditional, run_current_bind, run_expect_bind hparen, run_advance_bind, run_bind_of_ok hc,
      run_expect_bind hclose, run_expect_bind hopen, run_bind_of_ok hb]
    refine run_bind_of_error ?_
    rw [Parse.alternative, run_peekKind_bind, if_pos helse, run_advance_bind,
      run_expect_bind hopen']
    exact run_bind_of_error hd
  | @body _ _ r ids hparen hids hopen hq =>
    refine ⟨_, hq, fun d s hd => ?_⟩
    show (function .full).run p = _
    rw [function, run_current_bind, run_expect_bind hparen, run_bind_of_ok hids,
      run_expect_bind hopen]
    exact run_bind_of_error hd

theorem InfixCalls.fails {power' : Power} {rule : InfixRule}
    (h : InfixCalls power p rule (.expression power') q)
    (hd : (Operand.full.parse power').run q = .error d r) (left : Expr) :
    (infixRule .full left power rule).run p = .error d r := by
  cases h with
  | right =>
    show (binary .full left power).run p = _
    rw [binary, run_advance_bind]
    exact run_bind_of_error hd
  | argument h =>
    show (call .full left).run p = _
    rw [call, run_current_bind]
    exact run_bind_of_error (h.fails hd)

/-- An expression fails where the operation in it does. -/
theorem Call.Fails.of_operation (hlt : p.depth < Parser.depthLimit)
    (h : (operation .full power).run p.enter = .error d r) :
    (Call.expression power).Fails p d r.leave := by
  rw [Call.Fails, Operand.run_full_parse, run_nested hlt, h]

theorem Call.Fails.of_prefixRule {rule : PrefixRule} (hlt : p.depth < Parser.depthLimit)
    (hrule : p.current.kind.prefixRule? = some rule)
    (h : (prefixRule .full rule).run p.enter = .error d r) :
    (Call.expression power).Fails p d r.leave := by
  have hrule : p.enter.current.kind.prefixRule? = some rule := hrule
  refine .of_operation hlt ?_
  rw [operation, run_current_bind, hrule]
  exact run_bind_of_error h

/-! ### Through a call -/

/-- What makes a call of an expression that fails does so as well. -/
theorem Calls.fails_of_expression (h : Calls c p (.expression power) q)
    (hd : (Operand.full.parse power).run q = .error d r) : c.Fails p d (c.exit r) := by
  cases h with
  | binding hk hname hsign =>
    show (stmtRule .full p.current.kind.stmtRule?).run p = _
    rw [TokenKind.stmtRule?_eq_binding_iff.2 hk]
    show (Parse.binding .full).run p = _
    rw [Parse.binding, run_current_bind, run_expect_bind hname, run_expect_bind hsign,
      run_advance_bind]
    exact run_bind_of_error hd
  | result hk =>
    show (stmtRule .full p.current.kind.stmtRule?).run p = _
    rw [TokenKind.stmtRule?_eq_result_iff.2 hk]
    show (Parse.result .full).run p = _
    rw [Parse.result, run_advance_bind]
    exact run_bind_of_error hd
  | expression hk =>
    show (stmtRule .full p.current.kind.stmtRule?).run p = _
    rw [hk]
    show (expressionStatement .full).run p = _
    rw [expressionStatement, run_current_bind]
    exact run_bind_of_error hd
  | starts hlt hrule hc => exact .of_prefixRule hlt hrule (hc.fails hd)
  | @goesOn _ _ s _ rule left _ hlt hs hpower hrule hc =>
    refine .of_operation hlt ?_
    rw [hs.operation_eq, operationsFrom_eq, if_pos hpower, hrule]
    dsimp only
    rw [hc.fails hd left]

/-- A statement is called in a block, and what calls it fails if the block does. -/
theorem Calls.exists_block (h : Calls c p .statement q) : ∃ b, BlockCalls b q ∧
    ∀ d r, (block .full).run b = .error d r → c.Fails p d (c.exit r) := by
  cases h with
  | starts hlt hrule hc =>
    obtain ⟨b, hb, hfails⟩ := hc.exists_block
    exact ⟨b, hb, fun d r hd => .of_prefixRule hlt hrule (hfails d r hd)⟩
  | goesOn _ _ _ _ hc => cases hc

/-- What fails on the end token is not gone on with. -/
theorem Calls.fails (h : Calls c p c' q) (hd : c'.Fails q d r) (hr : r.current.kind = .eof) :
    c.Fails p d (c.exit r) := by
  cases c' with
  | statement =>
    obtain ⟨b, hb, hfails⟩ := h.exists_block
    exact hfails d r (hb.fails (moreStatements_of_eof hb.goes_on hd hr))
  | expression power => exact h.fails_of_expression hd

end Parse

namespace Parser

variable {start p q : Parser} {n : Nat} {c : Call} {d : Diagnostic}

/-- What fails on the end token comes up to the loop over the program.  There it is recorded, and
then the loop ends one token further on. -/
theorem Active.exists_topLevel_eq (h : start.Active n c p) (hs : start.cursor.Settled)
    (hd : c.Fails p d q) (hq : q.current.kind = .eof) (done : Array Stmt) :
    ∃ r, start.Leads r ∧ r.cursor = q.cursor ∧ r.diagnostics = q.diagnostics ∧
      (topLevel done start).2 = (r.record d).advance := by
  induction h generalizing d q with
  | @top p turns hp =>
    obtain ⟨done', hdone⟩ := turns.topLevel_eq done
    have hd : (statement .full).run p = .error d q := hd
    have hl : start.Leads q := turns.leads.trans ((steady_statement .full p).of_eq hd)
    have hnext : (q.record d).advance.current.kind = .eof :=
      (hs.of_reaches hl.reaches).eof_advance hq
    refine ⟨q, hl, rfl, rfl, ?_⟩
    rw [hdone, topLevel_eq, if_neg (not_mem_programStops.1 hp), hd]
    dsimp only
    rw [topLevel_eq, if_pos hnext]
  | call _ hc ih =>
    have hup := ih (hc.fails hd hq) (by rwa [current, Call.cursor_exit])
    rwa [Call.cursor_exit, Call.diagnostics_exit] at hup

/-- It is the last that is recorded. -/
theorem Active.diagnostics_topLevel (h : start.Active n c p) (hs : start.cursor.Settled)
    (hd : c.Fails p d q) (hq : q.current.kind = .eof) (done : Array Stmt) :
    (topLevel done start).2.diagnostics = q.diagnostics.push d := by
  obtain ⟨r, -, -, hdiagnostics, htop⟩ := h.exists_topLevel_eq hs hd hq done
  rw [htop, ← hdiagnostics]
  rfl

/-- A statement that fails just before the end token is the last that is recorded, or it is in
a block, which is recorded as open behind it. -/
theorem Active.unclosed (h : start.Active n .statement p) (hs : start.cursor.Settled)
    (hd : (statement .full).run p = .error d q) (hq : q.current.kind ≠ .eof)
    (hpeek : q.peek.kind = .eof) (done : Array Stmt) :
    (topLevel done start).2.diagnostics = q.diagnostics.push d ∨
      (topLevel done start).2.diagnostics =
        (q.diagnostics.push d).push (.unexpected .closeCurly q.peek) := by
  cases h with
  | top turns hp =>
    obtain ⟨done', hdone⟩ := turns.topLevel_eq done
    have hnext : (q.record d).advance.current.kind = .eof := hpeek
    left
    rw [hdone, topLevel_eq, if_neg (not_mem_programStops.1 hp), hd]
    dsimp only
    rw [topLevel_eq, if_pos hnext]
    rfl
  | @call n c _ p' _ h hc =>
    obtain ⟨b, hb, hfails⟩ := hc.exists_block
    have hup := hfails _ _ (hb.fails (moreStatements_unclosed hb.goes_on hd hq hpeek))
    have hnext : (q.record d).advance.current.kind = .eof := hpeek
    right
    rw [h.diagnostics_topLevel hs hup (by rwa [current, Call.cursor_exit]),
      Call.diagnostics_exit]
    rfl

end Parser

end ExprLang
