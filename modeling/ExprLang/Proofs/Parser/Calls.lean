import ExprLang.Parser.Levels
import ExprLang.Parser.Program
import ExprLang.Proofs.Parser.Success

/-!
# Calls

While a program is parsed, statements and expressions are parsed inside of each other.  A
`Call` is one such parse, and `Calls c p c' q` says that the call `c` on the parser `p`
makes the call `c'` on `q`.  There is one constructor for each place of a rule where that
happens, and before it everything that the rule does up to there.

`Active start n c p` says that the loop over a program, started on `start`, has come to the
call `c` on `p`, and that `n` of the calls that are still running are expressions.  The
depth of a parser counts just these (`Active.depth_eq`), and there are never more than the
limit allows (`Active.depth_le`).

A statement makes its calls at the depth it is called at, and an expression makes its own
one deeper.  So whatever follows from the calls that a call makes holds of every call
(`Call.induction`).
-/

namespace ExprLang

open Parse

/-! ## Places that a loop comes to -/

namespace Parser

/-- The kinds that the loop over the statements of a block stops at. -/
def blockStops : List TokenKind := [.closeCurly, .eof]

/-- The kind that the loop over the statements of a program stops at. -/
def programStops : List TokenKind := [.eof]

theorem not_mem_blockStops {k : TokenKind} : k ∉ blockStops ↔ k ≠ .closeCurly ∧ k ≠ .eof := by
  simp [blockStops]

theorem not_mem_programStops {k : TokenKind} : k ∉ programStops ↔ k ≠ .eof := by
  simp [programStops]

/-- A loop over statements that starts on `p` comes to `q`, and decides there whether to go
on. -/
inductive Turns (stops : List TokenKind) (p : Parser) : Parser → Prop
  | first : Turns stops p p
  /-- A statement was kept. -/
  | kept {q r : Parser} {s : Stmt} : Turns stops p q → q.current.kind ∉ stops →
      (statement .full).run q = .ok s r → Turns stops p r.advance
  /-- A statement failed, which was recorded. -/
  | dropped {q r : Parser} {d : Diagnostic} : Turns stops p q → q.current.kind ∉ stops →
      (statement .full).run q = .error d r → r.current.kind ≠ .eof →
      Turns stops p (r.record d).advance

/-- An operation that starts on `p` has the operand `left`, and stands on its last token
`q`. -/
inductive Operates (power : Power) (p : Parser) : (left : Expr) → Parser → Prop
  | first {q : Parser} {rule : PrefixRule} {e : Expr} :
      p.current.kind.prefixRule? = some rule → (prefixRule .full rule).run p = .ok e q →
      Operates power p e q
  | next {q r : Parser} {rule : InfixRule} {left e : Expr} : Operates power p left q →
      power < q.peek.kind.power → q.peek.kind.infixRule? = some rule →
      (infixRule .full left q.peek.kind.power rule).run q.advance = .ok e r →
      Operates power p e r

/-- The arguments of a call whose parenthesis `p` stands on have one that starts on `q`. -/
inductive Argument (p : Parser) : Parser → Prop
  | first : p.peek.kind ≠ .closeParen → Argument p p.advance
  | next {q r : Parser} {e : Expr} : Argument p q →
      (Operand.full.parse .default).run q = .ok e r → r.peek.kind = .comma →
      Argument p r.advance.advance

variable {stops : List TokenKind} {power : Power} {p q : Parser} {left : Expr}

theorem Turns.leads (h : p.Turns stops q) : p.Leads q := by
  induction h with
  | first => exact .refl p
  | @kept q r s _ _ hs ih =>
    exact ih.trans (((steady_statement .full q).of_eq hs).trans (leads_advance r))
  | @dropped q r d _ _ hs _ ih =>
    exact ih.trans (((steady_statement .full q).of_eq hs).trans
      ((leads_record r d).trans (leads_advance _)))

theorem Operates.leads (h : p.Operates power left q) : p.Leads q := by
  induction h with
  | first _ h => exact (steady_prefixRule .full _ p).of_eq h
  | @next q r rule left e _ _ _ h ih =>
    exact ih.trans ((leads_advance q).trans ((steady_infixRule .full left _ rule _).of_eq h))

/-- An operation starts with a token that a prefix rule is for. -/
theorem Operates.exists_prefixRule (h : p.Operates power left q) :
    ∃ rule, p.current.kind.prefixRule? = some rule := by
  induction h with
  | first hrule _ => exact ⟨_, hrule⟩
  | next _ _ _ _ ih => exact ih

theorem Argument.leads (h : p.Argument q) : p.Leads q := by
  induction h with
  | first => exact leads_advance p
  | @next q r e _ h _ ih =>
    exact ih.trans (((Operand.full.steady .default q).of_eq h).trans
      ((leads_advance r).trans (leads_advance _)))

end Parser

/-! ## Calls -/

namespace Parse

/-- A parse that others are made inside of. -/
inductive Call where
  | statement
  | expression (power : Power)

/-- How many expressions a call is. -/
def Call.levels : Call → Nat
  | statement => 0
  | expression _ => 1

/-- The block whose brace `p` stands on parses a statement on `q`. -/
structure BlockCalls (p q : Parser) : Prop where
  /-- Its loop comes to `q`. -/
  turns : p.advance.Turns Parser.blockStops q
  /-- The loop goes on there. -/
  goes_on : q.current.kind ∉ Parser.blockStops

/-- A prefix rule that starts on `p` makes the call `c` on `q`. -/
inductive PrefixCalls : (rule : PrefixRule) → (p : Parser) → (c : Call) → (q : Parser) → Prop
  | operand {p : Parser} : PrefixCalls .unary p (.expression .unary) p.advance
  | inside {p : Parser} : PrefixCalls .group p (.expression .default) p.advance
  | condition {p : Parser} : p.peek.kind = .openParen →
      PrefixCalls .conditional p (.expression .default) p.advance.advance
  | consequence {p q r : Parser} {condition : Expr} : p.peek.kind = .openParen →
      (Operand.full.parse .default).run p.advance.advance = .ok condition r →
      r.peek.kind = .closeParen → r.advance.peek.kind = .openCurly →
      BlockCalls r.advance.advance q → PrefixCalls .conditional p .statement q
  | alternative {p q r s : Parser} {condition : Expr} {consequence : Block} :
      p.peek.kind = .openParen →
      (Operand.full.parse .default).run p.advance.advance = .ok condition r →
      r.peek.kind = .closeParen → r.advance.peek.kind = .openCurly →
      (block .full).run r.advance.advance = .ok consequence s →
      s.peek.kind = .kwElse → s.advance.peek.kind = .openCurly →
      BlockCalls s.advance.advance q → PrefixCalls .conditional p .statement q
  | body {p q r : Parser} {ids : List Identifier} : p.peek.kind = .openParen →
      parameters.run p.advance = .ok ids r → r.peek.kind = .openCurly →
      BlockCalls r.advance q → PrefixCalls .function p .statement q

/-- An infix rule of the given power that starts on `p` makes the call `c` on `q`. -/
inductive InfixCalls (power : Power) (p : Parser) :
    (rule : InfixRule) → (c : Call) → (q : Parser) → Prop
  | right : InfixCalls power p .binary (.expression power) p.advance
  | argument {q : Parser} : p.Argument q → InfixCalls power p .call (.expression .default) q

/-- The call `c` on `p` makes the call `c'` on `q`. -/
inductive Calls : (c : Call) → (p : Parser) → (c' : Call) → (q : Parser) → Prop
  /-- The value of a binding. -/
  | binding {p : Parser} : p.current.kind = .kwLet → p.peek.kind = .identifier →
      p.advance.peek.kind = .assign →
      Calls .statement p (.expression .default) p.advance.advance.advance
  /-- The value of a result. -/
  | result {p : Parser} : p.current.kind = .kwReturn →
      Calls .statement p (.expression .default) p.advance
  /-- An expression by itself. -/
  | expression {p : Parser} : p.current.kind.stmtRule? = none →
      Calls .statement p (.expression .default) p
  /-- Where an expression starts. -/
  | starts {p q : Parser} {power : Power} {rule : PrefixRule} {c : Call} :
      p.depth < Parser.depthLimit → p.current.kind.prefixRule? = some rule →
      PrefixCalls rule p.enter c q → Calls (.expression power) p c q
  /-- Where an expression goes on. -/
  | goesOn {p q r : Parser} {power : Power} {rule : InfixRule} {left : Expr} {c : Call} :
      p.depth < Parser.depthLimit → p.enter.Operates power left r →
      power < r.peek.kind.power → r.peek.kind.infixRule? = some rule →
      InfixCalls r.peek.kind.power r.advance rule c q → Calls (.expression power) p c q

variable {p q : Parser} {c c' : Call}

theorem BlockCalls.leads (h : BlockCalls p q) : p.Leads q :=
  (Parser.leads_advance p).trans h.turns.leads

/-- A prefix rule goes over its first token before it makes a call. -/
theorem PrefixCalls.leads_behind {rule : PrefixRule} (h : PrefixCalls rule p c q) :
    p.advance.Leads q := by
  have twice (r : Parser) : r.Leads r.advance.advance :=
    (Parser.leads_advance r).trans (Parser.leads_advance _)
  cases h with
  | operand => exact .refl _
  | inside => exact .refl _
  | condition => exact Parser.leads_advance _
  | @consequence _ _ r condition _ hc _ _ hb =>
    have hr := (Operand.full.steady .default p.advance.advance).of_eq hc
    exact (Parser.leads_advance _).trans (hr.trans ((twice r).trans hb.leads))
  | @alternative _ _ r s condition consequence _ hc _ _ hs _ _ hb =>
    have hr := (Operand.full.steady .default p.advance.advance).of_eq hc
    have hs := (steady_block .full r.advance.advance).of_eq hs
    exact (Parser.leads_advance _).trans
      (hr.trans ((twice r).trans (hs.trans ((twice s).trans hb.leads))))
  | @body _ _ r ids _ hids _ hb =>
    have hr := (steady_parameters p.advance).of_eq hids
    exact hr.trans ((Parser.leads_advance r).trans hb.leads)

theorem PrefixCalls.leads {rule : PrefixRule} (h : PrefixCalls rule p c q) : p.Leads q :=
  (Parser.leads_advance p).trans h.leads_behind

theorem InfixCalls.leads {power : Power} {rule : InfixRule} (h : InfixCalls power p rule c q) :
    p.Leads q := by
  cases h with
  | right => exact Parser.leads_advance p
  | argument h => exact h.leads

/-- A call is made one deeper inside an expression, and as deep as itself inside a
statement. -/
theorem Calls.depth_eq (h : Calls c p c' q) : q.depth = p.depth + c.levels := by
  cases h with
  | binding => rfl
  | result => rfl
  | expression => rfl
  | starts _ _ h => exact h.leads.depth_eq
  | @goesOn _ _ r _ _ _ _ _ hr _ _ h =>
    exact (hr.leads.trans ((Parser.leads_advance r).trans h.leads)).depth_eq

/-- Only below the limit does an expression make a call. -/
theorem Calls.depth_lt {power : Power} (h : Calls (.expression power) p c' q) :
    p.depth < Parser.depthLimit := by
  cases h with
  | starts hlt => exact hlt
  | goesOn hlt => exact hlt

/-- So a call is never made beyond it. -/
theorem Calls.depth_le (h : Calls c p c' q) (hp : p.depth ≤ Parser.depthLimit) :
    q.depth ≤ Parser.depthLimit := by
  rw [h.depth_eq]
  cases c with
  | statement => exact hp
  | expression power => exact h.depth_lt

/-! ## Calls end -/

/-- How many more calls can be made inside of each other. -/
def Call.rank (c : Call) (p : Parser) : Nat := 2 * (Parser.depthLimit - p.depth) + (1 - c.levels)

theorem Calls.rank_lt (h : Calls c p c' q) : c'.rank q < c.rank p := by
  have hdepth := h.depth_eq
  cases h with
  | binding => simp [Call.rank, Call.levels, Parser.advance]
  | result => simp [Call.rank, Call.levels, Parser.advance]
  | expression => simp [Call.rank, Call.levels]
  | starts hlt => simp only [Call.rank, Call.levels] at hdepth ⊢; omega
  | goesOn hlt => simp only [Call.rank, Call.levels] at hdepth ⊢; omega

/-- What holds of a call if it holds of the calls that it makes holds of every call. -/
theorem Call.induction {motive : Call → Parser → Prop}
    (step : ∀ c p, (∀ c' q, Calls c p c' q → motive c' q) → motive c p) (c : Call) (p : Parser) :
    motive c p := by
  induction hn : c.rank p using Nat.strongRecOn generalizing c p with
  | ind n ih =>
    subst hn
    exact step c p fun c' q h => ih _ h.rank_lt c' q rfl

end Parse

/-! ## Active calls -/

namespace Parser

/-- The loop over a program that starts on `start` comes to the call `c` on `p`, inside of `n`
expressions. -/
inductive Active (start : Parser) : (n : Nat) → (c : Call) → (p : Parser) → Prop
  /-- A statement of the program. -/
  | top {p : Parser} : start.Turns programStops p → p.current.kind ∉ programStops →
      Active start 0 .statement p
  | call {n : Nat} {c c' : Call} {p q : Parser} : Active start n c p → Calls c p c' q →
      Active start (n + c.levels) c' q

variable {start p : Parser} {n : Nat} {c : Call}

/-- The depth counts the expressions that are active. -/
theorem Active.depth_eq (h : start.Active n c p) : p.depth = start.depth + n := by
  induction h with
  | top h _ => exact h.leads.depth_eq
  | call _ hc ih => rw [hc.depth_eq, ih, Nat.add_assoc]

/-- No more expressions are active than the limit allows. -/
theorem Active.depth_le (h : start.Active n c p) (hstart : start.depth ≤ depthLimit) :
    p.depth ≤ depthLimit := by
  induction h with
  | top h _ => exact h.leads.depth_eq ▸ hstart
  | call _ hc ih => exact hc.depth_le ih

end Parser

end ExprLang
