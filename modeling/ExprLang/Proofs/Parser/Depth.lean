import ExprLang.Parser.Session
import ExprLang.Proofs.Parser.Calls
import ExprLang.Proofs.Parser.Loops
import ExprLang.Proofs.Tree.Height

/-!
# How deep expressions nest

The limit on the depth of a parser bounds what is given and what is running.

An expression has at most as many levels as the limit leaves at the depth it is parsed at
(`levelsAt`).  Every rule leaves one level less for the expressions inside it, but for the left
operand and the callee, which are there before the rule starts and have their levels already.  So
the loop over the operators of an expression keeps the bound however often it goes round
(`Parse.operationsFrom_levels`).

`p.Running command n c q` says that the call `c` is made on `q` while a command is carried out on
`p`, and that `n` expressions are active around it.  The depth counts them (`Running.depth_eq`),
and so the limit holds for them as well, for every command and from whatever state
(`Running.le_depthLimit`).
-/

namespace ExprLang

open Parse

/-! ## Levels of what a parse gives -/

/-- Do the expressions that are parsed at some depth have at most `n` levels? -/
def LevelsAt (depth n : Nat) : Prop :=
  ∀ {power : Power} {p q : Parser} {e : Expr},
    (Operand.full.parse power).run p = .ok e q → p.depth = depth → e.levels ≤ n

namespace Parse

variable {depth n : Nat} {p q : Parser}

/-- A steady parse that succeeds is at the depth that it began at. -/
theorem Steady.depth_of_ok {α : Type} {x : Parse α} {a : α} (hx : Steady x)
    (h : x.run p = .ok a q) (hp : p.depth = depth) : q.depth = depth :=
  ((hx p).of_eq h).depth_eq.trans hp

/-! ### Statements and blocks -/

theorem statement_levels (h : LevelsAt depth n) {s : Stmt}
    (hs : (statement .full).run p = .ok s q) (hp : p.depth = depth) : s.levels ≤ n := by
  have hs : (stmtRule .full p.current.kind.stmtRule?).run p = .ok s q := hs
  match p.current.kind.stmtRule?, hs with
  | some .binding, hs =>
    obtain ⟨-, -, e, r, he, u, -, rfl⟩ := binding_eq_ok_iff.1 hs
    exact h he hp
  | some .result, hs =>
    obtain ⟨e, r, he, u, -, rfl⟩ := result_eq_ok_iff.1 hs
    exact h he hp
  | none, hs =>
    obtain ⟨e, r, he, u, -, rfl⟩ := expressionStatement_eq_ok_iff.1 hs
    exact h he hp

theorem block_levels (h : LevelsAt depth n) {b : Block} (hb : (block .full).run p = .ok b q)
    (hp : p.depth = depth) : b.levels ≤ n := by
  have hbody : ∀ s ∈ b.body, s.levels ≤ n := by
    intro s hs
    obtain ⟨r, t, hr, hs, -⟩ := block_gives hb hs
    exact statement_levels h hs (hr.depth_eq.trans hp)
  obtain ⟨body, -, rfl⟩ := block_eq_ok_iff.1 hb
  exact Stmt.levelsAll_le_iff.2 hbody

/-! ### How an expression starts -/

theorem alternative_levels (h : LevelsAt depth n) {a : Option Block}
    (ha : (alternative .full).run p = .ok a q) (hp : p.depth = depth) :
    Block.levelsElse a ≤ n := by
  rcases alternative_eq_ok_iff.1 ha with ⟨-, -, b, hb, rfl⟩ | ⟨-, rfl, rfl⟩
  · exact block_levels h hb hp
  · exact Nat.zero_le n

theorem prefixRule_levels (h : LevelsAt depth n) {rule : PrefixRule} {e : Expr}
    (he : (prefixRule .full rule).run p = .ok e q) (hp : p.depth = depth) :
    e.levels ≤ n + 1 := by
  have hleaf : 1 ≤ n + 1 := Nat.succ_le_succ (Nat.zero_le n)
  cases rule with
  | identifier =>
    obtain ⟨rfl, -⟩ := identifier_eq_ok_iff.1 he
    exact hleaf
  | integer =>
    obtain ⟨v, -, rfl, -⟩ := integer_eq_ok_iff.1 he
    exact hleaf
  | boolean =>
    obtain ⟨rfl, -⟩ := boolean_eq_ok_iff.1 he
    exact hleaf
  | unary =>
    obtain ⟨right, hr, rfl⟩ := unary_eq_ok_iff.1 he
    exact Nat.succ_le_succ (h hr hp)
  | group =>
    obtain ⟨r, hr, -, rfl⟩ := group_eq_ok_iff.1 he
    exact Nat.le_succ_of_le (h hr hp)
  | conditional =>
    obtain ⟨-, c, r, hc, -, -, b, s, hb, a, ha, rfl⟩ := conditional_eq_ok_iff.1 he
    have hr : r.depth = depth := (Operand.full.steady .default).depth_of_ok hc hp
    have hs : s.depth = depth := (steady_block .full).depth_of_ok hb hr
    have hblocks := Nat.max_le.2 ⟨block_levels h hb hr, alternative_levels h ha hs⟩
    exact Nat.succ_le_succ (Nat.max_le.2 ⟨h hc hp, hblocks⟩)
  | function =>
    obtain ⟨-, ids, r, hids, -, b, hb, rfl⟩ := function_eq_ok_iff.1 he
    have hr : r.depth = depth := steady_parameters.depth_of_ok hids hp
    exact Nat.succ_le_succ (block_levels h hb hr)

/-! ### How an expression goes on -/

theorem arguments_levels (h : LevelsAt depth n) {es : List Expr}
    (ha : (arguments .full).run p = .ok es q) (hp : p.depth = depth) :
    Expr.levelsAll es ≤ n + 1 := by
  refine Expr.levelsAll_le_iff.2 fun e he => ?_
  obtain ⟨r, s, hr, he, -⟩ := arguments_gives ha he
  exact Nat.lt_succ_of_le (h he (hr.depth_eq.trans hp))

theorem infixRule_levels (h : LevelsAt depth n) {rule : InfixRule} {left e : Expr} {power : Power}
    (he : (infixRule .full left power rule).run p = .ok e q) (hp : p.depth = depth)
    (hleft : left.levels ≤ n + 1) : e.levels ≤ n + 1 := by
  cases rule with
  | binary =>
    obtain ⟨right, hr, rfl⟩ := binary_eq_ok_iff.1 he
    exact Nat.max_le.2 ⟨hleft, Nat.succ_le_succ (h hr hp)⟩
  | call =>
    obtain ⟨es, ha, rfl⟩ := call_eq_ok_iff.1 he
    exact Nat.max_le.2 ⟨hleft, arguments_levels h ha hp⟩

theorem operationsFrom_levels (h : LevelsAt depth n) {power : Power} {left e : Expr}
    (he : operationsFrom .full power left p = .ok e q) (hp : p.depth = depth)
    (hleft : left.levels ≤ n + 1) : e.levels ≤ n + 1 := by
  refine (operationsFrom_invariant (I := fun f r => f.levels ≤ n + 1 ∧ r.depth = depth) ?_
    ⟨hleft, hp⟩ he).1.1
  rintro left f rule r s ⟨hleft, hr⟩ - - hf
  exact ⟨infixRule_levels h hf hr hleft, (steady_infixRule .full left _ rule).depth_of_ok hf hr⟩

theorem operation_levels (h : LevelsAt depth n) {power : Power} {e : Expr}
    (he : (operation .full power).run p = .ok e q) (hp : p.depth = depth) :
    e.levels ≤ n + 1 := by
  obtain ⟨rule, -, left, r, hr, hrest⟩ := operation_eq_ok_iff.1 he
  exact operationsFrom_levels h hrest ((steady_prefixRule .full rule).depth_of_ok hr hp)
    (prefixRule_levels h hr hp)

end Parse

/-- An expression has no more levels than the limit leaves.  The induction is on these. -/
theorem levelsAt (depth : Nat) : LevelsAt depth (Parser.depthLimit - depth) := by
  induction hn : Parser.depthLimit - depth generalizing depth with
  | zero =>
    intro power p q e he hp
    rw [Operand.run_full_parse] at he
    obtain ⟨hlt, -⟩ := nested_eq_ok_iff.1 he
    omega
  | succ n ih =>
    intro power p q e he hp
    rw [Operand.run_full_parse] at he
    obtain ⟨hlt, r, hr, rfl⟩ := nested_eq_ok_iff.1 he
    exact operation_levels (ih (depth + 1) (by omega)) hr (congrArg (· + 1) hp)

/-- The statements of a program have no more levels than the limit leaves. -/
theorem Parser.topLevel_levels {depth : Nat} {done : Array Stmt} {p : Parser}
    (hp : p.depth = depth) (hdone : Stmt.levelsAll done.toList ≤ depthLimit - depth) :
    Stmt.levelsAll (topLevel done p).1.toList ≤ depthLimit - depth := by
  refine Stmt.levelsAll_le_iff.2 fun s hs => ?_
  rcases topLevel_gives hs with hs | ⟨q, r, hq, hs, -⟩
  · exact Stmt.levelsAll_le_iff.1 hdone s hs
  · exact statement_levels (levelsAt depth) hs (hq.depth_eq.trans hp)

/-- So have the statements that a parser gives that starts outside of every expression. -/
theorem Parser.program_levels (p : Parser) : ∀ s ∈ p.program.1.body, s.levels ≤ depthLimit :=
  Stmt.levelsAll_le_iff.1 (Parser.topLevel_levels (p := p.reset) rfl (Nat.zero_le _))

/-! ## Calls that are running -/

/-- The parser that a command starts on.  A program starts outside of every expression. -/
def Session.Command.start (command : Session.Command) (p : Parser) : Parser :=
  match command with
  | .program => p.reset
  | _ => p

namespace Parser

/-- A command that is carried out on `p` makes the call `c` on `q`, not inside of another one. -/
inductive Makes (p : Parser) : (command : Session.Command) → (c : Call) → (q : Parser) → Prop
  | program {q : Parser} : p.reset.Turns programStops q → q.current.kind ∉ programStops →
      Makes p .program .statement q
  | statement : Makes p .statement .statement p
  | binding : p.peek.kind = .identifier → p.advance.peek.kind = .assign →
      Makes p (.stmtRule .binding) (.expression .default) p.advance.advance.advance
  | result : Makes p (.stmtRule .result) (.expression .default) p.advance
  | block {q : Parser} : BlockCalls p q → Makes p .block .statement q
  | expression (power : Power) : Makes p (.expression power) (.expression power) p
  | prefixRule {rule : PrefixRule} {c : Call} {q : Parser} :
      PrefixCalls rule p c q → Makes p (.prefixRule rule) c q
  | infixRule {rule : InfixRule} {power : Power} {c : Call} {q : Parser} :
      InfixCalls power p rule c q → Makes p (.infixRule rule power) c q

/-- While a command is carried out on `p`, the call `c` is made on `q`, inside of `n`
expressions. -/
inductive Running (p : Parser) (command : Session.Command) : (n : Nat) → (c : Call) →
    (q : Parser) → Prop
  | outermost {c : Call} {q : Parser} : p.Makes command c q → Running p command 0 c q
  | inside {n : Nat} {c c' : Call} {q r : Parser} : Running p command n c q → Calls c q c' r →
      Running p command (n + c.levels) c' r

variable {p q : Parser} {command : Session.Command} {c : Call} {n : Nat}

theorem Makes.leads (h : p.Makes command c q) : (command.start p).Leads q := by
  cases h with
  | program h _ => exact h.leads
  | statement => exact .refl p
  | binding _ _ =>
    exact (leads_advance p).trans ((leads_advance _).trans (leads_advance _))
  | result => exact leads_advance p
  | block h => exact h.leads
  | expression _ => exact .refl p
  | prefixRule h => exact h.leads
  | infixRule h => exact h.leads

/-- The depth counts the expressions that are active. -/
theorem Running.depth_eq (h : p.Running command n c q) :
    q.depth = (command.start p).depth + n := by
  induction h with
  | outermost h => exact h.leads.depth_eq
  | inside _ hc ih => rw [hc.depth_eq, ih, Nat.add_assoc]

/-- Where an expression is active the depth is within the limit. -/
theorem Running.depth_le (h : p.Running command n c q) : n = 0 ∨ q.depth ≤ depthLimit := by
  induction h with
  | outermost _ => exact .inl rfl
  | @inside n c c' q r _ hc ih =>
    cases c with
    | statement => exact ih.imp_right hc.depth_le
    | expression power => exact .inr (hc.depth_le (Nat.le_of_lt hc.depth_lt))

/-- No more expressions are active than the limit allows, whatever the parser. -/
theorem Running.le_depthLimit (h : p.Running command n c q) : n ≤ depthLimit := by
  have hdepth := h.depth_eq
  rcases h.depth_le with rfl | hle
  · exact Nat.zero_le _
  · omega

/-- An expression that would be one more is refused before anything else is done. -/
theorem Running.lt_or_refused {power : Power} (h : p.Running command n (.expression power) q) :
    n < depthLimit ∨
      (expression power).run q = .error ⟨.nestingTooDeep depthLimit, q.position⟩ q := by
  have hdepth := h.depth_eq
  rcases Nat.lt_or_ge q.depth depthLimit with hlt | hge
  · exact .inl (by omega)
  · refine .inr ((Operand.run_full_parse power q).trans ?_)
    rw [run_nested_of_le hge]

end Parser

/-! ## The limit -/

/-- An expression that is parsed has no more levels than the limit leaves at the depth it is parsed
at, and so no statement of a source has more than the limit allows, whether or not the source has
errors.  While any command is carried out from any state no more expressions are active than the
limit allows, and one that would be one more is refused before it does anything. -/
theorem levels_le_depthLimit :
    (∀ {power : Power} {p q : Parser} {e : Expr}, (expression power).run p = .ok e q →
      e.levels ≤ Parser.depthLimit - p.depth) ∧
    (∀ source file?, ∀ s ∈ (parse source file?).1.body, s.levels ≤ Parser.depthLimit) ∧
    ∀ {p q : Parser} {command : Session.Command} {n : Nat} {c : Call}, p.Running command n c q →
      n ≤ Parser.depthLimit ∧ ∀ power, c = .expression power → n < Parser.depthLimit ∨
        (expression power).run q = .error ⟨.nestingTooDeep Parser.depthLimit, q.position⟩ q := by
  refine ⟨fun h => levelsAt _ h rfl, fun source file? => Parser.program_levels _,
    fun h => ⟨h.le_depthLimit, ?_⟩⟩
  rintro power rfl
  exact h.lt_or_refused

/-- Where two levels are left an operator may have an operand, which is parsed inside of one
expression. -/
theorem levels_le_depthLimit_unary :
    ∃ p q r : Parser, ∃ e : Expr, p.depth = 62 ∧ (expression .default).run p = .ok e q ∧
      e.levels = 2 ∧ e.levels ≤ Parser.depthLimit - p.depth ∧
      p.Running (.expression .default) 1 (.expression .unary) r ∧ 1 ≤ Parser.depthLimit := by
  let p : Parser := { Parser.ofScanner (.ofSource "-x" none) with depth := 62 }
  have hlevels :
      (Session.runExpr ⟨p, none⟩ (expression .default)).2.operand?.map (·.levels) = some 2 := by
    decide +kernel
  have hinside : p.Running (.expression .default) 1 (.expression .unary) p.enter.advance :=
    .inside (.outermost (.expression .default)) (.starts (by decide) (by decide) .operand)
  unfold Session.runExpr at hlevels
  dsimp only at hlevels
  cases hrun : (expression .default).run p with
  | error d q =>
    rw [hrun] at hlevels
    cases hlevels
  | ok e q =>
    rw [hrun] at hlevels
    exact ⟨p, q, _, e, rfl, hrun, Option.some.inj hlevels, levels_le_depthLimit.1 hrun, hinside,
      (levels_le_depthLimit.2.2 hinside).1⟩

end ExprLang
