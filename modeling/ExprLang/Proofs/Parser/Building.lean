import ExprLang.Proofs.Parser.Built
import ExprLang.Proofs.Parser.Recovery

/-!
# Every program is built

Whatever a parse gives is built, from its first token to its last, and so every program is, from
its first statement to the end of the source (`parse_built`).  So what every tree that is built
has, every program has, whether or not its source has errors.
-/

namespace ExprLang

open Parse

/-! ## What a parse gives is built -/

/-- Are the expressions that are parsed at some depth built? -/
def BuildsAt (c₀ : Cursor) (depth : Nat) : Prop :=
  ∀ {power : Power} {p q : Parser} {e : Expr}, p.Behind c₀ depth →
    (Operand.full.parse power).run p = .ok e q → e.Built p.cursor q.cursor

namespace Parse

variable {c₀ : Cursor} {depth : Nat} {p q : Parser}

theorem skipSemicolon_closes {u : Unit} (h : skipSemicolon.run p = .ok u q) :
    p.cursor.Closes q.cursor := by
  rw [run_skipSemicolon, EStateM.Result.ok.injEq] at h
  obtain ⟨-, rfl⟩ := h
  split
  · next hk => exact .semicolon hk
  · exact .bare

/-! ### Statements and blocks -/

theorem statement_built (h : BuildsAt c₀ depth) (hp : p.Behind c₀ depth) {s : Stmt}
    (hs : (statement .full).run p = .ok s q) : s.Built p.cursor q.cursor := by
  have hs : (stmtRule .full p.current.kind.stmtRule?).run p = .ok s q := hs
  match p.current.kind.stmtRule?, hs with
  | some .binding, hs =>
    obtain ⟨hname, -, e, r, he, u, hu, rfl⟩ := binding_eq_ok_iff.1 hs
    exact .binding hname (h hp.advance.advance.advance he) (skipSemicolon_closes hu)
  | some .result, hs =>
    obtain ⟨e, r, he, u, hu, rfl⟩ := result_eq_ok_iff.1 hs
    exact .result (h hp.advance he) (skipSemicolon_closes hu)
  | none, hs =>
    obtain ⟨e, r, he, u, hu, rfl⟩ := expressionStatement_eq_ok_iff.1 hs
    exact .expression (h hp he) (skipSemicolon_closes hu)

/-- The statements behind those in `done` are built up to the closing brace. -/
theorem moreStatements_built (h : BuildsAt c₀ depth) {done body : Array Stmt}
    (hp : p.Behind c₀ depth) (hb : moreStatements .full done p = .ok body q) :
    q.current.kind = .closeCurly ∧ ∃ ss, body.toList = done.toList ++ ss ∧
      Stmt.ListBuilt ss p.cursor q.cursor := by
  fun_induction moreStatements .full done p with
  | case1 done p hc =>
    cases hb
    exact ⟨hc, [], (List.append_nil _).symm, .nil⟩
  | case2 done p hc he => cases hb
  | case3 done p hc he s r hs ih =>
    obtain ⟨hk, ss, hbody, hss⟩ := ih (hp.of_steady (steady_statement .full) hs).advance hb
    refine ⟨hk, s :: ss, ?_, .kept hs (statement_built h hp hs) hss⟩
    rw [hbody, Array.toList_push, List.append_assoc]
    rfl
  | case4 done p hc he d r hs hr => cases hb
  | case5 done p hc he d r hs hr ih =>
    have hl : p.Leads r := (steady_statement .full p).of_eq hs
    obtain ⟨hk, ss, hbody, hss⟩ :=
      ih (hp.of_leads ((hl.trans (r.leads_record d)).trans (Parser.leads_advance _))) hb
    exact ⟨hk, ss, hbody, .dropped hl.reaches hss⟩

theorem block_built (h : BuildsAt c₀ depth) (hp : p.Behind c₀ depth) {b : Block}
    (hb : (block .full).run p = .ok b q) : b.Built p.cursor q.cursor := by
  obtain ⟨body, hm, rfl⟩ := block_eq_ok_iff.1 hb
  obtain ⟨hk, ss, hbody, hss⟩ := moreStatements_built h hp.advance hm
  rw [hbody]
  exact .mk hss hk

/-! ### How an expression starts -/

theorem alternative_built (h : BuildsAt c₀ depth) (hp : p.Behind c₀ depth) {a : Option Block}
    (ha : (alternative .full).run p = .ok a q) : Block.ElseBuilt a p.cursor q.cursor := by
  rcases alternative_eq_ok_iff.1 ha with ⟨-, -, b, hb, rfl⟩ | ⟨-, rfl, rfl⟩
  · exact .some (block_built h hp.advance.advance hb)
  · exact .none

theorem moreParameters_built {done found : Array Identifier}
    (hm : moreParameters done p = .ok found q) :
    ∃ ids, found.toList = done.toList ++ ids ∧ Identifier.SomeBuilt ids p.cursor q.cursor := by
  fun_induction moreParameters done p with
  | case1 done p d r he => cases hm
  | case2 done p t r he hc ih =>
    obtain ⟨hk, rfl, rfl⟩ := expect_eq_ok he
    obtain ⟨ids, hfound, hids⟩ := ih hm
    refine ⟨.ofToken p.peek :: ids, ?_, .more hk hids⟩
    rw [hfound, Array.toList_push, List.append_assoc]
    rfl
  | case3 done p t r he hc =>
    obtain ⟨hk, rfl, rfl⟩ := expect_eq_ok he
    cases hm
    exact ⟨_, Array.toList_push, .last hk⟩

theorem parameters_built {ids : List Identifier} (h : parameters.run p = .ok ids q) :
    Identifier.ListBuilt ids p.cursor q.cursor := by
  rcases parameters_eq_ok_iff.1 h with ⟨hk, rfl, rfl⟩ | ⟨-, found, r, hm, hk, rfl, rfl⟩
  · exact .none hk
  · obtain ⟨ids, hfound, hids⟩ := moreParameters_built hm
    have hfound : found.toList = ids := hfound
    rw [hfound]
    exact .some hids hk

theorem prefixRule_built (h : BuildsAt c₀ depth) (hp : p.Behind c₀ depth) {rule : PrefixRule}
    {e : Expr} (hrule : p.current.kind.prefixRule? = some rule)
    (he : (prefixRule .full rule).run p = .ok e q) : e.Built p.cursor q.cursor := by
  have hk := TokenKind.prefixRule?_eq_some_iff.1 hrule
  cases rule with
  | identifier =>
    obtain ⟨rfl, rfl⟩ := identifier_eq_ok_iff.1 he
    exact .identifier (List.mem_singleton.1 hk)
  | integer =>
    obtain ⟨v, -, rfl, rfl⟩ := integer_eq_ok_iff.1 he
    exact .integer (List.mem_singleton.1 hk)
  | boolean =>
    obtain ⟨rfl, rfl⟩ := boolean_eq_ok_iff.1 he
    exact .boolean (by simpa [TokenKind.ofPrefixRule, Parser.current] using hk)
  | unary =>
    obtain ⟨right, hr, rfl⟩ := unary_eq_ok_iff.1 he
    exact .unary (h hp.advance hr)
  | group =>
    obtain ⟨r, hr, hc, rfl⟩ := group_eq_ok_iff.1 he
    exact .group (h hp.advance hr) hc
  | conditional =>
    obtain ⟨-, c, r, hc, -, -, b, s, hb, a, ha, rfl⟩ := conditional_eq_ok_iff.1 he
    have hr := hp.advance.advance.of_steady (Operand.full.steady _) hc
    have hs := hr.advance.advance.of_steady (steady_block .full) hb
    exact .conditional (h hp.advance.advance hc) (block_built h hr.advance.advance hb)
      (alternative_built h hs ha)
  | function =>
    obtain ⟨-, ids, r, hids, -, b, hb, rfl⟩ := function_eq_ok_iff.1 he
    have hr := hp.advance.of_steady steady_parameters hids
    exact .function (parameters_built hids) (block_built h hr.advance hb)

/-! ### How an expression goes on -/

theorem moreArguments_built (h : BuildsAt c₀ depth) (hp : p.Behind c₀ depth)
    {done found : Array Expr} (hm : moreArguments .full done p = .ok found q) :
    ∃ es, found.toList = done.toList ++ es ∧ Expr.MoreBuilt es p.cursor q.cursor := by
  fun_induction moreArguments .full done p with
  | case1 done p hc e r he ih =>
    obtain ⟨es, hfound, hes⟩ := ih (hp.advance.advance.of_steady (Operand.full.steady _) he) hm
    refine ⟨e :: es, ?_, .cons (h hp.advance.advance he) hes⟩
    rw [hfound, Array.toList_push, List.append_assoc]
    rfl
  | case2 done p hc d r he => cases hm
  | case3 done p hc =>
    cases hm
    exact ⟨[], (List.append_nil _).symm, .nil⟩

theorem arguments_built (h : BuildsAt c₀ depth) (hp : p.Behind c₀ depth) {es : List Expr}
    (ha : (arguments .full).run p = .ok es q) : Expr.ListBuilt es p.cursor q.cursor := by
  rcases arguments_eq_ok_iff.1 ha with ⟨hk, rfl, rfl⟩ | ⟨-, e, r, he, found, s, hm, hk, rfl, rfl⟩
  · exact .nil hk
  · obtain ⟨es, hfound, hes⟩ :=
      moreArguments_built h (hp.advance.of_steady (Operand.full.steady _) he) hm
    have hfound : found.toList = e :: es := hfound
    rw [hfound]
    exact .cons (h hp.advance he) hes hk

theorem infixRule_built (h : BuildsAt c₀ depth) (hp : p.Behind c₀ depth) {rule : InfixRule}
    {left e : Expr} {power : Power} {c : Cursor} (hleft : left.Built c p.cursor)
    (he : (infixRule .full left power rule).run p.advance = .ok e q) : e.Built c q.cursor := by
  cases rule with
  | binary =>
    obtain ⟨right, hr, rfl⟩ := binary_eq_ok_iff.1 he
    exact .binary hleft (h hp.advance.advance hr)
  | call =>
    obtain ⟨es, ha, rfl⟩ := call_eq_ok_iff.1 he
    exact .call hleft (arguments_built h hp.advance ha)

theorem operationsFrom_built (h : BuildsAt c₀ depth) (hp : p.Behind c₀ depth) {power : Power}
    {left e : Expr} {c : Cursor} (hleft : left.Built c p.cursor)
    (he : operationsFrom .full power left p = .ok e q) : e.Built c q.cursor := by
  refine (operationsFrom_invariant (I := fun f r => f.Built c r.cursor ∧ r.Behind c₀ depth) ?_
    ⟨hleft, hp⟩ he).1.1
  rintro left f rule r s ⟨hleft, hr⟩ - - hf
  exact ⟨infixRule_built h hr hleft hf,
    hr.advance.of_steady (steady_infixRule .full left _ rule) hf⟩

theorem operation_built (h : BuildsAt c₀ depth) (hp : p.Behind c₀ depth) {power : Power}
    {e : Expr} (he : (operation .full power).run p = .ok e q) : e.Built p.cursor q.cursor := by
  obtain ⟨rule, hrule, left, r, hr, hrest⟩ := operation_eq_ok_iff.1 he
  exact operationsFrom_built h (hp.of_steady (steady_prefixRule .full rule) hr)
    (prefixRule_built h hp hrule hr) hrest

end Parse

/-- Every expression is built.  The induction is on the number of levels that are left. -/
theorem buildsAt (c₀ : Cursor) (depth : Nat) : BuildsAt c₀ depth := by
  induction hn : Parser.depthLimit - depth generalizing depth with
  | zero =>
    intro power p q e hp he
    rw [Operand.run_full_parse] at he
    obtain ⟨hlt, -⟩ := nested_eq_ok_iff.1 he
    have := hp.depth_eq
    omega
  | succ n ih =>
    intro power p q e hp he
    rw [Operand.run_full_parse] at he
    obtain ⟨hlt, r, hr, rfl⟩ := nested_eq_ok_iff.1 he
    have hbuilt : e.Built p.cursor r.cursor :=
      operation_built (ih (depth + 1) (by omega)) hp.enter hr
    exact hbuilt

/-- The statements behind those in `done` are built up to the end token. -/
theorem Parser.topLevel_built (done : Array Stmt) (p : Parser) :
    ∃ ss, (topLevel done p).1.toList = done.toList ++ ss ∧
      Stmt.ListBuilt ss p.cursor (topLevel done p).2.cursor := by
  fun_induction topLevel done p with
  | case1 done p hc => exact ⟨[], (List.append_nil _).symm, .nil⟩
  | case2 done p hc s r hs ih =>
    obtain ⟨ss, hbody, hss⟩ := ih
    have hbuilt := statement_built (buildsAt p.cursor p.depth) ⟨.refl _, rfl⟩ hs
    refine ⟨s :: ss, ?_, .kept hs hbuilt hss⟩
    rw [hbody, Array.toList_push, List.append_assoc]
    rfl
  | case3 done p hc d r hs ih =>
    obtain ⟨ss, hbody, hss⟩ := ih
    exact ⟨ss, hbody, .dropped ((steady_statement .full p).of_eq hs).reaches hss⟩

/-- The statements of a program are built from the first token to the end token. -/
theorem parse_built (source : String) (file? : Option String) :
    Stmt.ListBuilt (parse source file?).1.body (.ofScanner (.ofSource source file?))
      (parse source file?).2.cursor := by
  obtain ⟨ss, hbody, hss⟩ :=
    Parser.topLevel_built #[] (Parser.ofScanner (.ofSource source file?)).reset
  have hbody : (parse source file?).1.body = ss := hbody
  rw [hbody]
  exact hss

/-- Every node of a program is built. -/
theorem parse_each_built (source : String) (file? : Option String) :
    (parse source file?).1.Each (Node.Built (.ofScanner (.ofSource source file?))) :=
  (parse_built source file?).each (.refl _)

end ExprLang
