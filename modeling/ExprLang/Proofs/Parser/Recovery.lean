import ExprLang.Parser.Levels
import ExprLang.Proofs.Parser.Loops
import ExprLang.Proofs.Parser.Rounds
import ExprLang.Proofs.Tree.Each

/-!
# Recovery behind errors

Whatever a source holds, the rounds that parse it split its tokens into segments, one
behind the other, and none is left out (`parse_partition`).  A segment either is a
statement of the program or is blamed by a diagnostic.  The same holds of the tokens between
the braces of any block in the program.

A block in a tree was given by the rule for blocks, at a place that the parse went through
(`Node.GivenByBlock`).  That is followed down the tree with the full operand at the depth of
each place, and what the rule has recorded is among what the parse has recorded at the end.
-/

namespace ExprLang

open Parse

/-! ## The blocks in a tree -/

/-- If the node is a block, did the rule for blocks give it behind the cursor `c₀`, with what
it recorded among the diagnostics `D`? -/
def Node.GivenByBlock (c₀ : Cursor) (D : List Diagnostic) : Node → Prop
  | .block b => ∃ p q, c₀.Reaches p.cursor ∧ p.current.kind = .openCurly ∧
      (Parse.block .full).run p = .ok b q ∧ q.diagnostics.toList <+: D
  | _ => True

/-- Is the parser behind the cursor `c₀`, inside of `depth` expressions? -/
structure Parser.Behind (c₀ : Cursor) (depth : Nat) (p : Parser) : Prop where
  /-- The cursor leads to that of the parser. -/
  reaches : c₀.Reaches p.cursor
  /-- The parser is that deep. -/
  depth_eq : p.depth = depth

variable {c₀ : Cursor} {D : List Diagnostic} {depth : Nat} {p q : Parser}

namespace Parser.Behind

theorem of_leads (h : p.Behind c₀ depth) (k : p.Leads q) : q.Behind c₀ depth :=
  ⟨h.reaches.trans k.reaches, k.depth_eq.trans h.depth_eq⟩

theorem advance (h : p.Behind c₀ depth) : p.advance.Behind c₀ depth :=
  h.of_leads p.leads_advance

theorem of_steady {α : Type} {x : Parse α} {a : α} (h : p.Behind c₀ depth) (hx : Steady x)
    (hr : x.run p = .ok a q) : q.Behind c₀ depth :=
  h.of_leads ((hx p).of_eq hr)

theorem enter (h : p.Behind c₀ depth) : p.enter.Behind c₀ (depth + 1) :=
  ⟨h.reaches, congrArg (· + 1) h.depth_eq⟩

end Parser.Behind

/-- What a parse has recorded before is among what it has recorded in the end. -/
theorem Parse.Steady.recorded_within {α : Type} {x : Parse α} {a : α} (hx : Steady x)
    (hr : x.run p = .ok a q) (hq : q.diagnostics.toList <+: D) : p.diagnostics.toList <+: D :=
  ((hx p).of_eq hr).diagnostics.trans hq

/-- Are the blocks of all expressions at some depth given by the rule for blocks? -/
def GivesBlocks (c₀ : Cursor) (D : List Diagnostic) (depth : Nat) : Prop :=
  ∀ {power : Power} {p q : Parser} {e : Expr}, p.Behind c₀ depth →
    (Operand.full.parse power).run p = .ok e q → q.diagnostics.toList <+: D →
      e.Each (Node.GivenByBlock c₀ D)

namespace Parse

/-! ### Statements and blocks -/

theorem statement_blocks (h : GivesBlocks c₀ D depth) (hp : p.Behind c₀ depth) {s : Stmt}
    (hs : (statement .full).run p = .ok s q) (hq : q.diagnostics.toList <+: D) :
    s.Each (Node.GivenByBlock c₀ D) := by
  have hs : (stmtRule .full p.current.kind.stmtRule?).run p = .ok s q := hs
  match p.current.kind.stmtRule?, hs with
  | some .binding, hs =>
    obtain ⟨-, -, e, r, he, u, hu, rfl⟩ := binding_eq_ok_iff.1 hs
    exact ⟨trivial, trivial, h hp.advance.advance.advance he
      (steady_skipSemicolon.recorded_within hu hq)⟩
  | some .result, hs =>
    obtain ⟨e, r, he, u, hu, rfl⟩ := result_eq_ok_iff.1 hs
    exact ⟨trivial, h hp.advance he (steady_skipSemicolon.recorded_within hu hq)⟩
  | none, hs =>
    obtain ⟨e, r, he, u, hu, rfl⟩ := expressionStatement_eq_ok_iff.1 hs
    exact ⟨trivial, h hp he (steady_skipSemicolon.recorded_within hu hq)⟩

theorem block_blocks (h : GivesBlocks c₀ D depth) (hp : p.Behind c₀ depth) {b : Block}
    (ho : p.current.kind = .openCurly) (hb : (block .full).run p = .ok b q)
    (hq : q.diagnostics.toList <+: D) : b.Each (Node.GivenByBlock c₀ D) := by
  have hgiven : Node.GivenByBlock c₀ D (.block b) := ⟨p, q, hp.reaches, ho, hb, hq⟩
  have hbody : ∀ s ∈ b.body, s.Each (Node.GivenByBlock c₀ D) := by
    intro s hs
    obtain ⟨r, t, hr, hs, ht⟩ := block_gives hb hs
    exact statement_blocks h (hp.of_leads hr) hs (ht.diagnostics.trans hq)
  obtain ⟨body, -, rfl⟩ := block_eq_ok_iff.1 hb
  exact ⟨hgiven, Stmt.eachAll_iff.2 hbody⟩

/-! ### How an expression starts -/

theorem alternative_blocks (h : GivesBlocks c₀ D depth) (hp : p.Behind c₀ depth)
    {a : Option Block} (ha : (alternative .full).run p = .ok a q)
    (hq : q.diagnostics.toList <+: D) : Block.EachElse (Node.GivenByBlock c₀ D) a := by
  rcases alternative_eq_ok_iff.1 ha with ⟨-, ho, b, hb, rfl⟩ | ⟨-, rfl, rfl⟩
  · exact block_blocks h hp.advance.advance ho hb hq
  · trivial

theorem prefixRule_blocks (h : GivesBlocks c₀ D depth) (hp : p.Behind c₀ depth)
    {rule : PrefixRule} {e : Expr} (he : (prefixRule .full rule).run p = .ok e q)
    (hq : q.diagnostics.toList <+: D) : e.Each (Node.GivenByBlock c₀ D) := by
  cases rule with
  | identifier =>
    obtain ⟨rfl, rfl⟩ := identifier_eq_ok_iff.1 he
    trivial
  | integer =>
    obtain ⟨v, hv, rfl, rfl⟩ := integer_eq_ok_iff.1 he
    trivial
  | boolean =>
    obtain ⟨rfl, rfl⟩ := boolean_eq_ok_iff.1 he
    trivial
  | unary =>
    obtain ⟨right, hr, rfl⟩ := unary_eq_ok_iff.1 he
    exact ⟨trivial, h hp.advance hr hq⟩
  | group =>
    obtain ⟨r, hr, hc, rfl⟩ := group_eq_ok_iff.1 he
    exact h hp.advance hr hq
  | conditional =>
    obtain ⟨-, c, r, hc, -, hbr, b, s, hb, a, ha, rfl⟩ := conditional_eq_ok_iff.1 he
    have hr := hp.advance.advance.of_steady (Operand.full.steady _) hc
    have hs := hr.advance.advance.of_steady (steady_block .full) hb
    have hsD := (steady_alternative .full).recorded_within ha hq
    have hrD : r.diagnostics.toList <+: D :=
      (steady_block .full).recorded_within (p := r.advance.advance) hb hsD
    exact ⟨trivial, h hp.advance.advance hc hrD, block_blocks h hr.advance.advance hbr hb hsD,
      alternative_blocks h hs ha hq⟩
  | function =>
    obtain ⟨-, ids, r, hids, hbr, b, hb, rfl⟩ := function_eq_ok_iff.1 he
    have hr := hp.advance.of_steady steady_parameters hids
    exact ⟨trivial, fun _ _ => trivial, block_blocks h hr.advance hbr hb hq⟩

/-! ### How an expression goes on -/

theorem arguments_blocks (h : GivesBlocks c₀ D depth) (hp : p.Behind c₀ depth) {es : List Expr}
    (ha : (arguments .full).run p = .ok es q) (hq : q.diagnostics.toList <+: D) :
    Expr.EachAll (Node.GivenByBlock c₀ D) es := by
  refine Expr.eachAll_iff.2 fun e he => ?_
  obtain ⟨r, s, hr, he, hs⟩ := arguments_gives ha he
  exact h (hp.of_leads hr) he (hs.diagnostics.trans hq)

theorem infixRule_blocks (h : GivesBlocks c₀ D depth) (hp : p.Behind c₀ depth)
    {rule : InfixRule} {left e : Expr} {power : Power}
    (hleft : left.Each (Node.GivenByBlock c₀ D))
    (he : (infixRule .full left power rule).run p = .ok e q) (hq : q.diagnostics.toList <+: D) :
    e.Each (Node.GivenByBlock c₀ D) := by
  cases rule with
  | binary =>
    obtain ⟨right, hr, rfl⟩ := binary_eq_ok_iff.1 he
    exact ⟨trivial, hleft, h hp.advance hr hq⟩
  | call =>
    obtain ⟨es, ha, rfl⟩ := call_eq_ok_iff.1 he
    exact ⟨trivial, hleft, arguments_blocks h hp ha hq⟩

theorem operationsFrom_blocks (h : GivesBlocks c₀ D depth) (hp : p.Behind c₀ depth)
    {power : Power} {left e : Expr} (hleft : left.Each (Node.GivenByBlock c₀ D))
    (he : operationsFrom .full power left p = .ok e q) (hq : q.diagnostics.toList <+: D) :
    e.Each (Node.GivenByBlock c₀ D) := by
  -- The blocks are only given once it is known what has been recorded in the end.
  let I (f : Expr) (r : Parser) : Prop :=
    r.Behind c₀ depth ∧ (r.diagnostics.toList <+: D → f.Each (Node.GivenByBlock c₀ D))
  refine (operationsFrom_invariant (I := I) ?_ ⟨hp, fun _ => hleft⟩ he).1.2 hq
  rintro left f rule r s ⟨hr, hleft⟩ - - hf
  have hsteady := steady_infixRule .full left r.peek.kind.power rule
  refine ⟨hr.advance.of_steady hsteady hf, fun hs => ?_⟩
  have hr' : r.diagnostics.toList <+: D := hsteady.recorded_within (p := r.advance) hf hs
  exact infixRule_blocks h hr.advance (hleft hr') hf hs

theorem operation_blocks (h : GivesBlocks c₀ D depth) (hp : p.Behind c₀ depth) {power : Power}
    {e : Expr} (he : (operation .full power).run p = .ok e q)
    (hq : q.diagnostics.toList <+: D) : e.Each (Node.GivenByBlock c₀ D) := by
  obtain ⟨rule, hrule, left, r, hr, hrest⟩ := operation_eq_ok_iff.1 he
  have hl := leads_operationsFrom .full power left r
  rw [hrest] at hl
  exact operationsFrom_blocks h (hp.of_steady (steady_prefixRule .full rule) hr)
    (prefixRule_blocks h hp hr (hl.diagnostics.trans hq)) hrest hq

end Parse

/-- The blocks of every expression are given by the rule for blocks.  The induction is on
the number of levels that are left. -/
theorem givesBlocks (depth : Nat) : GivesBlocks c₀ D depth := by
  induction hn : Parser.depthLimit - depth generalizing depth with
  | zero =>
    intro power p q e hp he hq
    rw [Operand.run_full_parse] at he
    obtain ⟨hlt, -⟩ := nested_eq_ok_iff.1 he
    have := hp.depth_eq
    omega
  | succ n ih =>
    intro power p q e hp he hq
    rw [Operand.run_full_parse] at he
    obtain ⟨hlt, r, hr, rfl⟩ := nested_eq_ok_iff.1 he
    exact operation_blocks (ih (depth + 1) (by omega)) hp.enter hr hq

theorem Parser.topLevel_blocks {done : Array Stmt} (hp : p.Behind c₀ depth)
    (hdone : Stmt.EachAll (Node.GivenByBlock c₀ D) done.toList)
    (hq : (topLevel done p).2.diagnostics.toList <+: D) :
    Stmt.EachAll (Node.GivenByBlock c₀ D) (topLevel done p).1.toList := by
  refine Stmt.eachAll_iff.2 fun s hs => ?_
  rcases topLevel_gives hs with hs | ⟨q, r, hr, hs, hrest⟩
  · exact Stmt.eachAll_iff.1 hdone s hs
  · exact statement_blocks (givesBlocks depth) (hp.of_leads hr) hs (hrest.diagnostics.trans hq)

/-! ## Partitions -/

namespace Parser

/-- Do the segments `gs` lead from `p` to `q` in rounds that are sound one behind the other,
and give the statements `body`? -/
structure Partition (p : Parser) (gs : List Segment) (q : Parser) (body : List Stmt) : Prop where
  /-- The segments are what the rounds of a loop over statements take and give. -/
  rounds : p.Rounds gs q
  /-- The statements are those of the segments, in their order. -/
  body_eq : body = gs.filterMap (·.stmt?)
  /-- Every segment covers its tokens, or they or the next one are blamed. -/
  sound : Segment.AllSound gs q.current

end Parser

/-- The tokens between the braces of a block are split by its rounds. -/
theorem Parse.block_partition {b : Block} (hs : p.cursor.Settled)
    (h : (block .full).run p = .ok b q) :
    ∃ gs, p.advance.Partition gs q b.body ∧ q.current.kind = .closeCurly ∧
      b.site = ⟨p.current, ⟨p.current.span.start, q.current.span.stop⟩⟩ := by
  obtain ⟨body, hm, rfl⟩ := block_eq_ok_iff.1 h
  have hs : p.advance.cursor.Settled := hs.of_reaches (.advance _)
  obtain ⟨gs, hrounds, hclose, hbody⟩ := Parser.exists_rounds_moreStatements hs hm
  exact ⟨gs, ⟨hrounds, hbody, hrounds.allSound hs⟩, hclose, rfl⟩

/-- Errors lose no token.  The rounds that parse a source split its tokens into segments that
are not empty, one behind the other and up to the end token.  A segment either gives the next
statement of the program, which covers the source from its first token to its last, or gives
none and records diagnostics, the last of which blames one of its tokens or the one behind
them.  The same holds of every block in the program and the tokens between its braces. -/
theorem parse_partition (source : String) (file? : Option String) :
    let start := (Parser.ofScanner (.ofSource source file?)).reset
    let result := parse source file?
    (∃ gs q, start.Partition gs q result.1.body ∧ q.current.kind = .eof ∧
      tokenize source file? = gs.flatMap (·.tokens) ++ [q.current] ∧
      result.2.diagnostics.toList = gs.flatMap (·.diagnostics)) ∧
    ∀ row ∈ result.1.outline, ∀ b, row.node = .block b →
      ∃ (p : Parser) (gs : List Segment) (q : Parser) (before after : List Token),
        p.advance.Partition gs q b.body ∧
        p.current.kind = .openCurly ∧ q.current.kind = .closeCurly ∧
        b.site = ⟨p.current, ⟨p.current.span.start, q.current.span.stop⟩⟩ ∧
        tokenize source file? =
          before ++ p.current :: (gs.flatMap (·.tokens) ++ q.current :: after) ∧
        gs.flatMap (·.diagnostics) <:+: result.2.diagnostics.toList := by
  intro start result
  have hs : start.cursor.Settled := Cursor.settled_ofSource source file?
  have htokenize : tokenize source file? = start.cursor.tokens :=
    (Cursor.tokens_ofScanner _).symm
  refine ⟨?_, ?_⟩
  · obtain ⟨gs, hrounds, heof, hbody⟩ := Parser.exists_rounds_topLevel #[] hs
    refine ⟨gs, _, ⟨hrounds, hbody, hrounds.allSound hs⟩, heof, ?_, hrounds.takes.diagnostics_eq⟩
    rw [htokenize, hrounds.takes.tokens_eq, Cursor.tokens_of_eof heof]
    rfl
  · have hgiven : result.1.Each (Node.GivenByBlock start.cursor result.2.diagnostics.toList) :=
      Parser.topLevel_blocks (p := start) ⟨.refl _, rfl⟩ trivial List.prefix_rfl
    intro row hrow b hb
    have hblock := (Program.each_iff_outline _).1 hgiven row hrow
    rw [hb] at hblock
    obtain ⟨p, q, hreaches, hopen, hrun, hD⟩ := hblock
    obtain ⟨gs, hpart, hclose, hsite⟩ := block_partition (hs.of_reaches hreaches) hrun
    obtain ⟨before, hbefore⟩ := hs.tokens_suffix hreaches
    obtain ⟨after, hafter⟩ := q.cursor.exists_tokens_eq
    have hne : p.cursor.current.kind ≠ .eof := by
      rw [show p.cursor.current.kind = .openCurly from hopen]
      decide
    refine ⟨p, gs, q, before, after, hpart, hopen, hclose, hsite, ?_, ?_⟩
    · rw [htokenize, ← hbefore, Cursor.tokens_of_ne_eof hne]
      have htakes := hpart.rounds.takes.tokens_eq
      rw [hafter] at htakes
      exact congrArg (before ++ p.current :: ·) htakes
    · obtain ⟨ds, hds⟩ := hD
      rw [hpart.rounds.takes.diagnostics_eq] at hds
      exact ⟨_, ds, hds⟩

end ExprLang
