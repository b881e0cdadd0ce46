import ExprLang.Proofs.Parser.Loops
import ExprLang.Proofs.Token.Spelled
import ExprLang.Proofs.Tree.Consistent

/-!
# What is parsed agrees with its tokens

Every tree that parsing gives is consistent, whether anything is recorded or not
(`parse_consistent`).

A cursor *sees* only tokens that satisfy `T` if the two it holds and all that its scanner
will give do.  That stays so wherever the cursor is led, and each rule builds its node
from tokens that it stands on or looks at.
-/

namespace ExprLang

open Parse

variable {T : Token → Prop}

/-! ## Tokens to come -/

/-- Does every token of the cursor, and every token to come, satisfy `T`? -/
structure Cursor.Sees (T : Token → Prop) (c : Cursor) : Prop where
  /-- The token it stands on does. -/
  current : T c.current
  /-- The token ahead does. -/
  peek : T c.peek
  /-- Every later token does. -/
  later : ∀ n, T (c.scanner.later n).next.1

theorem Cursor.sees_ofScanner {s : Scanner} (h : ∀ n, T (s.later n).next.1) :
    (Cursor.ofScanner s).Sees T := by
  refine ⟨h 0, h 1, fun n => ?_⟩
  show T (s.next.2.next.2.later n).next.1
  rw [Scanner.later_next, Scanner.later_next]
  exact h (n + 2)

theorem Cursor.Sees.advance {c : Cursor} (h : c.Sees T) : c.advance.Sees T := by
  refine ⟨h.peek, h.later 0, fun n => ?_⟩
  show T (c.scanner.next.2.later n).next.1
  rw [Scanner.later_next]
  exact h.later (n + 1)

theorem Cursor.Sees.of_reaches {c d : Cursor} (h : c.Sees T) (k : c.Reaches d) : d.Sees T := by
  induction k with
  | refl => exact h
  | step _ ih => exact ih h.advance

namespace Parser

/-- Does every token from here on satisfy `T`? -/
def Sees (T : Token → Prop) (p : Parser) : Prop := p.cursor.Sees T

variable {p q : Parser}

theorem Sees.current (h : p.Sees T) : T p.current := Cursor.Sees.current h

theorem Sees.peek (h : p.Sees T) : T p.peek := Cursor.Sees.peek h

theorem Sees.advance (h : p.Sees T) : p.advance.Sees T := Cursor.Sees.advance h

theorem Sees.of_leads (h : p.Sees T) (k : p.Leads q) : q.Sees T :=
  Cursor.Sees.of_reaches h k.reaches

/-- What holds of the tokens to come holds after a parse as well. -/
theorem Sees.of_steady {α : Type} {x : Parse α} {a : α} (h : p.Sees T) (hx : Steady x)
    (hr : x.run p = .ok a q) : q.Sees T :=
  h.of_leads ((hx p).of_eq hr)

end Parser

/-- What a consistent operand gives: expressions that agree with their tokens, wherever an
expression can start. -/
def Operand.Consistent (T : Token → Prop) (operand : Operand) : Prop :=
  ∀ {power : Power} {p q : Parser} {e : Expr}, p.Sees T → (operand.parse power).run p = .ok e q →
    e.Consistent T ∧ p.current.kind.prefixRule?.isSome

namespace Parse

variable {operand : Operand} {p q : Parser}

/-! ## Statements and blocks -/

theorem statement_consistent (h : operand.Consistent T) (hp : p.Sees T) {s : Stmt}
    (hs : (statement operand).run p = .ok s q) : s.Consistent T := by
  have hs : (stmtRule operand p.current.kind.stmtRule?).run p = .ok s q := hs
  match hrule : p.current.kind.stmtRule?, hs with
  | some .binding, hs =>
    obtain ⟨hname, hsign, e, r, he, u, hu, rfl⟩ := binding_eq_ok_iff.1 hs
    exact ⟨hp.current, TokenKind.stmtRule?_eq_binding_iff.1 hrule, ⟨_, hp.peek, hname, rfl⟩,
      (h hp.advance.advance.advance he).1⟩
  | some .result, hs =>
    obtain ⟨e, r, he, u, hu, rfl⟩ := result_eq_ok_iff.1 hs
    exact ⟨hp.current, TokenKind.stmtRule?_eq_result_iff.1 hrule, (h hp.advance he).1⟩
  | none, hs =>
    obtain ⟨e, r, he, u, hu, rfl⟩ := expressionStatement_eq_ok_iff.1 hs
    obtain ⟨hc, hstart⟩ := h hp he
    exact ⟨hp.current, hstart, hc⟩

theorem block_consistent (h : operand.Consistent T) (hp : p.Sees T) {b : Block}
    (ho : p.current.kind = .openCurly) (hb : (block operand).run p = .ok b q) :
    b.Consistent T := by
  have hbody : ∀ s ∈ b.body, s.Consistent T := by
    intro s hs
    obtain ⟨r, t, hr, hs, -⟩ := block_gives hb hs
    exact statement_consistent h (hp.of_leads hr) hs
  obtain ⟨body, -, rfl⟩ := block_eq_ok_iff.1 hb
  exact ⟨hp.current, ho, Stmt.listConsistent_iff.2 hbody⟩

/-! ## How an expression starts -/

theorem moreParameters_consistent {done found : Array Identifier} (hp : p.Sees T)
    (hdone : ∀ id ∈ done, id.Consistent T) (hm : moreParameters done p = .ok found q) :
    ∀ id ∈ found, id.Consistent T := by
  have push {t : Token} (ht : T t) (hk : t.kind = .identifier) {done : Array Identifier}
      (hdone : ∀ id ∈ done, id.Consistent T) :
      ∀ id ∈ done.push (.ofToken t), id.Consistent T := by
    intro id hid
    rcases Array.mem_push.1 hid with hid | rfl
    · exact hdone id hid
    · exact ⟨t, ht, hk, rfl⟩
  fun_induction moreParameters done p with
  | case1 done p d r hs => cases hm
  | case2 done p t r hs hc ih =>
    obtain ⟨hk, rfl, rfl⟩ := expect_eq_ok hs
    exact ih hp.advance.advance (push hp.peek hk hdone) hm
  | case3 done p t r hs hc =>
    obtain ⟨hk, rfl, rfl⟩ := expect_eq_ok hs
    cases hm
    exact push hp.peek hk hdone

theorem parameters_consistent (hp : p.Sees T) {ids : List Identifier}
    (h : parameters.run p = .ok ids q) : (∀ id ∈ ids, id.Consistent T) ∧ q.Sees T := by
  refine ⟨?_, hp.of_steady steady_parameters h⟩
  rcases parameters_eq_ok_iff.1 h with ⟨-, rfl, rfl⟩ | ⟨-, found, r, hm, -, rfl, rfl⟩
  · simp
  · intro id hid
    exact moreParameters_consistent hp (by simp) hm id (Array.mem_toList_iff.1 hid)

theorem alternative_consistent (h : operand.Consistent T) (hp : p.Sees T) {a : Option Block}
    (ha : (alternative operand).run p = .ok a q) : Block.ElseConsistent T a := by
  rcases alternative_eq_ok_iff.1 ha with ⟨-, ho, b, hb, rfl⟩ | ⟨-, rfl, rfl⟩
  · exact block_consistent h hp.advance.advance ho hb
  · trivial

theorem prefixRule_consistent (h : operand.Consistent T) (hp : p.Sees T) {rule : PrefixRule}
    {e : Expr} (hk : p.current.kind.prefixRule? = some rule)
    (he : (prefixRule operand rule).run p = .ok e q) : e.Consistent T := by
  have hmem := TokenKind.prefixRule?_eq_some_iff.1 hk
  cases rule with
  | identifier =>
    obtain ⟨rfl, rfl⟩ := identifier_eq_ok_iff.1 he
    exact ⟨_, hp.current, List.mem_singleton.1 hmem, rfl⟩
  | integer =>
    obtain ⟨v, hv, rfl, rfl⟩ := integer_eq_ok_iff.1 he
    exact ⟨hp.current, List.mem_singleton.1 hmem, hv⟩
  | boolean =>
    obtain ⟨rfl, rfl⟩ := boolean_eq_ok_iff.1 he
    exact ⟨hp.current, by simpa [TokenKind.ofPrefixRule] using hmem, rfl⟩
  | unary =>
    obtain ⟨right, hr, rfl⟩ := unary_eq_ok_iff.1 he
    exact ⟨hp.current, hk, rfl, (h hp.advance hr).1⟩
  | group =>
    obtain ⟨r, hr, hc, rfl⟩ := group_eq_ok_iff.1 he
    exact (h hp.advance hr).1
  | conditional =>
    obtain ⟨ho, c, r, hc, hcl, hbr, b, s, hb, a, ha, rfl⟩ := conditional_eq_ok_iff.1 he
    have hr := hp.advance.advance.of_steady (operand.steady _) hc
    have hs := hr.advance.advance.of_steady (steady_block operand) hb
    exact ⟨hp.current, List.mem_singleton.1 hmem, (h hp.advance.advance hc).1,
      block_consistent h hr.advance.advance hbr hb, alternative_consistent h hs ha⟩
  | function =>
    obtain ⟨ho, ids, r, hids, hbr, b, hb, rfl⟩ := function_eq_ok_iff.1 he
    obtain ⟨hi, hr⟩ := parameters_consistent hp.advance hids
    exact ⟨hp.current, List.mem_singleton.1 hmem, hi, block_consistent h hr.advance hbr hb⟩

/-! ## How an expression goes on -/

theorem arguments_consistent (h : operand.Consistent T) (hp : p.Sees T) {es : List Expr}
    (ha : (arguments operand).run p = .ok es q) : Expr.ListConsistent T es := by
  refine Expr.listConsistent_iff.2 fun e he => ?_
  obtain ⟨r, s, hr, he, -⟩ := arguments_gives ha he
  exact (h (hp.of_leads hr) he).1

theorem infixRule_consistent (h : operand.Consistent T) (hp : p.Sees T) {rule : InfixRule}
    {left e : Expr} {power : Power} (hl : left.Consistent T)
    (hk : p.current.kind.infixRule? = some rule)
    (he : (infixRule operand left power rule).run p = .ok e q) : e.Consistent T := by
  cases rule with
  | binary =>
    obtain ⟨right, hr, rfl⟩ := binary_eq_ok_iff.1 he
    exact ⟨hp.current, hk, rfl, hl, (h hp.advance hr).1⟩
  | call =>
    obtain ⟨es, ha, rfl⟩ := call_eq_ok_iff.1 he
    exact ⟨hp.current, TokenKind.infixRule?_eq_call_iff.1 hk, hl, arguments_consistent h hp ha⟩

theorem operationsFrom_consistent (h : operand.Consistent T) (hp : p.Sees T) {power : Power}
    {left e : Expr} (hl : left.Consistent T) (he : operationsFrom operand power left p = .ok e q) :
    e.Consistent T := by
  refine (operationsFrom_invariant (I := fun f r => f.Consistent T ∧ r.Sees T) ?_ ⟨hl, hp⟩ he).1.1
  rintro left f rule r s ⟨hl, hr⟩ - hrule hf
  exact ⟨infixRule_consistent h hr.advance hl hrule hf,
    hr.advance.of_steady (steady_infixRule operand left _ rule) hf⟩

theorem operation_consistent (h : operand.Consistent T) (hp : p.Sees T) {power : Power} {e : Expr}
    (he : (operation operand power).run p = .ok e q) :
    e.Consistent T ∧ p.current.kind.prefixRule?.isSome := by
  obtain ⟨rule, hrule, left, r, hr, hrest⟩ := operation_eq_ok_iff.1 he
  refine ⟨?_, by rw [hrule]; rfl⟩
  exact operationsFrom_consistent h (hp.of_steady (steady_prefixRule operand rule) hr)
    (prefixRule_consistent h hp hrule hr) hrest

end Parse

/-! ## Programs -/

theorem Operand.ofLevels_consistent (n : Nat) : (ofLevels n).Consistent T := by
  induction n with
  | zero =>
    intro power p q e hp he
    cases he
  | succ n ih =>
    intro power p q e hp he
    obtain ⟨-, r, hr, -⟩ := nested_eq_ok_iff.1 he
    exact operation_consistent ih (p := p.enter) hp hr

theorem Operand.full_consistent : full.Consistent T :=
  fun {_ p _ _} hp he => ofLevels_consistent (Parser.depthLimit - p.depth) hp he

theorem Parser.topLevel_consistent {done : Array Stmt} {p : Parser} (hp : p.Sees T)
    (hdone : Stmt.ListConsistent T done.toList) :
    Stmt.ListConsistent T (topLevel done p).1.toList := by
  refine Stmt.listConsistent_iff.2 fun s hs => ?_
  rcases topLevel_gives hs with hs | ⟨q, r, hq, hs, -⟩
  · exact Stmt.listConsistent_iff.1 hdone s hs
  · exact statement_consistent Operand.full_consistent (hp.of_leads hq) hs

/-- Every program that parsing gives agrees with its tokens, whatever holds of the tokens of
the source. -/
theorem parse_consistent_of_tokens {source : String} {file? : Option String}
    (h : ∀ n, T ((Scanner.ofSource source file?).later n).next.1) :
    (parse source file?).1.Consistent T :=
  Parser.topLevel_consistent (p := (Parser.ofScanner (.ofSource source file?)).reset)
    (Cursor.sees_ofScanner h) trivial

/-- Every node of a program has a token that some source spells. -/
theorem parse_consistent (source : String) (file? : Option String) :
    (parse source file?).1.Consistent Token.Scanned := by
  refine parse_consistent_of_tokens fun n => ?_
  obtain ⟨before, after, h⟩ := Scanner.splits_later source file? n
  exact h.scanned

end ExprLang
