import ExprLang.Parser.Expression

/-!
# When a rule succeeds

One equivalence for each primitive step and each rule.  It says when the rule succeeds
and what it then gives, in terms of the steps and rules inside it.  The loops have
their own equations next to their definitions.
-/

namespace ExprLang

/-- Where a parse is known to end, it leads there. -/
theorem Parser.Leads.of_eq {α : Type} {p : Parser} {r s : Parsed α} (h : p.Leads r.parser)
    (hr : r = s) : p.Leads s.parser := by
  rw [← hr]
  exact h

namespace Parse

variable {α β : Type} {operand : Operand} {p q : Parser}

/-! ## Steps -/

theorem bind_eq_ok_iff {x : Parse α} {f : α → Parse β} {b : β} :
    (x >>= f).run p = .ok b q ↔ ∃ a r, x.run p = .ok a r ∧ (f a).run r = .ok b q := by
  rw [EStateM.run_bind]
  cases x.run p with
  | ok a r =>
    constructor
    · intro h
      exact ⟨a, r, rfl, h⟩
    · rintro ⟨_, _, ⟨⟩, h⟩
      exact h
  | error d r => simp

theorem pure_eq_ok_iff {a b : α} : (pure a : Parse α).run p = .ok b q ↔ b = a ∧ q = p := by
  rw [EStateM.run_pure, EStateM.Result.ok.injEq, eq_comm, @eq_comm _ p]

theorem current_eq_ok_iff {t : Token} : current.run p = .ok t q ↔ t = p.current ∧ q = p := by
  rw [run_current, EStateM.Result.ok.injEq, eq_comm, @eq_comm _ p]

theorem peekKind_eq_ok_iff {k : TokenKind} :
    peekKind.run p = .ok k q ↔ k = p.peek.kind ∧ q = p := by
  rw [run_peekKind, EStateM.Result.ok.injEq, eq_comm, @eq_comm _ p]

theorem advance_eq_ok_iff {t : Token} :
    advance.run p = .ok t q ↔ t = p.current ∧ q = p.advance := by
  rw [run_advance, EStateM.Result.ok.injEq, eq_comm, @eq_comm _ p.advance]

theorem expect_eq_ok_iff {kind : TokenKind} {t : Token} :
    (expect kind).run p = .ok t q ↔ p.peek.kind = kind ∧ t = p.peek ∧ q = p.advance := by
  constructor
  · exact expect_eq_ok
  · rintro ⟨hk, rfl, rfl⟩
    rw [run_expect, if_pos hk]

theorem siteFrom_eq_ok_iff {t : Token} {site : Site} :
    (siteFrom t).run p = .ok site q ↔ site = ⟨t, p.spanFrom t.span.start⟩ ∧ q = p := by
  rw [run_siteFrom, EStateM.Result.ok.injEq, eq_comm, @eq_comm _ p]

theorem siteSince_eq_ok_iff {start : Position} {t : Token} {site : Site} :
    (siteSince start t).run p = .ok site q ↔ site = ⟨t, p.spanFrom start⟩ ∧ q = p := by
  rw [run_siteSince, EStateM.Result.ok.injEq, eq_comm, @eq_comm _ p]

theorem ite_eq_ok_iff {c : Prop} [Decidable c] {x y : Parse α} {a : α} :
    (if c then x else y).run p = .ok a q ↔
      c ∧ x.run p = .ok a q ∨ ¬ c ∧ y.run p = .ok a q := by
  by_cases h : c <;> simp [h]

/-! ### Steps in front of a parse -/

theorem run_current_bind (f : Token → Parse α) : (current >>= f).run p = (f p.current).run p := rfl

theorem run_advance_bind (f : Token → Parse α) :
    (advance >>= f).run p = (f p.current).run p.advance := rfl

theorem run_peekKind_bind (f : TokenKind → Parse α) :
    (peekKind >>= f).run p = (f p.peek.kind).run p := rfl

theorem run_expect_bind {kind : TokenKind} (h : p.peek.kind = kind) (f : Token → Parse α) :
    (expect kind >>= f).run p = (f p.peek).run p.advance := by
  rw [EStateM.run_bind, run_expect, if_pos h]

theorem run_bind_of_ok {x : Parse α} {f : α → Parse β} {a : α} (h : x.run p = .ok a q) :
    (x >>= f).run p = (f a).run q := by
  rw [EStateM.run_bind, h]

/-- Where the first of two parses fails, both do. -/
theorem run_bind_of_error {x : Parse α} {f : α → Parse β} {d : Diagnostic}
    (h : x.run p = .error d q) : (x >>= f).run p = .error d q := by
  rw [EStateM.run_bind, h]

/-! ## Statements and blocks -/

theorem binding_eq_ok_iff {s : Stmt} : (binding operand).run p = .ok s q ↔
    p.peek.kind = .identifier ∧ p.advance.peek.kind = .assign ∧
      ∃ e r, (operand.parse .default).run p.advance.advance.advance = .ok e r ∧
        ∃ u, skipSemicolon.run r = .ok u q ∧
          s = .binding ⟨p.current, q.spanFrom p.current.span.start⟩ (.ofToken p.peek) e := by
  simp only [binding, bind_eq_ok_iff, current_eq_ok_iff, expect_eq_ok_iff, advance_eq_ok_iff,
    siteFrom_eq_ok_iff, pure_eq_ok_iff, and_assoc, exists_and_left, exists_eq_left,
    exists_eq_right_right']

theorem result_eq_ok_iff {s : Stmt} : (result operand).run p = .ok s q ↔
    ∃ e r, (operand.parse .default).run p.advance = .ok e r ∧
      ∃ u, skipSemicolon.run r = .ok u q ∧
        s = .result ⟨p.current, q.spanFrom p.current.span.start⟩ e := by
  simp only [result, bind_eq_ok_iff, advance_eq_ok_iff, siteFrom_eq_ok_iff, pure_eq_ok_iff,
    and_assoc, exists_and_left, exists_eq_left, exists_eq_right_right']

theorem expressionStatement_eq_ok_iff {s : Stmt} :
    (expressionStatement operand).run p = .ok s q ↔
      ∃ e r, (operand.parse .default).run p = .ok e r ∧
        ∃ u, skipSemicolon.run r = .ok u q ∧
          s = .expression ⟨p.current, q.spanFrom p.current.span.start⟩ e := by
  simp only [expressionStatement, bind_eq_ok_iff, current_eq_ok_iff, siteFrom_eq_ok_iff,
    pure_eq_ok_iff, and_assoc, exists_and_left, exists_eq_left, exists_eq_right_right']

theorem block_eq_ok_iff {b : Block} : (block operand).run p = .ok b q ↔
    ∃ body, moreStatements operand #[] p.advance = .ok body q ∧
      b = .mk ⟨p.current, q.spanFrom p.current.span.start⟩ body.toList := by
  simp only [block, bind_eq_ok_iff, advance_eq_ok_iff, siteFrom_eq_ok_iff, pure_eq_ok_iff,
    and_assoc, exists_and_left, exists_eq_left]
  constructor
  · rintro ⟨body, r, h, rfl, rfl⟩
    exact ⟨body, h, rfl⟩
  · rintro ⟨body, h, rfl⟩
    exact ⟨body, q, h, rfl, rfl⟩

/-! ## How an expression starts -/

theorem identifier_eq_ok_iff {e : Expr} :
    identifier.run p = .ok e q ↔ e = .identifier (.ofToken p.current) ∧ q = p := by
  simp only [identifier, bind_eq_ok_iff, current_eq_ok_iff, pure_eq_ok_iff, and_assoc,
    exists_and_left, exists_eq_left]

theorem integer_eq_ok_iff {e : Expr} : integer.run p = .ok e q ↔
    ∃ v, Text.integer? p.current.literal = some v ∧
      e = .integer ⟨p.current, p.current.span⟩ v ∧ q = p := by
  simp only [integer, bind_eq_ok_iff, current_eq_ok_iff, and_assoc, exists_and_left,
    exists_eq_left]
  cases h : Text.integer? p.current.literal with
  | none => simp
  | some v => simp only [pure_eq_ok_iff, Option.some.injEq, exists_eq_left']

theorem boolean_eq_ok_iff {e : Expr} : boolean.run p = .ok e q ↔
    e = .boolean ⟨p.current, p.current.span⟩ (p.current.kind = .kwTrue) ∧ q = p := by
  simp only [boolean, bind_eq_ok_iff, current_eq_ok_iff, pure_eq_ok_iff, and_assoc,
    exists_and_left, exists_eq_left]

theorem unary_eq_ok_iff {e : Expr} : (unary operand).run p = .ok e q ↔
    ∃ right, (operand.parse .unary).run p.advance = .ok right q ∧
      e = .unary ⟨p.current, q.spanFrom p.current.span.start⟩ p.current.literal right := by
  simp only [unary, bind_eq_ok_iff, advance_eq_ok_iff, siteFrom_eq_ok_iff, pure_eq_ok_iff,
    and_assoc, exists_and_left, exists_eq_left, exists_eq_right_right']

theorem group_eq_ok_iff {e : Expr} : (group operand).run p = .ok e q ↔
    ∃ r, (operand.parse .default).run p.advance = .ok e r ∧ r.peek.kind = .closeParen ∧
      q = r.advance := by
  simp only [group, bind_eq_ok_iff, advance_eq_ok_iff, expect_eq_ok_iff, pure_eq_ok_iff,
    and_assoc, exists_and_left, exists_eq_left]
  constructor
  · rintro ⟨e, r, h, hk, rfl, rfl⟩
    exact ⟨r, h, hk, rfl⟩
  · rintro ⟨r, h, hk, rfl⟩
    exact ⟨e, r, h, hk, rfl, rfl⟩

theorem alternative_eq_ok_iff {a : Option Block} : (alternative operand).run p = .ok a q ↔
    p.peek.kind = .kwElse ∧ p.advance.peek.kind = .openCurly ∧
        (∃ b, (block operand).run p.advance.advance = .ok b q ∧ a = some b) ∨
      p.peek.kind ≠ .kwElse ∧ a = none ∧ q = p := by
  simp only [alternative, bind_eq_ok_iff, peekKind_eq_ok_iff, ite_eq_ok_iff, advance_eq_ok_iff,
    expect_eq_ok_iff, pure_eq_ok_iff, and_assoc, exists_and_left, exists_eq_left,
    exists_eq_right_right']

theorem conditional_eq_ok_iff {e : Expr} : (conditional operand).run p = .ok e q ↔
    p.peek.kind = .openParen ∧
      ∃ c r, (operand.parse .default).run p.advance.advance = .ok c r ∧
        r.peek.kind = .closeParen ∧ r.advance.peek.kind = .openCurly ∧
          ∃ b s, (block operand).run r.advance.advance = .ok b s ∧
            ∃ a, (alternative operand).run s = .ok a q ∧
              e = .conditional ⟨p.current, q.spanFrom p.current.span.start⟩ c b a := by
  simp only [conditional, bind_eq_ok_iff, current_eq_ok_iff, advance_eq_ok_iff,
    expect_eq_ok_iff, siteFrom_eq_ok_iff, pure_eq_ok_iff, and_assoc, exists_and_left,
    exists_eq_left, exists_eq_right_right']

theorem parameters_eq_ok_iff {ids : List Identifier} : parameters.run p = .ok ids q ↔
    p.peek.kind = .closeParen ∧ ids = [] ∧ q = p.advance ∨
      p.peek.kind ≠ .closeParen ∧ ∃ found r, moreParameters #[] p = .ok found r ∧
        r.peek.kind = .closeParen ∧ ids = found.toList ∧ q = r.advance := by
  simp only [parameters, bind_eq_ok_iff, peekKind_eq_ok_iff, ite_eq_ok_iff, advance_eq_ok_iff,
    expect_eq_ok_iff, pure_eq_ok_iff, and_assoc, exists_and_left, exists_eq_left]
  rfl

theorem function_eq_ok_iff {e : Expr} : (function operand).run p = .ok e q ↔
    p.peek.kind = .openParen ∧
      ∃ ids r, parameters.run p.advance = .ok ids r ∧ r.peek.kind = .openCurly ∧
        ∃ b, (block operand).run r.advance = .ok b q ∧
          e = .function ⟨p.current, q.spanFrom p.current.span.start⟩ ids b := by
  simp only [function, bind_eq_ok_iff, current_eq_ok_iff, expect_eq_ok_iff, siteFrom_eq_ok_iff,
    pure_eq_ok_iff, and_assoc, exists_and_left, exists_eq_left, exists_eq_right_right']

/-! ## How an expression goes on -/

theorem binary_eq_ok_iff {left e : Expr} {power : Power} :
    (binary operand left power).run p = .ok e q ↔
      ∃ right, (operand.parse power).run p.advance = .ok right q ∧
        e = .binary ⟨p.current, q.spanFrom left.site.span.start⟩ p.current.literal left right := by
  simp only [binary, bind_eq_ok_iff, advance_eq_ok_iff, siteSince_eq_ok_iff, pure_eq_ok_iff,
    and_assoc, exists_and_left, exists_eq_left, exists_eq_right_right']

theorem arguments_eq_ok_iff {es : List Expr} : (arguments operand).run p = .ok es q ↔
    p.peek.kind = .closeParen ∧ es = [] ∧ q = p.advance ∨
      p.peek.kind ≠ .closeParen ∧ ∃ e r, (operand.parse .default).run p.advance = .ok e r ∧
        ∃ found s, moreArguments operand #[e] r = .ok found s ∧ s.peek.kind = .closeParen ∧
          es = found.toList ∧ q = s.advance := by
  simp only [arguments, bind_eq_ok_iff, peekKind_eq_ok_iff, ite_eq_ok_iff, advance_eq_ok_iff,
    expect_eq_ok_iff, pure_eq_ok_iff, and_assoc, exists_and_left, exists_eq_left]
  rfl

theorem call_eq_ok_iff {callee e : Expr} : (call operand callee).run p = .ok e q ↔
    ∃ es, (arguments operand).run p = .ok es q ∧
      e = .call ⟨p.current, q.spanFrom callee.site.span.start⟩ callee es := by
  simp only [call, bind_eq_ok_iff, current_eq_ok_iff, siteSince_eq_ok_iff, pure_eq_ok_iff,
    and_assoc, exists_and_left, exists_eq_left, exists_eq_right_right']

theorem operation_eq_ok_iff {power : Power} {e : Expr} :
    (operation operand power).run p = .ok e q ↔
      ∃ rule, p.current.kind.prefixRule? = some rule ∧
        ∃ left r, (prefixRule operand rule).run p = .ok left r ∧
          operationsFrom operand power left r = .ok e q := by
  simp only [operation, bind_eq_ok_iff, current_eq_ok_iff, and_assoc, exists_and_left,
    exists_eq_left]
  cases h : p.current.kind.prefixRule? with
  | none => simp
  | some rule =>
    simp only [bind_eq_ok_iff, Option.some.injEq, exists_eq_left']
    rfl

/-- A nested parse succeeds below the limit, where the parse inside does. -/
theorem nested_eq_ok_iff {x : Parse α} {a : α} : (nested x).run p = .ok a q ↔
    p.depth < Parser.depthLimit ∧ ∃ r, x.run p.enter = .ok a r ∧ q = r.leave := by
  by_cases hp : p.depth < Parser.depthLimit
  · rw [run_nested hp]
    cases x.run p.enter with
    | ok b r =>
      constructor
      · rintro ⟨⟩
        exact ⟨hp, r, rfl, rfl⟩
      · rintro ⟨-, _, ⟨⟩, rfl⟩
        rfl
    | error d r => simp
  · rw [run_nested_of_le (Nat.not_lt.1 hp)]
    simp [hp]

end Parse

end ExprLang
