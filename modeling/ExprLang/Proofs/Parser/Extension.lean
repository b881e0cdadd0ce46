import ExprLang.Proofs.Parser.Loops
import ExprLang.Proofs.Parser.Unwinding

/-!
# How far an expression goes

The power that an expression is asked for with is used in one place: the loop over the operators
ends by it.  What is behind an operator is asked for with the power of that operator, whatever the
loop was started with.  So of two powers the lower one makes the loop come to everything that the
higher one makes it come to (`Operates.mono`), and the expression for the higher power ends at such
a place (`expression_eq_ok`).  From there the loop only goes on (`run_expression_of_operates`).

Each round of the loop puts what there is on the left of something larger.  So the expression for
the higher power is part of the one for the lower power, and going left from the root leads to it
(`Expr.OnSpine`).
-/

namespace ExprLang

open Parse

/-! ## Left spines -/

/-- Left operands and callees lead to `e` from the root of another expression. -/
inductive Expr.OnSpine (e : Expr) : Expr → Prop
  | root : OnSpine e e
  | left {site : Site} {operator : String} {left right : Expr} : OnSpine e left →
      OnSpine e (.binary site operator left right)
  | callee {site : Site} {callee : Expr} {arguments : List Expr} : OnSpine e callee →
      OnSpine e (.call site callee arguments)

theorem Expr.OnSpine.trans {e f g : Expr} (h : e.OnSpine f) (k : f.OnSpine g) : e.OnSpine g := by
  induction k with
  | root => exact h
  | left _ ih => exact .left ih
  | callee _ ih => exact .callee ih

namespace Parse

variable {operand : Operand} {power : Power} {left e : Expr} {p q : Parser}

/-- An infix rule puts what there is on the left. -/
theorem infixRule_onSpine {rule : InfixRule}
    (h : (infixRule operand left power rule).run p = .ok e q) : left.OnSpine e := by
  cases rule with
  | binary =>
    obtain ⟨right, -, rfl⟩ := binary_eq_ok_iff.1 h
    exact .left .root
  | call =>
    obtain ⟨es, -, rfl⟩ := call_eq_ok_iff.1 h
    exact .callee .root

/-- The loop over the operators ends with what it started with on the left spine. -/
theorem operationsFrom_onSpine (h : operationsFrom operand power left p = .ok e q) :
    left.OnSpine e := by
  refine (operationsFrom_invariant (I := fun f _ => left.OnSpine f) ?_ .root h).1
  intro f g rule r s hf _ _ hg
  exact hf.trans (infixRule_onSpine hg)

end Parse

/-! ## What the loop comes to -/

namespace Parser

variable {low high : Power} {left : Expr} {p q : Parser}

/-- With a lower power the loop comes to whatever it comes to with a higher one. -/
theorem Operates.mono (hle : low ≤ high) (h : p.Operates high left q) :
    p.Operates low left q := by
  induction h with
  | first hrule he => exact .first hrule he
  | next _ hlt hrule he ih => exact ih.next (Nat.lt_of_le_of_lt hle hlt) hrule he

/-- What is left and entered again is as it was. -/
theorem enter_leave (h : 0 < p.depth) : p.leave.enter = p := by
  have hdepth : p.depth - 1 + 1 = p.depth := Nat.sub_add_cancel h
  show { p with depth := p.depth - 1 + 1 } = p
  rw [hdepth]

end Parser

/-! ## Expressions -/

namespace Parse

variable {power : Power} {e : Expr} {p q : Parser}

/-- An expression ends at a place that the loop comes to, one further inside, before a token that
binds no tighter than the power asked for. -/
theorem expression_eq_ok (h : (expression power).run p = .ok e q) :
    p.depth < Parser.depthLimit ∧ p.enter.Operates power e q.enter ∧
      q.peek.kind.power ≤ power := by
  have h : (Operand.full.parse power).run p = .ok e q := h
  rw [Operand.run_full_parse] at h
  obtain ⟨hlt, r, hr, rfl⟩ := nested_eq_ok_iff.1 h
  have hdepth : r.depth = p.depth + 1 := ((steady_operation .full power p.enter).of_eq hr).depth_eq
  obtain ⟨rule, hrule, left, s, hs, hrest⟩ := operation_eq_ok_iff.1 hr
  have hend := operationsFrom_invariant (I := p.enter.Operates power)
    (fun h hlt hrule hf => h.next hlt hrule hf) (.first hrule hs) hrest
  refine ⟨hlt, ?_, hend.2⟩
  rw [Parser.enter_leave (by omega)]
  exact hend.1

/-- From every place that the loop comes to an expression goes on as the loop does from there. -/
theorem run_expression_of_operates (hlt : p.depth < Parser.depthLimit)
    (h : p.enter.Operates power e q.enter) :
    (expression power).run p = (nested (operations .full power e)).run q := by
  have hdepth : q.depth + 1 = p.depth + 1 := h.leads.depth_eq
  have hq : q.depth < Parser.depthLimit := by omega
  show (Operand.full.parse power).run p = _
  rw [Operand.run_full_parse, run_nested hlt, run_nested hq, h.operation_eq]
  rfl

/-- What goes on behind an expression leads on, and ends with the expression on the left spine. -/
theorem nested_operations_extends (operand : Operand) (power : Power) (e : Expr) (p : Parser) :
    match (nested (operations operand power e)).run p with
    | .ok f q => e.OnSpine f ∧ p.Leads q
    | .error _ q => p.Leads q := by
  have hleads := steady_nested (steady_operations operand power e) p
  cases h : (nested (operations operand power e)).run p with
  | ok f q =>
    rw [h] at hleads
    obtain ⟨-, r, hr, -⟩ := nested_eq_ok_iff.1 h
    exact ⟨operationsFrom_onSpine hr, hleads⟩
  | error d q =>
    rw [h] at hleads
    exact hleads

end Parse

/-- A lower power makes an expression go further to the right and changes nothing else.  Where for
one power a parser gives the expression `e` and is then `q`, for a lower power the loop over the
operators comes to `e` and `q` as well, with the same things recorded, and only goes on from there.
So it fails no earlier than that, or it gives an expression that has `e` on its left spine.  And
every expression ends before a token that binds no tighter than the power asked for. -/
theorem expression_extends :
    (∀ {low high : Power} {p q : Parser} {e : Expr}, low ≤ high →
      (expression high).run p = .ok e q →
        p.enter.Operates low e q.enter ∧
        (expression low).run p = (nested (operations .full low e)).run q ∧
        match (expression low).run p with
        | .ok f r => e.OnSpine f ∧ q.Leads r
        | .error _ r => q.Leads r) ∧
    ∀ {power : Power} {p q : Parser} {e : Expr}, (expression power).run p = .ok e q →
      q.peek.kind.power ≤ power := by
  refine ⟨fun {low high p q e} hle h => ?_, fun h => (expression_eq_ok h).2.2⟩
  obtain ⟨hlt, hhigh, -⟩ := expression_eq_ok h
  have hlow := hhigh.mono hle
  have hrun := run_expression_of_operates hlt hlow
  refine ⟨hlow, hrun, ?_⟩
  rw [hrun]
  exact nested_operations_extends .full low e q

/-- Behind a function with an error in it, a product goes on with a factor.  A sum would go on with
a call as well, which the source does not close. -/
theorem expression_extends_function :
    ∃ p q r s : Parser, ∃ e f : Expr, ∃ d : Diagnostic,
      (expression .product).run p = .ok e q ∧ q.cursor.index = 5 ∧ q.diagnostics.size = 1 ∧
      (expression .sum).run p = .ok f r ∧ r.cursor.index = 7 ∧ e.OnSpine f ∧ q.Leads r ∧
      r.peek.kind.power ≤ .sum ∧
      (expression .default).run p = .error d s ∧ s.cursor.index = 11 ∧ q.Leads s := by
  obtain ⟨p, hhigh, hlow, hlowest⟩ : ∃ p : Parser,
      (match (expression .product).run p with
        | .ok _ q => q.cursor.index == 5 && q.diagnostics.size == 1
        | .error _ _ => false) = true ∧
      (match (expression .sum).run p with
        | .ok _ r => r.cursor.index == 7
        | .error _ _ => false) = true ∧
      (match (expression .default).run p with
        | .ok _ _ => false
        | .error _ s => s.cursor.index == 11) = true :=
    ⟨.ofScanner (.ofSource "fn() \x7b let \x7d * 2 + x(" none), by decide +kernel⟩
  have hsum : Power.sum ≤ .product := by decide
  have hdefault : Power.default ≤ .product := by decide
  cases hq : (expression .product).run p with
  | error d q => simp [hq] at hhigh
  | ok e q =>
    cases hr : (expression .sum).run p with
    | error d r => simp [hr] at hlow
    | ok f r =>
      cases hs : (expression .default).run p with
      | ok g s => simp [hs] at hlowest
      | error d s =>
        obtain ⟨-, -, hgoes⟩ := expression_extends.1 hsum hq
        obtain ⟨-, -, hfails⟩ := expression_extends.1 hdefault hq
        simp only [hq, hr, hs, Bool.and_eq_true, beq_iff_eq] at hhigh hlow hlowest hgoes hfails
        exact ⟨p, q, r, s, e, f, d, hq, hhigh.1, hhigh.2, hr, hlow, hgoes.1, hgoes.2,
          expression_extends.2 hr, hs, hlowest, hfails⟩

end ExprLang
