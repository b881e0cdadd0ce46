import ExprLang.Parser.Infix
import ExprLang.Parser.Prefix

/-!
# Expressions

An expression starts with a prefix rule and goes on with infix rules for as long
as the token ahead binds tighter than the power asked for (`operations`).  Equal
powers stop, which makes operators group to the left.

`Operand.ofLevels n` parses expressions that may nest `n` deep.  The rules for an
expression of `n + 1` levels get the operand of `n` levels for what is inside.
`Operand.full` takes as many levels as the limit leaves at the depth of the parser.
-/

namespace ExprLang

namespace Parse

/-! ## Operators in a row -/

/-- Goes on behind `left` for as long as the token ahead binds tighter than
`power`. -/
def operationsFrom (operand : Operand) (power : Power) (left : Expr) (p : Parser) : Parsed Expr :=
  if power < p.peek.kind.power then
    match p.peek.kind.infixRule? with
    | none => .ok left p
    | some rule =>
      match _h : (infixRule operand left p.peek.kind.power rule).run p.advance with
      | .ok e q => operationsFrom operand power e q
      | .error d q => .error d q
  else .ok left p
termination_by p.remaining
decreasing_by
  have h := steady_infixRule operand left p.peek.kind.power rule p.advance
  rw [_h] at h
  exact Nat.lt_of_le_of_lt h.remaining_le
    (Parser.remaining_advance_lt_of_peek (TokenKind.ne_eof_of_lt_power ‹power < _›))

theorem operationsFrom_eq (operand : Operand) (power : Power) (left : Expr) (p : Parser) :
    operationsFrom operand power left p =
      if power < p.peek.kind.power then
        match p.peek.kind.infixRule? with
        | none => .ok left p
        | some rule =>
          match (infixRule operand left p.peek.kind.power rule).run p.advance with
          | .ok e q => operationsFrom operand power e q
          | .error d q => .error d q
      else .ok left p := by
  rw [operationsFrom]
  cases p.peek.kind.infixRule? with
  | none => rfl
  | some rule =>
    dsimp only
    generalize (infixRule operand left p.peek.kind.power rule).run p.advance = r
    cases r <;> rfl

/-- Goes on behind `left` for as long as the token ahead binds tighter than
`power`. -/
def operations (operand : Operand) (power : Power) (left : Expr) : Parse Expr := fun p =>
  operationsFrom operand power left p

/-- The start of an expression and what goes on behind it. -/
def operation (operand : Operand) (power : Power) : Parse Expr := do
  let token ← current
  match token.kind.prefixRule? with
  | none => failHere (.noPrefixRule token.kind token.literal)
  | some rule => do
    let left ← prefixRule operand rule
    operations operand power left

theorem leads_operationsFrom (operand : Operand) (power : Power) (left : Expr) (p : Parser) :
    p.Leads (Parsed.parser (operationsFrom operand power left p)) := by
  fun_induction operationsFrom operand power left p with
  | case1 => exact .refl _
  | case2 left p _ rule _ e q h ih =>
    have hs := steady_infixRule operand left p.peek.kind.power rule p.advance
    rw [h] at hs
    exact ((Parser.leads_advance p).trans hs).trans ih
  | case3 left p _ rule _ d q h =>
    have hs := steady_infixRule operand left p.peek.kind.power rule p.advance
    rw [h] at hs
    exact (Parser.leads_advance p).trans hs
  | case4 => exact .refl _

theorem steady_operations (operand : Operand) (power : Power) (left : Expr) :
    Steady (operations operand power left) := fun p => leads_operationsFrom operand power left p

theorem steady_operation (operand : Operand) (power : Power) :
    Steady (operation operand power) := by
  refine steady_current.bind fun t => ?_
  split
  · exact steady_failHere _
  · exact (steady_prefixRule operand _).bind fun _ => steady_operations operand power _

end Parse

namespace Operand

open Parse

/-- Expressions that nest at most `levels` deep. -/
def ofLevels : (levels : Nat) → Operand
  | 0 => ⟨fun _ => failHere (.nestingTooDeep Parser.depthLimit), fun _ => steady_failHere _⟩
  | levels + 1 =>
    ⟨fun power => nested (operation (ofLevels levels) power),
      fun _ => steady_nested (steady_operation _ _)⟩

/-- Expressions that nest as deep as the limit allows. -/
def full : Operand where
  parse power := fun p => ((ofLevels (Parser.depthLimit - p.depth)).parse power).run p
  steady power p := (ofLevels (Parser.depthLimit - p.depth)).steady power p

end Operand

/-- Parses an expression whose operators bind tighter than `power`. -/
def Parse.expression (power : Power) : Parse Expr := Operand.full.parse power

end ExprLang
