import ExprLang.Parser.Statement
import ExprLang.Text.Decimal

/-!
# How an expression starts

One parse for each prefix rule, and `prefixRule` to pick it.  A parse starts on the
first token of the expression and ends on its last.  An expression in parentheses
is the expression itself: its node does not show the parentheses, and its site is
that of the expression inside.
-/

namespace ExprLang

namespace Parse

/-! ## The rules -/

/-- The token as an identifier. -/
def identifier : Parse Expr := do
  let token ← current
  return .identifier (.ofToken token)

/-- The token as an integer. -/
def integer : Parse Expr := do
  let token ← current
  match Text.integer? token.literal with
  | some value => return .integer ⟨token, token.span⟩ value
  | none => failHere (.badNumber token.literal)

/-- The token as a boolean. -/
def boolean : Parse Expr := do
  let token ← current
  return .boolean ⟨token, token.span⟩ (token.kind = .kwTrue)

/-- An operator and the operand behind it. -/
def unary (operand : Operand) : Parse Expr := do
  let token ← advance
  let right ← operand.parse .unary
  let site ← siteFrom token
  return .unary site token.literal right

/-- An expression in parentheses.  They leave no node behind. -/
def group (operand : Operand) : Parse Expr := do
  let _ ← advance
  let e ← operand.parse .default
  let _ ← expect .closeParen
  return e

/-- The second branch of a conditional, if there is one. -/
def alternative (operand : Operand) : Parse (Option Block) := do
  let kind ← peekKind
  if kind = .kwElse then do
    let _ ← advance
    let _ ← expect .openCurly
    let b ← block operand
    return some b
  else return none

/-- A conditional `if (condition) consequence`, with an optional second branch. -/
def conditional (operand : Operand) : Parse Expr := do
  let token ← current
  let _ ← expect .openParen
  let _ ← advance
  let condition ← operand.parse .default
  let _ ← expect .closeParen
  let _ ← expect .openCurly
  let consequence ← block operand
  let alternative ← alternative operand
  let site ← siteFrom token
  return .conditional site condition consequence alternative

/-- Identifiers with commas between them, behind those in `done`. -/
def moreParameters (done : Array Identifier) (p : Parser) : Parsed (Array Identifier) :=
  match _h : (expect .identifier).run p with
  | .error d q => .error d q
  | .ok t q =>
    if q.peek.kind = .comma then moreParameters (done.push (.ofToken t)) q.advance
    else .ok (done.push (.ofToken t)) q
termination_by p.remaining
decreasing_by
  obtain ⟨hk, -, rfl⟩ := expect_eq_ok _h
  exact Nat.lt_of_le_of_lt (Parser.leads_advance _).remaining_le
    (Parser.remaining_advance_lt_of_peek (by rw [hk]; decide))

theorem moreParameters_eq (done : Array Identifier) (p : Parser) :
    moreParameters done p =
      match (expect .identifier).run p with
      | .error d q => .error d q
      | .ok t q =>
        if q.peek.kind = .comma then moreParameters (done.push (.ofToken t)) q.advance
        else .ok (done.push (.ofToken t)) q := by
  rw [moreParameters]
  generalize (expect .identifier).run p = r
  cases r <;> rfl

/-- Identifiers with commas between them. -/
def someParameters : Parse (Array Identifier) := fun p => moreParameters #[] p

/-- The parameters of a function, from the opening parenthesis to the closing
one. -/
def parameters : Parse (List Identifier) := do
  let kind ← peekKind
  if kind = .closeParen then do
    let _ ← advance
    return []
  else do
    let ids ← someParameters
    let _ ← expect .closeParen
    return ids.toList

/-- A function `fn(parameters) body`. -/
def function (operand : Operand) : Parse Expr := do
  let token ← current
  let _ ← expect .openParen
  let ids ← parameters
  let _ ← expect .openCurly
  let body ← block operand
  let site ← siteFrom token
  return .function site ids body

/-- The rule for the start of an expression. -/
def prefixRule (operand : Operand) : PrefixRule → Parse Expr
  | .identifier => identifier
  | .integer => integer
  | .boolean => boolean
  | .unary => unary operand
  | .group => group operand
  | .conditional => conditional operand
  | .function => function operand

/-! ## The rules are steady -/

theorem steady_identifier : Steady identifier := steady_current.bind fun _ => steady_pure _

theorem steady_integer : Steady integer := by
  refine steady_current.bind fun t => ?_
  split
  · exact steady_pure _
  · exact steady_failHere _

theorem steady_boolean : Steady boolean := steady_current.bind fun _ => steady_pure _

theorem steady_unary (operand : Operand) : Steady (unary operand) :=
  steady_advance.bind fun _ => (operand.steady _).bind fun _ => (steady_siteFrom _).bind
    fun _ => steady_pure _

theorem steady_group (operand : Operand) : Steady (group operand) :=
  steady_advance.bind fun _ => (operand.steady _).bind fun _ => (steady_expect _).bind
    fun _ => steady_pure _

theorem steady_alternative (operand : Operand) : Steady (alternative operand) :=
  steady_peekKind.bind fun _ => .ite
    (steady_advance.bind fun _ => (steady_expect _).bind fun _ =>
      (steady_block operand).bind fun _ => steady_pure _)
    (steady_pure _)

theorem steady_conditional (operand : Operand) : Steady (conditional operand) :=
  steady_current.bind fun _ => (steady_expect _).bind fun _ => steady_advance.bind fun _ =>
    (operand.steady _).bind fun _ => (steady_expect _).bind fun _ =>
      (steady_expect _).bind fun _ => (steady_block operand).bind fun _ =>
        (steady_alternative operand).bind fun _ => (steady_siteFrom _).bind fun _ =>
          steady_pure _

theorem leads_moreParameters (done : Array Identifier) (p : Parser) :
    p.Leads (Parsed.parser (moreParameters done p)) := by
  have hs := steady_expect .identifier p
  fun_induction moreParameters done p with
  | case1 done p d q h =>
    rw [h] at hs
    exact hs
  | case2 done p t q h _ ih =>
    rw [h] at hs
    exact (hs.trans q.leads_advance).trans (ih (steady_expect .identifier _))
  | case3 done p t q h _ =>
    rw [h] at hs
    exact hs

theorem steady_someParameters : Steady someParameters := fun p => leads_moreParameters #[] p

theorem steady_parameters : Steady parameters :=
  steady_peekKind.bind fun _ => .ite (steady_advance.bind fun _ => steady_pure _)
    (steady_someParameters.bind fun _ => (steady_expect _).bind fun _ => steady_pure _)

theorem steady_function (operand : Operand) : Steady (function operand) :=
  steady_current.bind fun _ => (steady_expect _).bind fun _ => steady_parameters.bind fun _ =>
    (steady_expect _).bind fun _ => (steady_block operand).bind fun _ =>
      (steady_siteFrom _).bind fun _ => steady_pure _

theorem steady_prefixRule (operand : Operand) : ∀ rule, Steady (prefixRule operand rule)
  | .identifier => steady_identifier
  | .integer => steady_integer
  | .boolean => steady_boolean
  | .unary => steady_unary operand
  | .group => steady_group operand
  | .conditional => steady_conditional operand
  | .function => steady_function operand

end Parse

end ExprLang
