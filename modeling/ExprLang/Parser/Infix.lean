import ExprLang.Parser.Statement

/-!
# How an expression goes on

One parse for each infix rule, and `infixRule` to pick it.  A parse starts on the
operator, with the operand before it already parsed, and the node it gives covers
that operand as well.  A call counts as an operator, its parenthesis as the token.
-/

namespace ExprLang

namespace Parse

/-! ## The rules -/

/-- An operator and its right operand, behind the left one. -/
def binary (operand : Operand) (left : Expr) (power : Power) : Parse Expr := do
  let token ← advance
  let right ← operand.parse power
  let site ← siteSince left.site.span.start token
  return .binary site token.literal left right

/-- Expressions with a comma in front of each, behind those in `done`. -/
def moreArguments (operand : Operand) (done : Array Expr) (p : Parser) : Parsed (Array Expr) :=
  if p.peek.kind = .comma then
    match _h : (operand.parse .default).run p.advance.advance with
    | .ok e q => moreArguments operand (done.push e) q
    | .error d q => .error d q
  else .ok done p
termination_by p.remaining
decreasing_by
  have h := operand.steady .default p.advance.advance
  rw [_h] at h
  have hp : p.peek.kind ≠ .eof := by rw [‹p.peek.kind = _›]; decide
  exact Nat.lt_of_le_of_lt ((Parser.leads_advance _).trans h).remaining_le
    (Parser.remaining_advance_lt_of_peek hp)

theorem moreArguments_eq (operand : Operand) (done : Array Expr) (p : Parser) :
    moreArguments operand done p =
      if p.peek.kind = .comma then
        match (operand.parse .default).run p.advance.advance with
        | .ok e q => moreArguments operand (done.push e) q
        | .error d q => .error d q
      else .ok done p := by
  rw [moreArguments]
  generalize (operand.parse .default).run p.advance.advance = r
  cases r <;> rfl

/-- Expressions with a comma in front of each, behind a first one. -/
def laterArguments (operand : Operand) (first : Expr) : Parse (Array Expr) := fun p =>
  moreArguments operand #[first] p

/-- The arguments of a call, from the opening parenthesis to the closing one. -/
def arguments (operand : Operand) : Parse (List Expr) := do
  let kind ← peekKind
  if kind = .closeParen then do
    let _ ← advance
    return []
  else do
    let _ ← advance
    let first ← operand.parse .default
    let es ← laterArguments operand first
    let _ ← expect .closeParen
    return es.toList

/-- The arguments of a call, behind what is called. -/
def call (operand : Operand) (callee : Expr) : Parse Expr := do
  let token ← current
  let es ← arguments operand
  let site ← siteSince callee.site.span.start token
  return .call site callee es

/-- The rule for what goes on behind an operand.  It starts on the operator, whose
power is `power`. -/
def infixRule (operand : Operand) (left : Expr) (power : Power) : InfixRule → Parse Expr
  | .binary => binary operand left power
  | .call => call operand left

/-! ## The rules are steady -/

theorem steady_binary (operand : Operand) (left : Expr) (power : Power) :
    Steady (binary operand left power) :=
  steady_advance.bind fun _ => (operand.steady _).bind fun _ => (steady_siteSince _ _).bind
    fun _ => steady_pure _

theorem leads_moreArguments (operand : Operand) (done : Array Expr) (p : Parser) :
    p.Leads (Parsed.parser (moreArguments operand done p)) := by
  have hs := operand.steady .default p.advance.advance
  have ha := (Parser.leads_advance p).trans (Parser.leads_advance _)
  fun_induction moreArguments operand done p with
  | case1 done p _ e q h ih =>
    rw [h] at hs
    exact (ha.trans hs).trans
      (ih (operand.steady _ _) ((Parser.leads_advance _).trans (Parser.leads_advance _)))
  | case2 done p _ d q h =>
    rw [h] at hs
    exact ha.trans hs
  | case3 => exact .refl _

theorem steady_laterArguments (operand : Operand) (first : Expr) :
    Steady (laterArguments operand first) := fun p => leads_moreArguments operand #[first] p

theorem steady_arguments (operand : Operand) : Steady (arguments operand) :=
  steady_peekKind.bind fun _ => .ite (steady_advance.bind fun _ => steady_pure _)
    (steady_advance.bind fun _ => (operand.steady _).bind fun _ =>
      (steady_laterArguments operand _).bind fun _ => (steady_expect _).bind fun _ =>
        steady_pure _)

theorem steady_call (operand : Operand) (callee : Expr) : Steady (call operand callee) :=
  steady_current.bind fun _ => (steady_arguments operand).bind fun _ =>
    (steady_siteSince _ _).bind fun _ => steady_pure _

theorem steady_infixRule (operand : Operand) (left : Expr) (power : Power) :
    ∀ rule, Steady (infixRule operand left power rule)
  | .binary => steady_binary operand left power
  | .call => steady_call operand left

end Parse

end ExprLang
