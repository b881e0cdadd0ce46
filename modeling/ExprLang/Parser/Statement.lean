import ExprLang.Grammar.Rule
import ExprLang.Parser.Step

/-!
# Statements and blocks

The rules for statements leave the expressions in them to an `Operand`, a parse of
expressions that is known to be steady.  So the rules here and those for
expressions need not know each other, and every loop ends.

A block reads statements up to its closing brace.  A statement that fails is
recorded, and the block goes on one token further.  At the end of the source it
fails instead, and so a source that ends inside several blocks is reported once.
-/

namespace ExprLang

open Parse

/-- A steady way to parse an expression whose operators bind tighter than a given
power. -/
structure Operand where
  /-- The parse. -/
  parse : Power → Parse Expr
  /-- It is steady. -/
  steady : ∀ power, Steady (parse power)

namespace Parse

/-! ## Statements -/

/-- A binding `let name = value`, with an optional semicolon. -/
def binding (operand : Operand) : Parse Stmt := do
  let token ← current
  let name ← expect .identifier
  let _ ← expect .assign
  let _ ← advance
  let value ← operand.parse .default
  skipSemicolon
  let site ← siteFrom token
  return .binding site (.ofToken name) value

/-- A result `return value`, with an optional semicolon. -/
def result (operand : Operand) : Parse Stmt := do
  let token ← advance
  let value ← operand.parse .default
  skipSemicolon
  let site ← siteFrom token
  return .result site value

/-- An expression, with an optional semicolon. -/
def expressionStatement (operand : Operand) : Parse Stmt := do
  let token ← current
  let value ← operand.parse .default
  skipSemicolon
  let site ← siteFrom token
  return .expression site value

/-- The rule for a statement. -/
def stmtRule (operand : Operand) : Option StmtRule → Parse Stmt
  | some .binding => binding operand
  | some .result => result operand
  | none => expressionStatement operand

/-- A statement, from its first token to its last. -/
def statement (operand : Operand) : Parse Stmt := do
  let token ← current
  stmtRule operand token.kind.stmtRule?

theorem steady_binding (operand : Operand) : Steady (binding operand) :=
  steady_current.bind fun _ => (steady_expect _).bind fun _ => (steady_expect _).bind
    fun _ => steady_advance.bind fun _ => (operand.steady _).bind fun _ =>
      steady_skipSemicolon.bind fun _ => (steady_siteFrom _).bind fun _ => steady_pure _

theorem steady_result (operand : Operand) : Steady (result operand) :=
  steady_advance.bind fun _ => (operand.steady _).bind fun _ =>
    steady_skipSemicolon.bind fun _ => (steady_siteFrom _).bind fun _ => steady_pure _

theorem steady_expressionStatement (operand : Operand) : Steady (expressionStatement operand) :=
  steady_current.bind fun _ => (operand.steady _).bind fun _ =>
    steady_skipSemicolon.bind fun _ => (steady_siteFrom _).bind fun _ => steady_pure _

theorem steady_stmtRule (operand : Operand) : ∀ rule, Steady (stmtRule operand rule)
  | some .binding => steady_binding operand
  | some .result => steady_result operand
  | none => steady_expressionStatement operand

theorem steady_statement (operand : Operand) : Steady (statement operand) :=
  steady_current.bind fun _ => steady_stmtRule operand _

/-! ## Blocks -/

/-- The statements up to a closing brace, behind those in `done`.  It starts on
the token after the opening brace and ends on the closing one. -/
def moreStatements (operand : Operand) (done : Array Stmt) (p : Parser) : Parsed (Array Stmt) :=
  if p.current.kind = .closeCurly then .ok done p
  else if p.current.kind = .eof then .error (.unexpected .closeCurly p.current) p
  else
    match _h : (statement operand).run p with
    | .ok s q => moreStatements operand (done.push s) q.advance
    | .error d q =>
      if q.current.kind = .eof then .error d q
      else moreStatements operand done (q.record d).advance
termination_by p.remaining
decreasing_by
  · have h := steady_statement operand p
    rw [_h] at h
    exact h.remaining_advance_lt ‹_›
  · have h := steady_statement operand p
    rw [_h] at h
    exact (h.trans (q.leads_record d)).remaining_advance_lt ‹_›

theorem moreStatements_eq (operand : Operand) (done : Array Stmt) (p : Parser) :
    moreStatements operand done p =
      if p.current.kind = .closeCurly then .ok done p
      else if p.current.kind = .eof then .error (.unexpected .closeCurly p.current) p
      else
        match (statement operand).run p with
        | .ok s q => moreStatements operand (done.push s) q.advance
        | .error d q =>
          if q.current.kind = .eof then .error d q
          else moreStatements operand done (q.record d).advance := by
  rw [moreStatements]
  generalize (statement operand).run p = r
  cases r <;> rfl

/-- The statements up to a closing brace. -/
def statements (operand : Operand) : Parse (Array Stmt) := fun p => moreStatements operand #[] p

/-- Statements in braces, from the opening brace to the closing one. -/
def block (operand : Operand) : Parse Block := do
  let token ← advance
  let body ← statements operand
  let site ← siteFrom token
  return .mk site body.toList

theorem leads_moreStatements (operand : Operand) (done : Array Stmt) (p : Parser) :
    p.Leads (Parsed.parser (moreStatements operand done p)) := by
  have hs := steady_statement operand p
  fun_induction moreStatements operand done p with
  | case1 => exact .refl _
  | case2 => exact .refl _
  | case3 done p _ _ s q h ih =>
    rw [h] at hs
    exact (hs.trans q.leads_advance).trans (ih (steady_statement operand _))
  | case4 done p _ _ d q h _ =>
    rw [h] at hs
    exact hs
  | case5 done p _ _ d q h _ ih =>
    rw [h] at hs
    exact ((hs.trans (q.leads_record d)).trans (Parser.leads_advance _)).trans
      (ih (steady_statement operand _))

theorem steady_statements (operand : Operand) : Steady (statements operand) :=
  fun p => leads_moreStatements operand #[] p

theorem steady_block (operand : Operand) : Steady (block operand) :=
  steady_advance.bind fun _ => (steady_statements operand).bind fun _ =>
    (steady_siteFrom _).bind fun _ => steady_pure _

end Parse

end ExprLang
