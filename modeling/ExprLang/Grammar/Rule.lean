import ExprLang.Grammar.Power

/-!
# Which rule a token calls for

A token in front of an expression picks a *prefix rule*, a token behind an operand
an *infix rule*, and a token in front of a statement a *statement rule*.  A token
without a statement rule starts an expression statement.
-/

namespace ExprLang

/-- How an expression starts. -/
inductive PrefixRule where
  | identifier
  | integer
  | boolean
  /-- An operator in front of its operand. -/
  | unary
  /-- An expression in parentheses. -/
  | group
  | conditional
  | function
deriving DecidableEq, Repr

/-- How an expression goes on behind an operand. -/
inductive InfixRule where
  /-- An operator between its operands. -/
  | binary
  | call
deriving DecidableEq, Repr

/-- How a statement other than an expression statement starts. -/
inductive StmtRule where
  | binding
  | result
deriving DecidableEq, Repr

namespace TokenKind

/-- The rule for an expression that starts with a token, if one can. -/
def prefixRule? : TokenKind → Option PrefixRule
  | identifier => some .identifier
  | int => some .integer
  | kwTrue | kwFalse => some .boolean
  | minus | bang => some .unary
  | openParen => some .group
  | kwIf => some .conditional
  | kwFn => some .function
  | _ => none

/-- The rule for an expression that goes on with a token, if one can. -/
def infixRule? : TokenKind → Option InfixRule
  | plus | minus | asterisk | slash | less | greater | equals | notEquals => some .binary
  | openParen => some .call
  | _ => none

/-- The rule for a statement that starts with a token and is no expression
statement. -/
def stmtRule? : TokenKind → Option StmtRule
  | kwLet => some .binding
  | kwReturn => some .result
  | _ => none

/-- The kinds that call for a prefix rule. -/
def ofPrefixRule : PrefixRule → List TokenKind
  | .identifier => [identifier]
  | .integer => [int]
  | .boolean => [kwTrue, kwFalse]
  | .unary => [minus, bang]
  | .group => [openParen]
  | .conditional => [kwIf]
  | .function => [kwFn]

theorem prefixRule?_eq_some_iff {k : TokenKind} {rule : PrefixRule} :
    k.prefixRule? = some rule ↔ k ∈ ofPrefixRule rule := by
  cases k <;> cases rule <;> decide

theorem infixRule?_eq_call_iff {k : TokenKind} :
    k.infixRule? = some .call ↔ k = openParen := by cases k <;> decide

theorem stmtRule?_eq_binding_iff {k : TokenKind} :
    k.stmtRule? = some .binding ↔ k = kwLet := by cases k <;> decide

theorem stmtRule?_eq_result_iff {k : TokenKind} :
    k.stmtRule? = some .result ↔ k = kwReturn := by cases k <;> decide

/-- An operator between operands binds looser than one in front of its operand. -/
theorem power_lt_unary {k : TokenKind} (h : k.infixRule? = some .binary) : k.power < .unary := by
  cases k <;> first | decide | cases h

/-- A statement rule is for tokens that no expression starts with. -/
theorem stmtRule?_eq_none {k : TokenKind} (h : k.prefixRule?.isSome) : k.stmtRule? = none := by
  cases k <;> first | rfl | cases h

/-- An operand goes on exactly at a token that binds tighter than the loosest
power. -/
theorem infixRule?_isSome_iff (k : TokenKind) : k.infixRule?.isSome ↔ .default < k.power := by
  cases k <;> decide

/-- So a token that binds tighter than any power has a rule. -/
theorem infixRule?_ne_none {k : TokenKind} {p : Power} (h : p < k.power) :
    k.infixRule? ≠ none := by
  have hdefault : Power.default < k.power := Nat.lt_of_le_of_lt (Nat.zero_le _) h
  exact Option.isSome_iff_ne_none.1 ((infixRule?_isSome_iff k).2 hdefault)

end TokenKind

end ExprLang
