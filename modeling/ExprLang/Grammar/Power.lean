import ExprLang.Token.Kind

/-!
# Binding power

How tightly an operator holds its operands.  Powers are ordered by their rank.
`TokenKind.power` is the power of a token behind an operand, and a token that
continues no expression has the lowest one.
-/

namespace ExprLang

/-- How tightly an operator binds, the loosest first. -/
inductive Power where
  | default
  | equals
  | lessGreater
  | sum
  | product
  | unary
  | call
deriving DecidableEq, Repr, Inhabited

namespace Power

/-- The place of a power in the order. -/
def rank : Power → Nat
  | default => 0
  | equals => 1
  | lessGreater => 2
  | sum => 3
  | product => 4
  | unary => 5
  | call => 6

instance : LT Power := ⟨fun p q => p.rank < q.rank⟩
instance : LE Power := ⟨fun p q => p.rank ≤ q.rank⟩
instance : DecidableLT Power := fun p q => inferInstanceAs (Decidable (p.rank < q.rank))
instance : DecidableLE Power := fun p q => inferInstanceAs (Decidable (p.rank ≤ q.rank))

theorem lt_def {p q : Power} : p < q ↔ p.rank < q.rank := Iff.rfl

theorem le_def {p q : Power} : p ≤ q ↔ p.rank ≤ q.rank := Iff.rfl

theorem rank_inj {p q : Power} : p.rank = q.rank ↔ p = q := by cases p <;> cases q <;> decide

theorem not_lt {p q : Power} : ¬ p < q ↔ q ≤ p := Nat.not_lt

theorem le_default {p : Power} (h : p ≤ default) : p = default :=
  rank_inj.1 (Nat.le_zero.1 h)

theorem lt_of_lt_of_le {p q r : Power} (h : p < q) (k : q ≤ r) : p < r := Nat.lt_of_lt_of_le h k

theorem le_of_lt {p q : Power} (h : p < q) : p ≤ q := Nat.le_of_lt h

theorem le_trans {p q r : Power} (h : p ≤ q) (k : q ≤ r) : p ≤ r := Nat.le_trans h k

theorem le_refl (p : Power) : p ≤ p := Nat.le_refl _

/-- A call binds tightest. -/
theorem le_call (p : Power) : p ≤ call := by cases p <;> decide

theorem eq_call {p : Power} (h : call ≤ p) : p = call :=
  rank_inj.1 (Nat.le_antisymm (le_call p) h)

/-- Only a call binds tighter than a prefix operator. -/
theorem unary_le {p : Power} (h : unary ≤ p) : p = unary ∨ p = call := by
  cases p <;> first | exact .inl rfl | exact .inr rfl | exact absurd h (by decide)

/-- The name of a power. -/
def name : Power → String
  | default => "Default"
  | equals => "Equals"
  | lessGreater => "LessGreater"
  | sum => "Sum"
  | product => "Product"
  | unary => "Prefix"
  | call => "Call"

instance : ToString Power := ⟨name⟩

/-- Every power once, the loosest first. -/
def all : List Power := [default, equals, lessGreater, sum, product, unary, call]

theorem mem_all (p : Power) : p ∈ all := by cases p <;> decide

/-- The power with a given name. -/
def ofName? (s : String) : Option Power := all.find? fun p => p.name == s

end Power

/-- The power of a token that stands behind an operand. -/
def TokenKind.power : TokenKind → Power
  | equals | notEquals => .equals
  | less | greater => .lessGreater
  | plus | minus => .sum
  | asterisk | slash => .product
  | openParen => .call
  | _ => .default

/-- Nothing binds tighter at the end of the source. -/
theorem TokenKind.ne_eof_of_lt_power {k : TokenKind} {p : Power} (h : p < k.power) : k ≠ .eof := by
  rintro rfl
  exact Nat.not_lt_zero _ h

end ExprLang
