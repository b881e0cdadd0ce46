import ExprLang.Grammar.Rule
import ExprLang.Text.Decimal
import ExprLang.Tree.Basic

/-!
# Trees that agree with their tokens

The parts of a node are kept beside its token and need not agree with it.  A tree is
*consistent* if they do: every node has a token of a kind that such a node can have, and
names, values and operators are what that token spells.

The tokens themselves are only asked to satisfy `T`.
-/

namespace ExprLang

variable (T : Token → Prop)

/-- Is it the identifier that some token spells? -/
def Identifier.Consistent (id : Identifier) : Prop :=
  ∃ t, T t ∧ t.kind = .identifier ∧ id = .ofToken t

mutual

/-- Does every node of the expression agree with its token? -/
def Expr.Consistent : Expr → Prop
  | .identifier id => id.Consistent T
  | .integer site value =>
      T site.token ∧ site.token.kind = .int ∧ Text.integer? site.token.literal = some value
  | .boolean site value =>
      T site.token ∧ (site.token.kind = .kwTrue ∨ site.token.kind = .kwFalse) ∧
        value = decide (site.token.kind = .kwTrue)
  | .unary site operator right =>
      T site.token ∧ site.token.kind.prefixRule? = some .unary ∧ operator = site.token.literal ∧
        right.Consistent
  | .binary site operator left right =>
      T site.token ∧ site.token.kind.infixRule? = some .binary ∧
        operator = site.token.literal ∧ left.Consistent ∧ right.Consistent
  | .conditional site condition consequence alternative =>
      T site.token ∧ site.token.kind = .kwIf ∧ condition.Consistent ∧ consequence.Consistent ∧
        Block.ElseConsistent alternative
  | .function site parameters body =>
      T site.token ∧ site.token.kind = .kwFn ∧ (∀ id ∈ parameters, id.Consistent T) ∧
        body.Consistent
  | .call site callee arguments =>
      T site.token ∧ site.token.kind = .openParen ∧ callee.Consistent ∧
        Expr.ListConsistent arguments

/-- Do the expressions agree with their tokens? -/
def Expr.ListConsistent : List Expr → Prop
  | [] => True
  | e :: es => e.Consistent ∧ Expr.ListConsistent es

/-- Does every node of the block agree with its token? -/
def Block.Consistent : Block → Prop
  | .mk site body => T site.token ∧ site.token.kind = .openCurly ∧ Stmt.ListConsistent body

/-- Does the block agree with its tokens, if there is one? -/
def Block.ElseConsistent : Option Block → Prop
  | none => True
  | some b => b.Consistent

/-- Does every node of the statement agree with its token? -/
def Stmt.Consistent : Stmt → Prop
  | .binding site name value =>
      T site.token ∧ site.token.kind = .kwLet ∧ name.Consistent T ∧ value.Consistent
  | .result site value => T site.token ∧ site.token.kind = .kwReturn ∧ value.Consistent
  | .expression site value =>
      T site.token ∧ site.token.kind.prefixRule?.isSome ∧ value.Consistent

/-- Do the statements agree with their tokens? -/
def Stmt.ListConsistent : List Stmt → Prop
  | [] => True
  | s :: ss => s.Consistent ∧ Stmt.ListConsistent ss

end

/-- Does every node of the program agree with its token? -/
def Program.Consistent (p : Program) : Prop := Stmt.ListConsistent T p.body

variable {T}

theorem Expr.listConsistent_iff {es : List Expr} :
    Expr.ListConsistent T es ↔ ∀ e ∈ es, e.Consistent T := by
  induction es with
  | nil => simp [Expr.ListConsistent]
  | cons e es ih => rw [Expr.ListConsistent, ih, List.forall_mem_cons]

theorem Stmt.listConsistent_iff {ss : List Stmt} :
    Stmt.ListConsistent T ss ↔ ∀ s ∈ ss, s.Consistent T := by
  induction ss with
  | nil => simp [Stmt.ListConsistent]
  | cons s ss ih => rw [Stmt.ListConsistent, ih, List.forall_mem_cons]

end ExprLang
