import ExprLang.Tree.Outline

/-!
# Statements inside a node

Blocks hold statements, and so statements stand inside expressions and other statements, at
any depth.  `inner` counts them, without the node itself, and it counts just the rows of an
outline that are statements (`Program.countP_outline`).
-/

namespace ExprLang

/-- Is it a statement? -/
def Node.isStmt : Node → Bool
  | stmt _ => true
  | _ => false

@[simp] theorem Node.isStmt_expr (e : Expr) : (expr e).isStmt = false := rfl

@[simp] theorem Node.isStmt_block (b : Block) : (block b).isStmt = false := rfl

@[simp] theorem Node.isStmt_stmt (s : Stmt) : (stmt s).isStmt = true := rfl

mutual

/-- How many statements stand inside an expression? -/
def Expr.inner : Expr → Nat
  | .identifier _ => 0
  | .integer _ _ => 0
  | .boolean _ _ => 0
  | .unary _ _ right => right.inner
  | .binary _ _ left right => left.inner + right.inner
  | .conditional _ condition consequence alternative =>
      condition.inner + consequence.inner + Block.innerElse alternative
  | .function _ _ body => body.inner
  | .call _ callee arguments => callee.inner + Expr.innerAll arguments

/-- How many inside some expressions? -/
def Expr.innerAll : List Expr → Nat
  | [] => 0
  | e :: es => e.inner + Expr.innerAll es

/-- How many inside a block? -/
def Block.inner : Block → Nat
  | .mk _ body => Stmt.countAll body

/-- How many inside a second branch, if there is one? -/
def Block.innerElse : Option Block → Nat
  | none => 0
  | some b => b.inner

/-- How many inside a statement? -/
def Stmt.inner : Stmt → Nat
  | .binding _ _ value => value.inner
  | .result _ value => value.inner
  | .expression _ value => value.inner

/-- How many are some statements, with those inside them? -/
def Stmt.countAll : List Stmt → Nat
  | [] => 0
  | s :: ss => s.inner + 1 + Stmt.countAll ss

end

theorem Expr.innerAll_append (es fs : List Expr) :
    Expr.innerAll (es ++ fs) = Expr.innerAll es + Expr.innerAll fs := by
  induction es with
  | nil => simp [Expr.innerAll]
  | cons e es ih => simp [Expr.innerAll, ih, Nat.add_assoc]

theorem Stmt.countAll_append (ss us : List Stmt) :
    Stmt.countAll (ss ++ us) = Stmt.countAll ss + Stmt.countAll us := by
  induction ss with
  | nil => simp [Stmt.countAll]
  | cons s ss ih => simp [Stmt.countAll, ih, Nat.add_assoc]

/-- One more argument. -/
@[simp] theorem Expr.innerAll_push (es : Array Expr) (e : Expr) :
    Expr.innerAll (es.push e).toList = Expr.innerAll es.toList + e.inner := by
  rw [Array.toList_push, Expr.innerAll_append]
  rfl

/-- One more statement. -/
@[simp] theorem Stmt.countAll_push (ss : Array Stmt) (s : Stmt) :
    Stmt.countAll (ss.push s).toList = Stmt.countAll ss.toList + (s.inner + 1) := by
  rw [Array.toList_push, Stmt.countAll_append]
  rfl

/-! ## Statements in an outline -/

theorem countP_outlineParameters (depth : Nat) (ids : List Identifier) (tail : List Row) :
    (outlineParameters depth ids tail).countP (·.node.isStmt) = tail.countP (·.node.isStmt) := by
  induction ids with
  | nil => rfl
  | cons id ids ih => rw [← ih]; exact List.countP_cons_of_neg Bool.false_ne_true

mutual

theorem Expr.countP_outline (depth : Nat) (role : Role) (tail : List Row) : ∀ e : Expr,
    (e.outline depth role tail).countP (·.node.isStmt) = e.inner + tail.countP (·.node.isStmt)
  | .identifier _ => by simp [Expr.outline, Expr.inner]
  | .integer _ _ => by simp [Expr.outline, Expr.inner]
  | .boolean _ _ => by simp [Expr.outline, Expr.inner]
  | .unary _ _ right => by
    simp [Expr.outline, Expr.inner, right.countP_outline]
  | .binary _ _ left right => by
    simp [Expr.outline, Expr.inner, left.countP_outline, right.countP_outline,
      Nat.add_assoc]
  | .conditional _ condition consequence alternative => by
    simp [Expr.outline, Expr.inner, condition.countP_outline,
      consequence.countP_outline, Block.countP_outlineElse _ _ alternative, Nat.add_assoc]
  | .function _ _ body => by
    simp [Expr.outline, Expr.inner, countP_outlineParameters, body.countP_outline]
  | .call _ callee arguments => by
    simp [Expr.outline, Expr.inner, callee.countP_outline,
      Expr.countP_outlineAll _ _ arguments, Nat.add_assoc]

theorem Expr.countP_outlineAll (depth : Nat) (tail : List Row) : ∀ es : List Expr,
    (Expr.outlineAll depth tail es).countP (·.node.isStmt) =
      Expr.innerAll es + tail.countP (·.node.isStmt)
  | [] => by simp [Expr.outlineAll, Expr.innerAll]
  | e :: es => by
    simp [Expr.outlineAll, Expr.innerAll, e.countP_outline, Expr.countP_outlineAll _ _ es,
      Nat.add_assoc]

theorem Block.countP_outline (depth : Nat) (role : Role) (tail : List Row) : ∀ b : Block,
    (b.outline depth role tail).countP (·.node.isStmt) = b.inner + tail.countP (·.node.isStmt)
  | .mk _ body => by
    simp [Block.outline, Block.inner, Stmt.countP_outlineAll _ _ body]

theorem Block.countP_outlineElse (depth : Nat) (tail : List Row) : ∀ a : Option Block,
    (Block.outlineElse depth tail a).countP (·.node.isStmt) =
      Block.innerElse a + tail.countP (·.node.isStmt)
  | none => by simp [Block.outlineElse, Block.innerElse]
  | some b => b.countP_outline depth .alternative tail

theorem Stmt.countP_outline (depth : Nat) (tail : List Row) : ∀ s : Stmt,
    (s.outline depth tail).countP (·.node.isStmt) = s.inner + 1 + tail.countP (·.node.isStmt)
  | .binding _ _ value => by
    simp [Stmt.outline, Stmt.inner, List.countP_cons, value.countP_outline, Nat.add_right_comm]
  | .result _ value => by
    simp [Stmt.outline, Stmt.inner, List.countP_cons, value.countP_outline, Nat.add_right_comm]
  | .expression _ value => by
    simp [Stmt.outline, Stmt.inner, List.countP_cons, value.countP_outline, Nat.add_right_comm]

theorem Stmt.countP_outlineAll (depth : Nat) (tail : List Row) : ∀ ss : List Stmt,
    (Stmt.outlineAll depth tail ss).countP (·.node.isStmt) =
      Stmt.countAll ss + tail.countP (·.node.isStmt)
  | [] => by simp [Stmt.outlineAll, Stmt.countAll]
  | s :: ss => by
    simp [Stmt.outlineAll, Stmt.countAll, s.countP_outline, Stmt.countP_outlineAll _ _ ss,
      Nat.add_assoc]

end

/-- The statements of a program, at any depth, are those that its outline lists. -/
theorem Program.countP_outline (p : Program) :
    p.outline.countP (·.node.isStmt) = Stmt.countAll p.body := by
  rw [Program.outline, Stmt.countP_outlineAll, List.countP_nil, Nat.add_zero]

end ExprLang
