import ExprLang.Tree.Outline

/-!
# What holds of every node

`Each Q` says that `Q` holds of every node of a tree, the names of bindings and the
parameters of functions among them.  These are the nodes that the outline lists
(`Program.each_iff_outline`).
-/

namespace ExprLang

variable (Q : Node → Prop)

mutual

/-- Does every node of the expression satisfy `Q`? -/
def Expr.Each : Expr → Prop
  | .identifier id => Q (.expr (.identifier id))
  | .integer site value => Q (.expr (.integer site value))
  | .boolean site value => Q (.expr (.boolean site value))
  | .unary site operator right => Q (.expr (.unary site operator right)) ∧ right.Each
  | .binary site operator left right =>
      Q (.expr (.binary site operator left right)) ∧ left.Each ∧ right.Each
  | .conditional site condition consequence alternative =>
      Q (.expr (.conditional site condition consequence alternative)) ∧ condition.Each ∧
        consequence.Each ∧ Block.EachElse alternative
  | .function site parameters body =>
      Q (.expr (.function site parameters body)) ∧
        (∀ id ∈ parameters, Q (.expr (.identifier id))) ∧ body.Each
  | .call site callee arguments =>
      Q (.expr (.call site callee arguments)) ∧ callee.Each ∧ Expr.EachAll arguments

/-- Does every node of the expressions? -/
def Expr.EachAll : List Expr → Prop
  | [] => True
  | e :: es => e.Each ∧ Expr.EachAll es

/-- Does every node of the block? -/
def Block.Each : Block → Prop
  | .mk site body => Q (.block (.mk site body)) ∧ Stmt.EachAll body

/-- Does every node of the block, if there is one? -/
def Block.EachElse : Option Block → Prop
  | none => True
  | some b => b.Each

/-- Does every node of the statement? -/
def Stmt.Each : Stmt → Prop
  | .binding site name value =>
      Q (.stmt (.binding site name value)) ∧ Q (.expr (.identifier name)) ∧ value.Each
  | .result site value => Q (.stmt (.result site value)) ∧ value.Each
  | .expression site value => Q (.stmt (.expression site value)) ∧ value.Each

/-- Does every node of the statements? -/
def Stmt.EachAll : List Stmt → Prop
  | [] => True
  | s :: ss => s.Each ∧ Stmt.EachAll ss

end

/-- Does every node of the program satisfy `Q`? -/
def Program.Each (p : Program) : Prop := Stmt.EachAll Q p.body

variable {Q}

theorem Expr.eachAll_iff {es : List Expr} : Expr.EachAll Q es ↔ ∀ e ∈ es, e.Each Q := by
  induction es with
  | nil => simp [Expr.EachAll]
  | cons e es ih => rw [Expr.EachAll, ih, List.forall_mem_cons]

theorem Stmt.eachAll_iff {ss : List Stmt} : Stmt.EachAll Q ss ↔ ∀ s ∈ ss, s.Each Q := by
  induction ss with
  | nil => simp [Stmt.EachAll]
  | cons s ss ih => rw [Stmt.EachAll, ih, List.forall_mem_cons]

/-! ## The nodes of an outline -/

theorem forall_outlineParameters {ids : List Identifier} {depth : Nat} {tail : List Row} :
    (∀ row ∈ outlineParameters depth ids tail, Q row.node) ↔
      (∀ id ∈ ids, Q (.expr (.identifier id))) ∧ ∀ row ∈ tail, Q row.node := by
  simp only [outlineParameters, List.forall_mem_append, List.forall_mem_map]

mutual

theorem Expr.forall_outline {depth : Nat} {role : Role} {tail : List Row} : ∀ e : Expr,
    (∀ row ∈ e.outline depth role tail, Q row.node) ↔ e.Each Q ∧ ∀ row ∈ tail, Q row.node
  | .identifier _ => List.forall_mem_cons
  | .integer _ _ => List.forall_mem_cons
  | .boolean _ _ => List.forall_mem_cons
  | .unary _ _ right => by
    simp only [Expr.outline, Expr.Each, List.forall_mem_cons, right.forall_outline, and_assoc]
  | .binary _ _ left right => by
    simp only [Expr.outline, Expr.Each, List.forall_mem_cons, left.forall_outline,
      right.forall_outline, and_assoc]
  | .conditional _ condition consequence alternative => by
    simp only [Expr.outline, Expr.Each, List.forall_mem_cons, condition.forall_outline,
      consequence.forall_outline, Block.forall_outlineElse alternative, and_assoc]
  | .function _ _ body => by
    simp only [Expr.outline, Expr.Each, List.forall_mem_cons, forall_outlineParameters,
      body.forall_outline, and_assoc]
  | .call _ callee arguments => by
    simp only [Expr.outline, Expr.Each, List.forall_mem_cons, callee.forall_outline,
      Expr.forall_outlineAll arguments, and_assoc]

theorem Expr.forall_outlineAll {depth : Nat} {tail : List Row} : ∀ es : List Expr,
    (∀ row ∈ Expr.outlineAll depth tail es, Q row.node) ↔
      Expr.EachAll Q es ∧ ∀ row ∈ tail, Q row.node
  | [] => by simp only [Expr.outlineAll, Expr.EachAll, true_and]
  | e :: es => by
    simp only [Expr.outlineAll, Expr.EachAll, e.forall_outline, Expr.forall_outlineAll es,
      and_assoc]

theorem Block.forall_outline {depth : Nat} {role : Role} {tail : List Row} : ∀ b : Block,
    (∀ row ∈ b.outline depth role tail, Q row.node) ↔ b.Each Q ∧ ∀ row ∈ tail, Q row.node
  | .mk _ body => by
    simp only [Block.outline, Block.Each, List.forall_mem_cons, Stmt.forall_outlineAll body,
      and_assoc]

theorem Block.forall_outlineElse {depth : Nat} {tail : List Row} : ∀ a : Option Block,
    (∀ row ∈ Block.outlineElse depth tail a, Q row.node) ↔
      Block.EachElse Q a ∧ ∀ row ∈ tail, Q row.node
  | none => by simp only [Block.outlineElse, Block.EachElse, true_and]
  | some b => b.forall_outline

theorem Stmt.forall_outline {depth : Nat} {tail : List Row} : ∀ s : Stmt,
    (∀ row ∈ s.outline depth tail, Q row.node) ↔ s.Each Q ∧ ∀ row ∈ tail, Q row.node
  | .binding _ _ value => by
    simp only [Stmt.outline, Stmt.Each, List.forall_mem_cons, value.forall_outline, and_assoc]
  | .result _ value => by
    simp only [Stmt.outline, Stmt.Each, List.forall_mem_cons, value.forall_outline, and_assoc]
  | .expression _ value => by
    simp only [Stmt.outline, Stmt.Each, List.forall_mem_cons, value.forall_outline, and_assoc]

theorem Stmt.forall_outlineAll {depth : Nat} {tail : List Row} : ∀ ss : List Stmt,
    (∀ row ∈ Stmt.outlineAll depth tail ss, Q row.node) ↔
      Stmt.EachAll Q ss ∧ ∀ row ∈ tail, Q row.node
  | [] => by simp only [Stmt.outlineAll, Stmt.EachAll, true_and]
  | s :: ss => by
    simp only [Stmt.outlineAll, Stmt.EachAll, s.forall_outline, Stmt.forall_outlineAll ss,
      and_assoc]

end

/-- The nodes of a program are those that its outline lists. -/
theorem Program.each_iff_outline (p : Program) :
    p.Each Q ↔ ∀ row ∈ p.outline, Q row.node := by
  rw [Program.outline, Stmt.forall_outlineAll, Program.Each]
  simp

end ExprLang
