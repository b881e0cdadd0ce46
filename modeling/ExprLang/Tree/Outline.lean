import ExprLang.Tree.Basic

/-!
# The outline of a tree

The outline of a tree lists its nodes, each before its children and the children
in the order of the source.  A row of the outline gives the depth of a node below
the root, the part it plays in its parent, and the node itself.  A name of a
binding and a parameter of a function are nodes like an identifier in an
expression.

`outline` puts the rows in front of those that follow, which takes one step per
node whatever the shape of the tree.
-/

namespace ExprLang

/-- The part a node plays in its parent. -/
inductive Role where
  | root
  | stmt
  | name
  | value
  | expression
  | left
  | right
  | condition
  | consequence
  | alternative
  | parameter
  | body
  | callee
  | argument
deriving DecidableEq, Repr

/-- A node of a tree. -/
inductive Node where
  | expr (e : Expr)
  | block (b : Block)
  | stmt (s : Stmt)

/-- The site of a node. -/
def Node.site : Node → Site
  | expr e => e.site
  | block b => b.site
  | stmt s => s.site

/-- A node with its depth and its part. -/
structure Row where
  /-- How many parents it has, up to the root. -/
  depth : Nat
  /-- Its part in its parent. -/
  role : Role
  /-- The node. -/
  node : Node

/-- The rows of some parameters, in front of `tail`. -/
def outlineParameters (depth : Nat) (ps : List Identifier) (tail : List Row) : List Row :=
  ps.map (fun id => ⟨depth, .parameter, .expr (.identifier id)⟩) ++ tail

mutual

/-- The rows of an expression, in front of `tail`. -/
def Expr.outline (depth : Nat) (role : Role) (tail : List Row) : Expr → List Row
  | .identifier id => ⟨depth, role, .expr (.identifier id)⟩ :: tail
  | .integer site value => ⟨depth, role, .expr (.integer site value)⟩ :: tail
  | .boolean site value => ⟨depth, role, .expr (.boolean site value)⟩ :: tail
  | .unary site operator right =>
      ⟨depth, role, .expr (.unary site operator right)⟩ ::
        right.outline (depth + 1) .right tail
  | .binary site operator left right =>
      ⟨depth, role, .expr (.binary site operator left right)⟩ ::
        left.outline (depth + 1) .left (right.outline (depth + 1) .right tail)
  | .conditional site condition consequence alternative =>
      ⟨depth, role, .expr (.conditional site condition consequence alternative)⟩ ::
        condition.outline (depth + 1) .condition
          (consequence.outline (depth + 1) .consequence
            (Block.outlineElse (depth + 1) tail alternative))
  | .function site parameters body =>
      ⟨depth, role, .expr (.function site parameters body)⟩ ::
        outlineParameters (depth + 1) parameters (body.outline (depth + 1) .body tail)
  | .call site callee arguments =>
      ⟨depth, role, .expr (.call site callee arguments)⟩ ::
        callee.outline (depth + 1) .callee (Expr.outlineAll (depth + 1) tail arguments)

/-- The rows of some arguments, in front of `tail`. -/
def Expr.outlineAll (depth : Nat) (tail : List Row) : List Expr → List Row
  | [] => tail
  | e :: es => e.outline depth .argument (Expr.outlineAll depth tail es)

/-- The rows of a block, in front of `tail`. -/
def Block.outline (depth : Nat) (role : Role) (tail : List Row) : Block → List Row
  | .mk site body =>
      ⟨depth, role, .block (.mk site body)⟩ :: Stmt.outlineAll (depth + 1) tail body

/-- The rows of a second branch, if there is one, in front of `tail`. -/
def Block.outlineElse (depth : Nat) (tail : List Row) : Option Block → List Row
  | none => tail
  | some b => b.outline depth .alternative tail

/-- The rows of a statement, in front of `tail`. -/
def Stmt.outline (depth : Nat) (tail : List Row) : Stmt → List Row
  | .binding site name value =>
      ⟨depth, .stmt, .stmt (.binding site name value)⟩ ::
        ⟨depth + 1, .name, .expr (.identifier name)⟩ :: value.outline (depth + 1) .value tail
  | .result site value =>
      ⟨depth, .stmt, .stmt (.result site value)⟩ :: value.outline (depth + 1) .value tail
  | .expression site value =>
      ⟨depth, .stmt, .stmt (.expression site value)⟩ ::
        value.outline (depth + 1) .expression tail

/-- The rows of some statements, in front of `tail`. -/
def Stmt.outlineAll (depth : Nat) (tail : List Row) : List Stmt → List Row
  | [] => tail
  | s :: ss => s.outline depth (Stmt.outlineAll depth tail ss)

end

/-- The rows of the statements of a program, at depth one below it. -/
def Program.outline (p : Program) : List Row := Stmt.outlineAll 1 [] p.body

end ExprLang
