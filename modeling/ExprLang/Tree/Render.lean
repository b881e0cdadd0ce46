import ExprLang.Tree.Basic

/-!
# Trees as text

`render` writes a tree on one line.  An operator and its operands stand in
parentheses of their own, so the text shows how the operators group.  Integers
and booleans are written as their token spells them, and so are the words that
open a binding, a result and a function.  Operators and names are written as the
node has them.  Blocks and programs write their statements one after the other,
with nothing between them.

The lists inside a tree have a function of their own each, which makes the
recursion structural.
-/

namespace ExprLang

/-- Parameters with a comma and a blank between them. -/
def renderParameters (ps : List Identifier) : String := ", ".intercalate (ps.map (·.name))

mutual

/-- An expression as text. -/
def Expr.render : Expr → String
  | .identifier id => id.name
  | .integer site _ => site.token.literal
  | .boolean site _ => site.token.literal
  | .unary _ operator right => "(" ++ operator ++ right.render ++ ")"
  | .binary _ operator left right =>
      "(" ++ left.render ++ " " ++ operator ++ " " ++ right.render ++ ")"
  | .conditional _ condition consequence alternative =>
      "if" ++ condition.render ++ " " ++ consequence.render ++ Block.renderElse alternative
  | .function site parameters body =>
      site.token.literal ++ "(" ++ renderParameters parameters ++ ") " ++ body.render
  | .call _ callee arguments =>
      callee.render ++ "(" ++ Expr.renderArguments arguments ++ ")"

/-- Arguments with a comma and a blank between them. -/
def Expr.renderArguments : List Expr → String
  | [] => ""
  | e :: es => e.render ++ Expr.renderMore es

/-- Arguments, each with a comma and a blank in front. -/
def Expr.renderMore : List Expr → String
  | [] => ""
  | e :: es => ", " ++ e.render ++ Expr.renderMore es

/-- A block as text. -/
def Block.render : Block → String
  | .mk _ body => Stmt.renderAll body

/-- The second branch of a conditional, if it has one. -/
def Block.renderElse : Option Block → String
  | none => ""
  | some b => "else " ++ b.render

/-- A statement as text. -/
def Stmt.render : Stmt → String
  | .binding site name value =>
      site.token.literal ++ " " ++ name.name ++ " = " ++ value.render ++ ";"
  | .result site value => site.token.literal ++ " " ++ value.render ++ ";"
  | .expression _ value => value.render

/-- Statements one after the other. -/
def Stmt.renderAll : List Stmt → String
  | [] => ""
  | s :: ss => s.render ++ Stmt.renderAll ss

end

/-- A program as text. -/
def Program.render (p : Program) : String := Stmt.renderAll p.body

instance : ToString Expr := ⟨Expr.render⟩
instance : ToString Block := ⟨Block.render⟩
instance : ToString Stmt := ⟨Stmt.render⟩
instance : ToString Program := ⟨Program.render⟩

end ExprLang
