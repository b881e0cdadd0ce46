import ExprLang.Token.Basic

/-!
# Syntax trees

A program is a list of statements.  A statement binds a name, gives a result or
evaluates an expression.  Conditionals and functions hold blocks, and a block is
a list of statements again.

Every node has a `Site`: the token it was read from and the stretch of source it
covers.  Operators, names and values are kept beside the token and need not agree
with it, for a tree can be built without a source.
-/

namespace ExprLang

/-- The token of a node and the stretch of source the node covers. -/
structure Site where
  /-- The token that tells what the node is. -/
  token : Token
  /-- What the node covers. -/
  span : Span
deriving DecidableEq, Repr, Inhabited

/-- A name in the source. -/
structure Identifier where
  /-- Where it stands. -/
  site : Site
  /-- The name. -/
  name : String
deriving DecidableEq, Repr, Inhabited

/-- The identifier a token spells. -/
def Identifier.ofToken (t : Token) : Identifier := ⟨⟨t, t.span⟩, t.literal⟩

mutual

/-- An expression. -/
inductive Expr where
  | identifier (id : Identifier)
  | integer (site : Site) (value : Int64)
  | boolean (site : Site) (value : Bool)
  /-- An operator in front of its operand. -/
  | unary (site : Site) (operator : String) (right : Expr)
  /-- An operator between its operands. -/
  | binary (site : Site) (operator : String) (left right : Expr)
  /-- A condition with one or two branches. -/
  | conditional (site : Site) (condition : Expr) (consequence : Block)
      (alternative : Option Block)
  | function (site : Site) (parameters : List Identifier) (body : Block)
  | call (site : Site) (callee : Expr) (arguments : List Expr)

/-- Statements in braces. -/
inductive Block where
  | mk (site : Site) (body : List Stmt)

/-- A statement. -/
inductive Stmt where
  /-- A name bound to a value. -/
  | binding (site : Site) (name : Identifier) (value : Expr)
  /-- The result of the enclosing function. -/
  | result (site : Site) (value : Expr)
  /-- An expression by itself. -/
  | expression (site : Site) (value : Expr)

end

instance : Inhabited Expr := ⟨.identifier default⟩
instance : Inhabited Block := ⟨⟨default, []⟩⟩
instance : Inhabited Stmt := ⟨.expression default default⟩

/-- A whole source. -/
structure Program where
  /-- Its statements in order. -/
  body : List Stmt
  /-- What it covers. -/
  span : Span
deriving Inhabited

/-! ## Sites -/

/-- The site of an expression. -/
def Expr.site : Expr → Site
  | identifier id => id.site
  | integer site _ => site
  | boolean site _ => site
  | unary site _ _ => site
  | binary site _ _ _ => site
  | conditional site _ _ _ => site
  | function site _ _ => site
  | call site _ _ => site

/-- The site of a block. -/
def Block.site : Block → Site
  | mk site _ => site

/-- The statements of a block in order. -/
def Block.body : Block → List Stmt
  | mk _ body => body

/-- The site of a statement. -/
def Stmt.site : Stmt → Site
  | binding site _ _ => site
  | result site _ => site
  | expression site _ => site

/-- The text of the token of the first statement, if there is one. -/
def Program.literal (p : Program) : String :=
  match p.body with
  | [] => ""
  | s :: _ => s.site.token.literal

end ExprLang
