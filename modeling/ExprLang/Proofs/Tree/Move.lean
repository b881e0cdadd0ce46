import ExprLang.Tree.Basic

/-!
# Trees without their places

`move h` changes every position in a tree by `h` and nothing else.  Two trees that
are equal once every position has been moved to one place (`unplaced`) have the same
constructors, names, values and operators, and tokens of the same kinds and texts.
-/

namespace ExprLang

/-! ## Tokens and sites -/

/-- The span with its ends moved. -/
def Span.move (h : Position → Position) (s : Span) : Span := ⟨h s.start, h s.stop⟩

/-- The token at the moved place. -/
def Token.move (h : Position → Position) (t : Token) : Token :=
  ⟨t.kind, t.literal, t.span.move h⟩

/-- The site with its token and its span moved. -/
def Site.move (h : Position → Position) (s : Site) : Site := ⟨s.token.move h, s.span.move h⟩

/-- The identifier at the moved place. -/
def Identifier.move (h : Position → Position) (id : Identifier) : Identifier :=
  ⟨id.site.move h, id.name⟩

/-! ## Trees -/

mutual

/-- The expression at the moved place. -/
def Expr.move (h : Position → Position) : Expr → Expr
  | .identifier id => .identifier (id.move h)
  | .integer site value => .integer (site.move h) value
  | .boolean site value => .boolean (site.move h) value
  | .unary site operator right => .unary (site.move h) operator (right.move h)
  | .binary site operator left right =>
      .binary (site.move h) operator (left.move h) (right.move h)
  | .conditional site condition consequence alternative =>
      .conditional (site.move h) (condition.move h) (consequence.move h)
        (Block.moveOption h alternative)
  | .function site parameters body =>
      .function (site.move h) (parameters.map (·.move h)) (body.move h)
  | .call site callee arguments =>
      .call (site.move h) (callee.move h) (Expr.moveList h arguments)

/-- The expressions at their moved places. -/
def Expr.moveList (h : Position → Position) : List Expr → List Expr
  | [] => []
  | e :: es => e.move h :: Expr.moveList h es

/-- The block at the moved place. -/
def Block.move (h : Position → Position) : Block → Block
  | .mk site body => .mk (site.move h) (Stmt.moveList h body)

/-- The block, if there is one, at the moved place. -/
def Block.moveOption (h : Position → Position) : Option Block → Option Block
  | none => none
  | some b => some (b.move h)

/-- The statement at the moved place. -/
def Stmt.move (h : Position → Position) : Stmt → Stmt
  | .binding site name value => .binding (site.move h) (name.move h) (value.move h)
  | .result site value => .result (site.move h) (value.move h)
  | .expression site value => .expression (site.move h) (value.move h)

/-- The statements at their moved places. -/
def Stmt.moveList (h : Position → Position) : List Stmt → List Stmt
  | [] => []
  | s :: ss => s.move h :: Stmt.moveList h ss

end

/-- The program at the moved place. -/
def Program.move (h : Position → Position) (p : Program) : Program :=
  ⟨Stmt.moveList h p.body, p.span.move h⟩

theorem Expr.moveList_eq_map (h : Position → Position) :
    ∀ es : List Expr, Expr.moveList h es = es.map (·.move h)
  | [] => rfl
  | e :: es => congrArg (e.move h :: ·) (Expr.moveList_eq_map h es)

theorem Stmt.moveList_eq_map (h : Position → Position) :
    ∀ ss : List Stmt, Stmt.moveList h ss = ss.map (·.move h)
  | [] => rfl
  | s :: ss => congrArg (s.move h :: ·) (Stmt.moveList_eq_map h ss)

mutual

theorem Expr.move_id : ∀ e : Expr, e.move id = e
  | .identifier _ => rfl
  | .integer _ _ => rfl
  | .boolean _ _ => rfl
  | .unary site operator right => congrArg (Expr.unary site operator) right.move_id
  | .binary site operator left right => by
    show Expr.binary site operator (left.move id) (right.move id) = _
    rw [left.move_id, right.move_id]
  | .conditional site condition consequence alternative => by
    show Expr.conditional site (condition.move id) (consequence.move id)
      (Block.moveOption id alternative) = _
    rw [condition.move_id, consequence.move_id, Block.moveOption_id alternative]
  | .function site parameters body => by
    show Expr.function site (parameters.map id) (body.move id) = _
    rw [List.map_id, body.move_id]
  | .call site callee arguments => by
    show Expr.call site (callee.move id) (Expr.moveList id arguments) = _
    rw [callee.move_id, Expr.moveList_id arguments]

theorem Expr.moveList_id : ∀ es : List Expr, Expr.moveList id es = es
  | [] => rfl
  | e :: es => by rw [Expr.moveList, e.move_id, Expr.moveList_id es]

theorem Block.move_id : ∀ b : Block, b.move id = b
  | .mk site body => congrArg (Block.mk site) (Stmt.moveList_id body)

theorem Block.moveOption_id : ∀ a : Option Block, Block.moveOption id a = a
  | none => rfl
  | some b => congrArg some b.move_id

theorem Stmt.move_id : ∀ s : Stmt, s.move id = s
  | .binding site name value => congrArg (Stmt.binding site name) value.move_id
  | .result site value => congrArg (Stmt.result site) value.move_id
  | .expression site value => congrArg (Stmt.expression site) value.move_id

theorem Stmt.moveList_id : ∀ ss : List Stmt, Stmt.moveList id ss = ss
  | [] => rfl
  | s :: ss => by rw [Stmt.moveList, s.move_id, Stmt.moveList_id ss]

end

/-! ## One place for everything -/

/-- The place that stands for any other. -/
def Position.nowhere : Position := ⟨0, ""⟩

/-- The token without its place. -/
def Token.unplaced (t : Token) : Token := t.move fun _ => .nowhere

/-- The site without its places. -/
def Site.unplaced (s : Site) : Site := s.move fun _ => .nowhere

/-- The identifier without its places. -/
def Identifier.unplaced (id : Identifier) : Identifier := id.move fun _ => .nowhere

/-- The expression without its places. -/
def Expr.unplaced (e : Expr) : Expr := e.move fun _ => .nowhere

/-- The block without its places. -/
def Block.unplaced (b : Block) : Block := b.move fun _ => .nowhere

/-- The statement without its places. -/
def Stmt.unplaced (s : Stmt) : Stmt := s.move fun _ => .nowhere

/-- The program without its places. -/
def Program.unplaced (p : Program) : Program := p.move fun _ => .nowhere

/-- Without their places, tokens are equal that agree in kind and text. -/
theorem Token.unplaced_inj {t u : Token} :
    t.unplaced = u.unplaced ↔ t.kind = u.kind ∧ t.literal = u.literal := by
  simp [Token.unplaced, Token.move, Span.move]

/-- Of a site without its places only the token is left. -/
theorem Site.unplaced_inj {s s' : Site} :
    s.unplaced = s'.unplaced ↔ s.token.unplaced = s'.token.unplaced := by
  simp [Site.unplaced, Site.move, Span.move, Token.unplaced]

section Unplaced

variable {site : Site}

@[simp] theorem Expr.unplaced_identifier (id : Identifier) :
    (Expr.identifier id).unplaced = .identifier id.unplaced := rfl

@[simp] theorem Expr.unplaced_integer (value : Int64) :
    (Expr.integer site value).unplaced = .integer site.unplaced value := rfl

@[simp] theorem Expr.unplaced_boolean (value : Bool) :
    (Expr.boolean site value).unplaced = .boolean site.unplaced value := rfl

@[simp] theorem Expr.unplaced_unary (operator : String) (right : Expr) :
    (Expr.unary site operator right).unplaced =
      .unary site.unplaced operator right.unplaced := rfl

@[simp] theorem Expr.unplaced_binary (operator : String) (left right : Expr) :
    (Expr.binary site operator left right).unplaced =
      .binary site.unplaced operator left.unplaced right.unplaced := rfl

@[simp] theorem Expr.unplaced_conditional (condition : Expr) (b : Block) (a : Option Block) :
    (Expr.conditional site condition b a).unplaced =
      .conditional site.unplaced condition.unplaced b.unplaced (a.map Block.unplaced) := by
  cases a <;> rfl

@[simp] theorem Expr.unplaced_function (ids : List Identifier) (body : Block) :
    (Expr.function site ids body).unplaced =
      .function site.unplaced (ids.map Identifier.unplaced) body.unplaced := rfl

@[simp] theorem Expr.unplaced_call (callee : Expr) (es : List Expr) :
    (Expr.call site callee es).unplaced =
      .call site.unplaced callee.unplaced (es.map Expr.unplaced) :=
  congrArg (Expr.call _ _) (Expr.moveList_eq_map _ es)

@[simp] theorem Block.unplaced_mk (body : List Stmt) :
    (Block.mk site body).unplaced = .mk site.unplaced (body.map Stmt.unplaced) :=
  congrArg (Block.mk _) (Stmt.moveList_eq_map _ body)

@[simp] theorem Stmt.unplaced_binding (name : Identifier) (value : Expr) :
    (Stmt.binding site name value).unplaced =
      .binding site.unplaced name.unplaced value.unplaced := rfl

@[simp] theorem Stmt.unplaced_result (value : Expr) :
    (Stmt.result site value).unplaced = .result site.unplaced value.unplaced := rfl

@[simp] theorem Stmt.unplaced_expression (value : Expr) :
    (Stmt.expression site value).unplaced = .expression site.unplaced value.unplaced := rfl

/-- Programs with the same statements are equal without their places. -/
theorem Program.unplaced_inj {P Q : Program} :
    P.unplaced = Q.unplaced ↔ P.body.map Stmt.unplaced = Q.body.map Stmt.unplaced := by
  simp [Program.unplaced, Program.move, Stmt.moveList_eq_map, Span.move]
  rfl

end Unplaced

end ExprLang
