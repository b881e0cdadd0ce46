import ExprLang.Parser.Expression
import ExprLang.Proofs.Tree.Each

/-!
# How a tree is built

`e.Built c d` says that a parse builds the expression `e` on its way from the cursor `c`, which
stands on the first token of `e`, to `d`, which stands on the last.  The judgement follows the
grammar of the language, and every node has the site that the cursors give it.  It speaks of the
places of one source, and so it also holds behind errors: the statements of a block may have
others between them that failed (`Stmt.ListBuilt.dropped`).

What a tree is built of is built itself, on the way (`Expr.Built.each`).
-/

namespace ExprLang

open Parse

/-! ## Building -/

namespace Cursor

/-- The span from the token that `c` stands on to that of `d`. -/
def spanTo (c d : Cursor) : Span := ⟨c.current.span.start, d.current.span.stop⟩

/-- A statement of which the last part is read at `c` is read at `d`, with a semicolon or
without. -/
inductive Closes (c : Cursor) : Cursor → Prop
  | bare : Closes c c
  | semicolon : c.peek.kind = .semicolon → Closes c c.advance

theorem Closes.reaches {c d : Cursor} (h : c.Closes d) : c.Reaches d := by
  cases h with
  | bare => exact .refl c
  | semicolon => exact .advance c

end Cursor

/-- Names with commas between them, of which the first is ahead of the first cursor. -/
inductive Identifier.SomeBuilt : List Identifier → Cursor → Cursor → Prop
  | last {c : Cursor} : c.peek.kind = .identifier → SomeBuilt [.ofToken c.peek] c c.advance
  | more {c d : Cursor} {ids : List Identifier} : c.peek.kind = .identifier →
      SomeBuilt ids c.advance.advance d → SomeBuilt (.ofToken c.peek :: ids) c d

/-- Parameters, from the opening parenthesis to the closing one. -/
inductive Identifier.ListBuilt : List Identifier → Cursor → Cursor → Prop
  | none {c : Cursor} : c.peek.kind = .closeParen → ListBuilt [] c c.advance
  | some {c d : Cursor} {ids : List Identifier} : SomeBuilt ids c d →
      d.peek.kind = .closeParen → ListBuilt ids c d.advance

mutual

/-- An expression is built from its first token to its last. -/
inductive Expr.Built : Expr → Cursor → Cursor → Prop
  | identifier {c : Cursor} : c.current.kind = .identifier →
      Expr.Built (.identifier (.ofToken c.current)) c c
  | integer {c : Cursor} {value : Int64} : c.current.kind = .int →
      Expr.Built (.integer ⟨c.current, c.spanTo c⟩ value) c c
  | boolean {c : Cursor} {value : Bool} : c.current.kind = .kwTrue ∨ c.current.kind = .kwFalse →
      Expr.Built (.boolean ⟨c.current, c.spanTo c⟩ value) c c
  | unary {c d : Cursor} {operator : String} {right : Expr} : right.Built c.advance d →
      Expr.Built (.unary ⟨c.current, c.spanTo d⟩ operator right) c d
  /-- Parentheses leave no node behind. -/
  | group {c d : Cursor} {e : Expr} : e.Built c.advance d → d.peek.kind = .closeParen →
      Expr.Built e c d.advance
  | binary {c d f : Cursor} {operator : String} {left right : Expr} : left.Built c d →
      right.Built d.advance.advance f →
      Expr.Built (.binary ⟨d.peek, ⟨left.site.span.start, f.current.span.stop⟩⟩ operator left right)
        c f
  | conditional {c d f g : Cursor} {condition : Expr} {consequence : Block}
      {alternative : Option Block} : condition.Built c.advance.advance d →
      consequence.Built d.advance.advance f → Block.ElseBuilt alternative f g →
      Expr.Built (.conditional ⟨c.current, c.spanTo g⟩ condition consequence alternative) c g
  | function {c d f : Cursor} {ids : List Identifier} {body : Block} :
      Identifier.ListBuilt ids c.advance d → body.Built d.advance f →
      Expr.Built (.function ⟨c.current, c.spanTo f⟩ ids body) c f
  | call {c d f : Cursor} {callee : Expr} {es : List Expr} : callee.Built c d →
      Expr.ListBuilt es d.advance f →
      Expr.Built (.call ⟨d.peek, ⟨callee.site.span.start, f.current.span.stop⟩⟩ callee es) c f

/-- Arguments are built, from the opening parenthesis to the closing one. -/
inductive Expr.ListBuilt : List Expr → Cursor → Cursor → Prop
  | nil {c : Cursor} : c.peek.kind = .closeParen → Expr.ListBuilt [] c c.advance
  | cons {c d f : Cursor} {e : Expr} {es : List Expr} : e.Built c.advance d →
      Expr.MoreBuilt es d f → f.peek.kind = .closeParen → Expr.ListBuilt (e :: es) c f.advance

/-- Arguments are built that each have a comma in front, the first one ahead of the first
cursor. -/
inductive Expr.MoreBuilt : List Expr → Cursor → Cursor → Prop
  | nil {c : Cursor} : Expr.MoreBuilt [] c c
  | cons {c d f : Cursor} {e : Expr} {es : List Expr} : e.Built c.advance.advance d →
      Expr.MoreBuilt es d f → Expr.MoreBuilt (e :: es) c f

/-- A block is built from its opening brace to its closing one. -/
inductive Block.Built : Block → Cursor → Cursor → Prop
  | mk {c d : Cursor} {ss : List Stmt} : Stmt.ListBuilt ss c.advance d →
      d.current.kind = .closeCurly → Block.Built (.mk ⟨c.current, c.spanTo d⟩ ss) c d

/-- A second branch is built behind the first one, if there is one. -/
inductive Block.ElseBuilt : Option Block → Cursor → Cursor → Prop
  | none {c : Cursor} : Block.ElseBuilt none c c
  | some {c d : Cursor} {b : Block} : b.Built c.advance.advance d →
      Block.ElseBuilt (some b) c d

/-- A statement is built from its first token to its last. -/
inductive Stmt.Built : Stmt → Cursor → Cursor → Prop
  | binding {c d f : Cursor} {e : Expr} : c.peek.kind = .identifier →
      e.Built c.advance.advance.advance d → d.Closes f →
      Stmt.Built (.binding ⟨c.current, c.spanTo f⟩ (.ofToken c.peek) e) c f
  | result {c d f : Cursor} {e : Expr} : e.Built c.advance d → d.Closes f →
      Stmt.Built (.result ⟨c.current, c.spanTo f⟩ e) c f
  | expression {c d f : Cursor} {e : Expr} : e.Built c d → d.Closes f →
      Stmt.Built (.expression ⟨c.current, c.spanTo f⟩ e) c f

/-- Statements are built from the first token on, up to the token behind the last. -/
inductive Stmt.ListBuilt : List Stmt → Cursor → Cursor → Prop
  | nil {c : Cursor} : Stmt.ListBuilt [] c c
  | kept {p q : Parser} {d : Cursor} {s : Stmt} {ss : List Stmt} :
      (statement .full).run p = .ok s q → s.Built p.cursor q.cursor →
      Stmt.ListBuilt ss q.cursor.advance d → Stmt.ListBuilt (s :: ss) p.cursor d
  /-- Tokens are passed over. -/
  | dropped {c d f : Cursor} {ss : List Stmt} : c.Reaches d →
      Stmt.ListBuilt ss d.advance f → Stmt.ListBuilt ss c f

end

/-! ## Building goes on -/

theorem Identifier.SomeBuilt.reaches {ids : List Identifier} {c d : Cursor}
    (h : Identifier.SomeBuilt ids c d) : c.Reaches d := by
  induction h with
  | last => exact .advance _
  | more _ _ ih => exact .step (.step ih)

theorem Identifier.ListBuilt.reaches {ids : List Identifier} {c d : Cursor}
    (h : Identifier.ListBuilt ids c d) : c.Reaches d := by
  cases h with
  | none => exact .advance _
  | some h => exact h.reaches.trans (.advance _)

mutual

theorem Expr.Built.reaches {e : Expr} {c d : Cursor} : e.Built c d → c.Reaches d
  | .identifier _ => .refl _
  | .integer _ => .refl _
  | .boolean _ => .refl _
  | .unary h => .step h.reaches
  | .group h _ => .step (h.reaches.trans (.advance _))
  | .binary hl hr => hl.reaches.trans (.step (.step hr.reaches))
  | .conditional hc hb ha =>
    .step (.step (hc.reaches.trans (.step (.step (hb.reaches.trans ha.reaches)))))
  | .function hids hb => .step (hids.reaches.trans (.step hb.reaches))
  | .call hc hes => hc.reaches.trans (.step hes.reaches)

theorem Expr.ListBuilt.reaches {es : List Expr} {c d : Cursor} :
    Expr.ListBuilt es c d → c.Reaches d
  | .nil _ => .advance _
  | .cons he hes _ => .step (he.reaches.trans (hes.reaches.trans (.advance _)))

theorem Expr.MoreBuilt.reaches {es : List Expr} {c d : Cursor} :
    Expr.MoreBuilt es c d → c.Reaches d
  | .nil => .refl _
  | .cons he hes => .step (.step (he.reaches.trans hes.reaches))

theorem Block.Built.reaches {b : Block} {c d : Cursor} : b.Built c d → c.Reaches d
  | .mk hss _ => .step hss.reaches

theorem Block.ElseBuilt.reaches {a : Option Block} {c d : Cursor} :
    Block.ElseBuilt a c d → c.Reaches d
  | .none => .refl _
  | .some hb => .step (.step hb.reaches)

theorem Stmt.Built.reaches {s : Stmt} {c d : Cursor} : s.Built c d → c.Reaches d
  | .binding _ he hd => .step (.step (.step (he.reaches.trans hd.reaches)))
  | .result he hd => .step (he.reaches.trans hd.reaches)
  | .expression he hd => he.reaches.trans hd.reaches

theorem Stmt.ListBuilt.reaches {ss : List Stmt} {c d : Cursor} :
    Stmt.ListBuilt ss c d → c.Reaches d
  | .nil => .refl _
  | .kept _ hs hss => hs.reaches.trans (.step hss.reaches)
  | .dropped h hss => h.trans (.step hss.reaches)

end

/-! ## The nodes of what is built -/

/-- Is the node built somewhere behind the cursor `c₀`?  A statement is what the rule for
statements gives there. -/
def Node.Built (c₀ : Cursor) : Node → Prop
  | .expr e => ∃ c d, c₀.Reaches c ∧ e.Built c d
  | .block b => ∃ c d, c₀.Reaches c ∧ b.Built c d
  | .stmt s => ∃ p q : Parser, c₀.Reaches p.cursor ∧ (statement .full).run p = .ok s q ∧
      s.Built p.cursor q.cursor

section Each

variable {c₀ c d : Cursor}

/-- A name is an identifier that stands ahead. -/
theorem Node.Built.name (hc : c₀.Reaches c) (hk : c.peek.kind = .identifier) :
    Node.Built c₀ (.expr (.identifier (.ofToken c.peek))) :=
  ⟨c.advance, c.advance, hc.trans (.advance c), Expr.Built.identifier (c := c.advance) hk⟩

theorem Identifier.SomeBuilt.each {ids : List Identifier} (h : Identifier.SomeBuilt ids c d)
    (hc : c₀.Reaches c) : ∀ id ∈ ids, Node.Built c₀ (.expr (.identifier id)) := by
  induction h with
  | last hk => exact List.forall_mem_singleton.2 (.name hc hk)
  | more hk _ ih => exact List.forall_mem_cons.2 ⟨.name hc hk, ih (hc.trans (.step (.advance _)))⟩

theorem Identifier.ListBuilt.each {ids : List Identifier} (h : Identifier.ListBuilt ids c d)
    (hc : c₀.Reaches c) : ∀ id ∈ ids, Node.Built c₀ (.expr (.identifier id)) := by
  cases h with
  | none => exact List.forall_mem_nil _
  | some h => exact h.each hc

mutual

theorem Expr.Built.each {e : Expr} {c d : Cursor} (hc : c₀.Reaches c) :
    e.Built c d → e.Each (Node.Built c₀)
  | .identifier hk => ⟨c, c, hc, .identifier hk⟩
  | .integer hk => ⟨c, c, hc, .integer hk⟩
  | .boolean hk => ⟨c, c, hc, .boolean hk⟩
  | .unary h => ⟨⟨c, d, hc, .unary h⟩, h.each (hc.trans (.advance c))⟩
  | .group h _ => h.each (hc.trans (.advance c))
  | .binary hl hr =>
    ⟨⟨c, d, hc, .binary hl hr⟩, hl.each hc,
      hr.each (hc.trans (hl.reaches.trans (.step (.advance _))))⟩
  | .conditional hcond hb ha =>
    have hc₁ := hc.trans (.step (.advance _))
    have hc₂ := hc₁.trans (hcond.reaches.trans (.step (.advance _)))
    ⟨⟨c, d, hc, .conditional hcond hb ha⟩, hcond.each hc₁, hb.each hc₂,
      ha.each (hc₂.trans hb.reaches)⟩
  | .function hids hb =>
    have hc₁ := hc.trans (.advance c)
    ⟨⟨c, d, hc, .function hids hb⟩, hids.each hc₁,
      hb.each (hc₁.trans (hids.reaches.trans (.advance _)))⟩
  | .call hf hes =>
    ⟨⟨c, d, hc, .call hf hes⟩, hf.each hc, hes.each (hc.trans (hf.reaches.trans (.advance _)))⟩

theorem Expr.ListBuilt.each {es : List Expr} {c d : Cursor} (hc : c₀.Reaches c) :
    Expr.ListBuilt es c d → Expr.EachAll (Node.Built c₀) es
  | .nil _ => trivial
  | .cons he hes _ =>
    have hc₁ := hc.trans (.advance c)
    ⟨he.each hc₁, hes.each (hc₁.trans he.reaches)⟩

theorem Expr.MoreBuilt.each {es : List Expr} {c d : Cursor} (hc : c₀.Reaches c) :
    Expr.MoreBuilt es c d → Expr.EachAll (Node.Built c₀) es
  | .nil => trivial
  | .cons he hes =>
    have hc₁ := hc.trans (.step (.advance _))
    ⟨he.each hc₁, hes.each (hc₁.trans he.reaches)⟩

theorem Block.Built.each {b : Block} {c d : Cursor} (hc : c₀.Reaches c) :
    b.Built c d → b.Each (Node.Built c₀)
  | .mk hss hk => ⟨⟨c, d, hc, .mk hss hk⟩, hss.each (hc.trans (.advance c))⟩

theorem Block.ElseBuilt.each {a : Option Block} {c d : Cursor} (hc : c₀.Reaches c) :
    Block.ElseBuilt a c d → Block.EachElse (Node.Built c₀) a
  | .none => trivial
  | .some hb => hb.each (hc.trans (.step (.advance _)))

/-- The node of the statement itself is given by the loop that the statement is in. -/
theorem Stmt.Built.each {s : Stmt} {c d : Cursor} (hc : c₀.Reaches c)
    (hnode : Node.Built c₀ (.stmt s)) : s.Built c d → s.Each (Node.Built c₀)
  | .binding hk he _ =>
    ⟨hnode, .name hc hk, he.each (hc.trans (.step (.step (.advance _))))⟩
  | .result he _ => ⟨hnode, he.each (hc.trans (.advance c))⟩
  | .expression he _ => ⟨hnode, he.each hc⟩

theorem Stmt.ListBuilt.each {ss : List Stmt} {c d : Cursor} (hc : c₀.Reaches c) :
    Stmt.ListBuilt ss c d → Stmt.EachAll (Node.Built c₀) ss
  | .nil => trivial
  | .kept (p := p) (q := q) hrun hs hss =>
    ⟨hs.each hc ⟨p, q, hc, hrun, hs⟩, hss.each (hc.trans (hs.reaches.trans (.advance _)))⟩
  | .dropped h hss => hss.each (hc.trans (h.trans (.advance _)))

end

end Each

end ExprLang
