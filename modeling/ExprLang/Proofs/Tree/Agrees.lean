import ExprLang.Proofs.Tree.Consistent
import ExprLang.Proofs.Tree.Each

/-!
# Nodes that agree with their tokens

A consistent tree is one of which every node agrees with its own token
(`Program.Consistent.each`), and so is every row of its outline.
-/

namespace ExprLang

variable {T : Token → Prop}

/-- Does the node by itself agree with its token? -/
def Node.Agrees (T : Token → Prop) : Node → Prop
  | .expr (.identifier id) => id.Consistent T
  | .expr (.integer site value) =>
      T site.token ∧ site.token.kind = .int ∧ Text.integer? site.token.literal = some value
  | .expr (.boolean site value) =>
      T site.token ∧ (site.token.kind = .kwTrue ∨ site.token.kind = .kwFalse) ∧
        value = decide (site.token.kind = .kwTrue)
  | .expr (.unary site operator _) =>
      T site.token ∧ site.token.kind.prefixRule? = some .unary ∧ operator = site.token.literal
  | .expr (.binary site operator _ _) =>
      T site.token ∧ site.token.kind.infixRule? = some .binary ∧ operator = site.token.literal
  | .expr (.conditional site _ _ _) => T site.token ∧ site.token.kind = .kwIf
  | .expr (.function site _ _) => T site.token ∧ site.token.kind = .kwFn
  | .expr (.call site _ _) => T site.token ∧ site.token.kind = .openParen
  | .block (.mk site _) => T site.token ∧ site.token.kind = .openCurly
  | .stmt (.binding site _ _) => T site.token ∧ site.token.kind = .kwLet
  | .stmt (.result site _) => T site.token ∧ site.token.kind = .kwReturn
  | .stmt (.expression site _) => T site.token ∧ site.token.kind.prefixRule?.isSome

mutual

theorem Expr.Consistent.each : ∀ {e : Expr}, e.Consistent T → e.Each (Node.Agrees T)
  | .identifier _, h => h
  | .integer _ _, h => h
  | .boolean _ _, h => h
  | .unary _ _ _, ⟨ht, hk, ho, hr⟩ => ⟨⟨ht, hk, ho⟩, hr.each⟩
  | .binary _ _ _ _, ⟨ht, hk, ho, hl, hr⟩ => ⟨⟨ht, hk, ho⟩, hl.each, hr.each⟩
  | .conditional _ _ _ _, ⟨ht, hk, hc, hb, ha⟩ => ⟨⟨ht, hk⟩, hc.each, hb.each, ha.each⟩
  | .function _ _ _, ⟨ht, hk, hids, hb⟩ => ⟨⟨ht, hk⟩, hids, hb.each⟩
  | .call _ _ _, ⟨ht, hk, hc, hes⟩ => ⟨⟨ht, hk⟩, hc.each, hes.each⟩

theorem Expr.ListConsistent.each :
    ∀ {es : List Expr}, Expr.ListConsistent T es → Expr.EachAll (Node.Agrees T) es
  | [], _ => trivial
  | _ :: _, ⟨he, hes⟩ => ⟨he.each, hes.each⟩

theorem Block.Consistent.each : ∀ {b : Block}, b.Consistent T → b.Each (Node.Agrees T)
  | .mk _ _, ⟨ht, hk, hss⟩ => ⟨⟨ht, hk⟩, hss.each⟩

theorem Block.ElseConsistent.each :
    ∀ {a : Option Block}, Block.ElseConsistent T a → Block.EachElse (Node.Agrees T) a
  | none, _ => trivial
  | some _, h => Block.Consistent.each h

theorem Stmt.Consistent.each : ∀ {s : Stmt}, s.Consistent T → s.Each (Node.Agrees T)
  | .binding _ _ _, ⟨ht, hk, hn, he⟩ => ⟨⟨ht, hk⟩, hn, he.each⟩
  | .result _ _, ⟨ht, hk, he⟩ => ⟨⟨ht, hk⟩, he.each⟩
  | .expression _ _, ⟨ht, hk, he⟩ => ⟨⟨ht, hk⟩, he.each⟩

theorem Stmt.ListConsistent.each :
    ∀ {ss : List Stmt}, Stmt.ListConsistent T ss → Stmt.EachAll (Node.Agrees T) ss
  | [], _ => trivial
  | _ :: _, ⟨hs, hss⟩ => ⟨hs.each, hss.each⟩

end

/-- Every node of a consistent program agrees with its token. -/
theorem Program.Consistent.each {p : Program} (h : p.Consistent T) : p.Each (Node.Agrees T) :=
  Stmt.ListConsistent.each h

end ExprLang
