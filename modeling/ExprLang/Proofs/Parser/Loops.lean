import ExprLang.Parser.Program
import ExprLang.Proofs.Parser.Success

/-!
# What loops give

Statements, arguments and operators are parsed in loops.  Each member of a list that a loop gives
was given in one of its rounds, on the way from where the loop began to where it ended
(`Parse.GivesBetween`).  So what holds of everything that a round can give holds of all members
(`block_gives`, `arguments_gives`, `Parser.topLevel_gives`).

The loop over the operators gives one expression, which grows round by round.  What every round
keeps holds of it in the end (`operationsFrom_invariant`).
-/

namespace ExprLang

open Parse

namespace Parse

variable {α : Type} {x : Parse α} {a b : α} {operand : Operand} {p q r : Parser}

/-- Does the parse give `a` on the way from `p` to `q`? -/
def GivesBetween (x : Parse α) (p : Parser) (a : α) (q : Parser) : Prop :=
  ∃ r s, p.Leads r ∧ x.run r = .ok a s ∧ s.Leads q

theorem GivesBetween.behind (h : x.GivesBetween q a r) (hp : p.Leads q) : x.GivesBetween p a r := by
  obtain ⟨s, t, hs, ha, ht⟩ := h
  exact ⟨s, t, hp.trans hs, ha, ht⟩

/-- What a later round has added to `done`, or `a` that this round has put at its end. -/
theorem GivesBetween.of_push {done : Array α} (ha : x.GivesBetween p a r) (hp : p.Leads q)
    (h : b ∈ (done.push a).toList ∨ x.GivesBetween q b r) :
    b ∈ done.toList ∨ x.GivesBetween p b r := by
  rw [Array.toList_push, List.mem_append, List.mem_singleton] at h
  rcases h with (hdone | rfl) | hlater
  · exact .inl hdone
  · exact .inr ha
  · exact .inr (hlater.behind hp)

/-! ## Lists -/

/-- The statements of a block are those in `done` and what the rule for statements gives. -/
theorem moreStatements_gives {done body : Array Stmt} {s : Stmt}
    (hb : moreStatements operand done p = .ok body q) (hs : s ∈ body.toList) :
    s ∈ done.toList ∨ (statement operand).GivesBetween p s q := by
  fun_induction moreStatements operand done p with
  | case1 done p hc =>
    cases hb
    exact .inl hs
  | case2 done p hc he => cases hb
  | case3 done p hc he u r hu ih =>
    have hl : p.Leads r := (steady_statement operand p).of_eq hu
    have hrest := (leads_moreStatements operand (done.push u) r.advance).of_eq hb
    exact GivesBetween.of_push ⟨p, r, .refl p, hu, r.leads_advance.trans hrest⟩
      (hl.trans r.leads_advance) (ih hb)
  | case4 done p hc he d r hd hr => cases hb
  | case5 done p hc he d r hd hr ih =>
    have hl : p.Leads r := (steady_statement operand p).of_eq hd
    exact (ih hb).imp_right fun h =>
      h.behind ((hl.trans (r.leads_record d)).trans (Parser.leads_advance _))

theorem block_gives {b : Block} {s : Stmt} (hb : (block operand).run p = .ok b q)
    (hs : s ∈ b.body) : (statement operand).GivesBetween p s q := by
  obtain ⟨body, hm, rfl⟩ := block_eq_ok_iff.1 hb
  have h := (moreStatements_gives hm hs).resolve_left List.not_mem_nil
  exact h.behind p.leads_advance

/-- The arguments of a call are those in `done` and further expressions. -/
theorem moreArguments_gives {done found : Array Expr} {e : Expr}
    (hm : moreArguments operand done p = .ok found q) (he : e ∈ found.toList) :
    e ∈ done.toList ∨ (operand.parse .default).GivesBetween p e q := by
  fun_induction moreArguments operand done p with
  | case1 done p hc f r hf ih =>
    have hl : p.Leads p.advance.advance := p.leads_advance.trans (Parser.leads_advance _)
    have hf' := (operand.steady .default p.advance.advance).of_eq hf
    have hrest := (leads_moreArguments operand (done.push f) r).of_eq hm
    exact GivesBetween.of_push ⟨_, r, hl, hf, hrest⟩ (hl.trans hf') (ih hm)
  | case2 done p hc d r hd => cases hm
  | case3 done p hc =>
    cases hm
    exact .inl he

theorem arguments_gives {es : List Expr} {e : Expr} (ha : (arguments operand).run p = .ok es q)
    (he : e ∈ es) : (operand.parse .default).GivesBetween p e q := by
  rcases arguments_eq_ok_iff.1 ha with ⟨-, rfl, -⟩ | ⟨-, f, r, hf, found, s, hm, -, rfl, rfl⟩
  · cases he
  · have hl := (operand.steady .default p.advance).of_eq hf
    have hrest := (leads_moreArguments operand #[f] r).of_eq hm
    rcases moreArguments_gives hm he with hfirst | hlater
    · rw [List.mem_singleton.1 hfirst]
      exact ⟨_, r, p.leads_advance, hf, hrest.trans s.leads_advance⟩
    · obtain ⟨t, u, ht, he, hu⟩ := hlater.behind (p.leads_advance.trans hl)
      exact ⟨t, u, ht, he, hu.trans s.leads_advance⟩

/-! ## Operators -/

/-- What every round of the loop over the operators keeps holds where the loop ends.  There the
token ahead binds no tighter than the power, for a token that binds tighter has a rule. -/
theorem operationsFrom_invariant {power : Power} {left e : Expr} {I : Expr → Parser → Prop}
    (hround : ∀ {left e : Expr} {rule : InfixRule} {p q : Parser}, I left p →
      power < p.peek.kind.power → p.peek.kind.infixRule? = some rule →
      (infixRule operand left p.peek.kind.power rule).run p.advance = .ok e q → I e q)
    (h : I left p) (he : operationsFrom operand power left p = .ok e q) :
    I e q ∧ q.peek.kind.power ≤ power := by
  fun_induction operationsFrom operand power left p with
  | case1 left p hlt hrule => exact absurd hrule (TokenKind.infixRule?_ne_none hlt)
  | case2 left p hlt rule hrule f r hr ih => exact ih (hround h hlt hrule hr) he
  | case3 left p hlt rule hrule d r hr => cases he
  | case4 left p hlt =>
    cases he
    exact ⟨h, Power.not_lt.1 hlt⟩

end Parse

namespace Parser

/-- The statements of a program are those in `done` and what the rule for statements gives. -/
theorem topLevel_gives {done : Array Stmt} {p : Parser} {s : Stmt}
    (hs : s ∈ (topLevel done p).1.toList) :
    s ∈ done.toList ∨ (statement .full).GivesBetween p s (topLevel done p).2 := by
  fun_induction topLevel done p with
  | case1 done p hc => exact .inl hs
  | case2 done p hc u r hu ih =>
    have hl : p.Leads r := (steady_statement .full p).of_eq hu
    have hrest := leads_topLevel (done.push u) r.advance
    exact GivesBetween.of_push ⟨p, r, .refl p, hu, r.leads_advance.trans hrest⟩
      (hl.trans r.leads_advance) (ih hs)
  | case3 done p hc d r hd ih =>
    have hl : p.Leads r := (steady_statement .full p).of_eq hd
    exact (ih hs).imp_right fun h =>
      h.behind ((hl.trans (r.leads_record d)).trans (leads_advance _))

end Parser

end ExprLang
