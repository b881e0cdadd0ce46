import ExprLang.Proofs.Grammar.Written

/-!
# Writings at other places

Whether tokens write a tree depends on their kinds and their texts only.  Tokens that
agree with a writing except for their places write the same tree except for its places
(`Program.Written.replaced`).
-/

namespace ExprLang

/-! ## Tokens that agree -/

/-- Do tokens agree except for their places? -/
def Token.Agree (ts us : List Token) : Prop := us.map Token.unplaced = ts.map Token.unplaced

instance (ts us : List Token) : Decidable (Token.Agree ts us) :=
  inferInstanceAs (Decidable (_ = _))

namespace Token.Agree

variable {t : Token} {ts us vs : List Token}

theorem nil (h : Token.Agree [] us) : us = [] := List.map_eq_nil_iff.1 h

theorem cons (h : Token.Agree (t :: ts) us) :
    ∃ u vs, us = u :: vs ∧ u.unplaced = t.unplaced ∧ Token.Agree ts vs :=
  List.map_eq_cons_iff.1 h

theorem append (h : Token.Agree (ts ++ vs) us) :
    ∃ us₁ us₂, us = us₁ ++ us₂ ∧ Token.Agree ts us₁ ∧ Token.Agree vs us₂ := by
  rw [Token.Agree, List.map_append] at h
  exact List.map_eq_append_iff.1 h

/-- Tokens that agree give sites that differ in their places only. -/
theorem site (h : Token.Agree ts us) :
    (Site.ofTokens us).unplaced = (Site.ofTokens ts).unplaced := by
  rw [Site.unplaced_inj]
  cases ts with
  | nil => rw [h.nil]
  | cons t ts =>
    obtain ⟨u, vs, rfl, hu, -⟩ := h.cons
    exact hu

theorem head? (h : Token.Agree ts us) {u : Token} (hu : u ∈ us.head?) :
    ∃ t ∈ ts.head?, u.kind = t.kind := by
  cases ts with
  | nil =>
    rw [h.nil] at hu
    cases hu
  | cons t ts =>
    obtain ⟨v, vs, rfl, hv, -⟩ := h.cons
    cases hu
    exact ⟨t, rfl, (Token.unplaced_inj.1 hv).1⟩

end Token.Agree

theorem Token.kind_eq {t u : Token} (h : u.unplaced = t.unplaced) : u.kind = t.kind :=
  (Token.unplaced_inj.1 h).1

theorem Token.literal_eq {t u : Token} (h : u.unplaced = t.unplaced) : u.literal = t.literal :=
  (Token.unplaced_inj.1 h).2

theorem Identifier.unplaced_ofToken {t u : Token} (h : u.unplaced = t.unplaced) :
    (Identifier.ofToken u).unplaced = (Identifier.ofToken t).unplaced := by
  show (⟨Site.unplaced _, u.literal⟩ : Identifier) = ⟨Site.unplaced _, t.literal⟩
  rw [Token.literal_eq h, Site.unplaced_inj.2 (show (Identifier.ofToken u).site.token.unplaced =
    (Identifier.ofToken t).site.token.unplaced from h)]

/-! ## Trees that agree -/

theorem Identifier.MoreWritten.replaced {ids : List Identifier} {ts us : List Token}
    (h : MoreWritten ids ts) (ha : Token.Agree ts us) :
    ∃ ids', MoreWritten ids' us ∧
      ids'.map Identifier.unplaced = ids.map Identifier.unplaced := by
  induction h generalizing us with
  | nil =>
    rw [ha.nil]
    exact ⟨[], .nil, rfl⟩
  | cons hc ht _ ih =>
    obtain ⟨c, vs, rfl, hcu, ha⟩ := ha.cons
    obtain ⟨u, ws, rfl, hu, ha⟩ := ha.cons
    obtain ⟨ids', hw, hids⟩ := ih ha
    refine ⟨.ofToken u :: ids',
      .cons ((Token.kind_eq hcu).trans hc) ((Token.kind_eq hu).trans ht) hw, ?_⟩
    rw [List.map_cons, List.map_cons, hids, Identifier.unplaced_ofToken hu]

theorem Identifier.ListWritten.replaced {ids : List Identifier} {ts us : List Token}
    (h : ListWritten ids ts) (ha : Token.Agree ts us) :
    ∃ ids', ListWritten ids' us ∧
      ids'.map Identifier.unplaced = ids.map Identifier.unplaced := by
  cases h with
  | nil =>
    rw [ha.nil]
    exact ⟨[], .nil, rfl⟩
  | cons ht hw =>
    obtain ⟨u, ws, rfl, hu, ha⟩ := ha.cons
    obtain ⟨ids', hw, hids⟩ := hw.replaced ha
    refine ⟨.ofToken u :: ids', .cons ((Token.kind_eq hu).trans ht) hw, ?_⟩
    rw [List.map_cons, List.map_cons, hids, Identifier.unplaced_ofToken hu]

/-- A semicolon, or the lack of one, at another place. -/
theorem Token.Agree.semicolon {semicolon? : Option Token} {us : List Token}
    (hk : ∀ t ∈ semicolon?, t.kind = .semicolon) (ha : Token.Agree semicolon?.toList us) :
    ∃ other? : Option Token, us = other?.toList ∧ (∀ t ∈ other?, t.kind = .semicolon) ∧
      (other? = none → semicolon? = none) := by
  cases semicolon? with
  | none =>
    rw [ha.nil]
    exact ⟨none, rfl, by simp, fun _ => rfl⟩
  | some t =>
    obtain ⟨u, vs, rfl, hu, ha⟩ := ha.cons
    rw [ha.nil]
    exact ⟨some u, rfl, by simpa using (Token.kind_eq hu).trans (hk t rfl), by simp⟩

mutual

/-- Tokens that agree with a writing write an expression that differs in its places
only. -/
theorem Expr.Written.replaced {e : Expr} {ts : List Token} {top : Power} {n : Nat} :
    e.Written ts top n → ∀ {us : List Token}, Token.Agree ts us →
      ∃ e', Expr.Written e' us top n ∧ e'.unplaced = e.unplaced
  | .identifier ht, us, ha => by
      obtain ⟨u, vs, rfl, hu, ha⟩ := ha.cons
      rw [ha.nil]
      refine ⟨_, .identifier ((Token.kind_eq hu).trans ht), ?_⟩
      simp [Identifier.unplaced_ofToken hu]
  | .integer ht hv, us, ha => by
      obtain ⟨u, vs, rfl, hu, ha⟩ := ha.cons
      rw [ha.nil]
      refine ⟨_, .integer ((Token.kind_eq hu).trans ht) (Token.literal_eq hu ▸ hv), ?_⟩
      simp [Site.unplaced_inj, hu]
  | .boolean ht, us, ha => by
      obtain ⟨u, vs, rfl, hu, ha⟩ := ha.cons
      rw [ha.nil]
      refine ⟨_, .boolean (Token.kind_eq hu ▸ ht), ?_⟩
      simp [Site.unplaced_inj, hu, Token.kind_eq hu]
  | .unary ho hr htop, us, ha => by
      have hs := ha.site
      obtain ⟨u, vs, rfl, hu, ha⟩ := ha.cons
      obtain ⟨right, hw, hr⟩ := hr.replaced ha
      refine ⟨_, .unary (Token.kind_eq hu ▸ ho) hw htop, ?_⟩
      simp [hs, hr, Token.literal_eq hu]
  | .group ho he hc, us, ha => by
      obtain ⟨o, vs, rfl, hou, ha⟩ := ha.cons
      obtain ⟨ws, cs, rfl, hws, hcs⟩ := ha.append
      obtain ⟨c, cs, rfl, hcu, hcs⟩ := hcs.cons
      obtain ⟨e', hw, he⟩ := he.replaced hws
      rw [hcs.nil]
      exact ⟨e', .group ((Token.kind_eq hou).trans ho) hw ((Token.kind_eq hcu).trans hc), he⟩
  | .binary (o := o) hl ho hr hlt hgt, us, ha => by
      obtain ⟨vs, ws, rfl, hvs, hws⟩ := ha.append
      obtain ⟨o', ws, rfl, hou, hws⟩ := hws.cons
      obtain ⟨left, hwl, hl⟩ := hl.replaced hvs
      obtain ⟨right, hwr, hr⟩ := hr.replaced hws
      rw [← Token.kind_eq hou] at ho hlt hgt ⊢
      refine ⟨_, .binary hwl ho hwr hlt hgt, ?_⟩
      simp [Site.unplaced_inj, hou, hl, hr, Token.literal_eq hou]
  | .conditional hk ho he hc hb hels, us, ha => by
      have hs := ha.site
      obtain ⟨k, vs, rfl, hku, ha⟩ := ha.cons
      obtain ⟨o, vs, rfl, hou, ha⟩ := ha.cons
      obtain ⟨vs, ws, rfl, hvs, ha⟩ := ha.append
      obtain ⟨c, ws, rfl, hcu, ha⟩ := ha.cons
      obtain ⟨ws, xs, rfl, hws, hxs⟩ := ha.append
      obtain ⟨e', hwe, he⟩ := he.replaced hvs
      obtain ⟨b', hwb, hb⟩ := hb.replaced hws
      obtain ⟨a', hwa, ha⟩ := hels.replaced hxs
      refine ⟨_, .conditional ((Token.kind_eq hku).trans hk) ((Token.kind_eq hou).trans ho) hwe
        ((Token.kind_eq hcu).trans hc) hwb hwa, ?_⟩
      simp [hs, he, hb, ha]
  | .function hk ho hi hc hb, us, ha => by
      have hs := ha.site
      obtain ⟨k, vs, rfl, hku, ha⟩ := ha.cons
      obtain ⟨o, vs, rfl, hou, ha⟩ := ha.cons
      obtain ⟨vs, ws, rfl, hvs, ha⟩ := ha.append
      obtain ⟨c, ws, rfl, hcu, hws⟩ := ha.cons
      obtain ⟨ids, hwi, hi⟩ := hi.replaced hvs
      obtain ⟨b', hwb, hb⟩ := hb.replaced hws
      refine ⟨_, .function ((Token.kind_eq hku).trans hk) ((Token.kind_eq hou).trans ho) hwi
        ((Token.kind_eq hcu).trans hc) hwb, ?_⟩
      simp [hs, hi, hb]
  | .call hf ho hes hc, us, ha => by
      obtain ⟨vs, ws, rfl, hvs, ha⟩ := ha.append
      obtain ⟨o, ws, rfl, hou, ha⟩ := ha.cons
      obtain ⟨ws, cs, rfl, hws, hcs⟩ := ha.append
      obtain ⟨c, cs, rfl, hcu, hcs⟩ := hcs.cons
      obtain ⟨callee, hwf, hf⟩ := hf.replaced hvs
      obtain ⟨es, hwes, hes⟩ := hes.replaced hws
      rw [hcs.nil]
      refine ⟨_, .call hwf ((Token.kind_eq hou).trans ho) hwes ((Token.kind_eq hcu).trans hc), ?_⟩
      simp [Site.unplaced_inj, hou, hf, hes]

theorem Expr.ListWritten.replaced {es : List Expr} {ts : List Token} {n : Nat} :
    Expr.ListWritten es ts n → ∀ {us : List Token}, Token.Agree ts us →
      ∃ es', Expr.ListWritten es' us n ∧ es'.map Expr.unplaced = es.map Expr.unplaced
  | .nil, us, ha => by
      rw [ha.nil]
      exact ⟨[], .nil, rfl⟩
  | .cons he hes, us, ha => by
      obtain ⟨vs, ws, rfl, hvs, hws⟩ := ha.append
      obtain ⟨e', hwe, he⟩ := he.replaced hvs
      obtain ⟨es', hwes, hes⟩ := hes.replaced hws
      exact ⟨e' :: es', .cons hwe hwes, by simp [he, hes]⟩

theorem Expr.MoreWritten.replaced {es : List Expr} {ts : List Token} {n : Nat} :
    Expr.MoreWritten es ts n → ∀ {us : List Token}, Token.Agree ts us →
      ∃ es', Expr.MoreWritten es' us n ∧ es'.map Expr.unplaced = es.map Expr.unplaced
  | .nil, us, ha => by
      rw [ha.nil]
      exact ⟨[], .nil, rfl⟩
  | .cons hk he hes, us, ha => by
      obtain ⟨k, us, rfl, hku, ha⟩ := ha.cons
      obtain ⟨vs, ws, rfl, hvs, hws⟩ := ha.append
      obtain ⟨e', hwe, he⟩ := he.replaced hvs
      obtain ⟨es', hwes, hes⟩ := hes.replaced hws
      exact ⟨e' :: es', .cons ((Token.kind_eq hku).trans hk) hwe hwes, by simp [he, hes]⟩

theorem Block.Written.replaced {b : Block} {ts : List Token} {n : Nat} :
    b.Written ts n → ∀ {us : List Token}, Token.Agree ts us →
      ∃ b', Block.Written b' us n ∧ b'.unplaced = b.unplaced
  | .mk ho hss hc, us, ha => by
      have hs := ha.site
      obtain ⟨o, vs, rfl, hou, ha⟩ := ha.cons
      obtain ⟨ws, cs, rfl, hws, hcs⟩ := ha.append
      obtain ⟨c, cs, rfl, hcu, hcs⟩ := hcs.cons
      obtain ⟨ss, hw, hss⟩ := hss.replaced hws
      obtain rfl := hcs.nil
      refine ⟨_, .mk ((Token.kind_eq hou).trans ho) hw ((Token.kind_eq hcu).trans hc), ?_⟩
      simp [hs, hss]

theorem Block.ElseWritten.replaced {a : Option Block} {ts : List Token} {n : Nat} :
    Block.ElseWritten a ts n → ∀ {us : List Token}, Token.Agree ts us →
      ∃ a', Block.ElseWritten a' us n ∧ a'.map Block.unplaced = a.map Block.unplaced
  | .none, us, ha => by
      rw [ha.nil]
      exact ⟨none, .none, rfl⟩
  | .some hk hb, us, ha => by
      obtain ⟨k, vs, rfl, hku, ha⟩ := ha.cons
      obtain ⟨b', hw, hb⟩ := hb.replaced ha
      exact ⟨some b', .some ((Token.kind_eq hku).trans hk) hw, congrArg some hb⟩

theorem Stmt.Written.replaced {s : Stmt} {ts : List Token} {n : Nat} {semicolon? : Option Token} :
    s.Written ts n semicolon? → ∀ {us : List Token}, Token.Agree ts us →
      ∃ s' other?, Stmt.Written s' us n other? ∧ s'.unplaced = s.unplaced ∧
        (other? = none → semicolon? = none)
  | .binding hk hname hsign he hsemi, us, ha => by
      have hs := ha.site
      obtain ⟨k, us, rfl, hku, ha⟩ := ha.cons
      obtain ⟨name, us, rfl, hnu, ha⟩ := ha.cons
      obtain ⟨sign, us, rfl, hsu, ha⟩ := ha.cons
      obtain ⟨vs, ws, rfl, hvs, hws⟩ := ha.append
      obtain ⟨e', hw, he⟩ := he.replaced hvs
      obtain ⟨other?, rfl, ho, hnone⟩ := hws.semicolon hsemi
      refine ⟨_, other?, .binding ((Token.kind_eq hku).trans hk) ((Token.kind_eq hnu).trans hname)
        ((Token.kind_eq hsu).trans hsign) hw ho, ?_, hnone⟩
      simp [hs, he, Identifier.unplaced_ofToken hnu]
  | .result hk he hsemi, us, ha => by
      have hs := ha.site
      obtain ⟨k, us, rfl, hku, ha⟩ := ha.cons
      obtain ⟨vs, ws, rfl, hvs, hws⟩ := ha.append
      obtain ⟨e', hw, he⟩ := he.replaced hvs
      obtain ⟨other?, rfl, ho, hnone⟩ := hws.semicolon hsemi
      exact ⟨_, other?, .result ((Token.kind_eq hku).trans hk) hw ho, by simp [hs, he], hnone⟩
  | .expression he hsemi, us, ha => by
      have hs := ha.site
      obtain ⟨vs, ws, rfl, hvs, hws⟩ := ha.append
      obtain ⟨e', hw, he⟩ := he.replaced hvs
      obtain ⟨other?, rfl, ho, hnone⟩ := hws.semicolon hsemi
      exact ⟨_, other?, .expression hw ho, by simp [hs, he], hnone⟩

theorem Stmt.ListWritten.replaced {ss : List Stmt} {ts : List Token} {n : Nat} :
    Stmt.ListWritten ss ts n → ∀ {us : List Token}, Token.Agree ts us →
      ∃ ss', Stmt.ListWritten ss' us n ∧ ss'.map Stmt.unplaced = ss.map Stmt.unplaced
  | .nil, us, ha => by
      rw [ha.nil]
      exact ⟨[], .nil, rfl⟩
  | .cons hs hsemi hss, us, ha => by
      obtain ⟨vs, ws, rfl, hvs, hws⟩ := ha.append
      obtain ⟨s', other?, hw, hs, hnone⟩ := hs.replaced hvs
      obtain ⟨ss', hwss, hss⟩ := hss.replaced hws
      refine ⟨s' :: ss', .cons hw ?_ hwss, by simp [hs, hss]⟩
      intro ho u hu
      obtain ⟨t, ht, hk⟩ := hws.head? hu
      rw [hk]
      exact hsemi (hnone ho) t ht

end

/-- Tokens that agree with a writing write a program that differs in its places only. -/
theorem Program.Written.replaced {P : Program} {ts us : List Token} {n : Nat}
    (h : P.Written ts n) (ha : Token.Agree ts us) :
    ∃ Q, Program.Written Q us n ∧ Q.unplaced = P.unplaced := by
  cases h with
  | mk hss hlast =>
    obtain ⟨vs, ws, rfl, hvs, hws⟩ := ha.append
    obtain ⟨last, ws, rfl, hlu, hws⟩ := hws.cons
    obtain ⟨ss, hw, hss⟩ := hss.replaced hvs
    rw [hws.nil]
    exact ⟨_, .mk hw ((Token.kind_eq hlu).trans hlast), Program.unplaced_inj.2 hss⟩

end ExprLang
