import ExprLang.Proofs.Grammar.Written
import ExprLang.Proofs.Tree.Each

/-!
# Writings inside of a writing

Every expression of a tree that is written has a writing of its own among the tokens, one after
the other (`Stmt.ListWritten.each`).  It ends where the node does.  It may start earlier: a node
starts where its first operand does, and parentheses around that one are not covered
(`Expr.Written.opens`).  The parentheses of a writing are balanced (`Expr.Written.balanced`), so
their number is told by those that the node covers.
-/

namespace List.IsInfix

variable {α : Type} {a : α} {l l₁ l₂ : List α}

/-! ## Parts of a part -/

theorem of_cons (h : a :: l₁ <:+: l) : l₁ <:+: l := (List.suffix_cons a l₁).isInfix.trans h

theorem of_append_left (h : l₁ ++ l₂ <:+: l) : l₁ <:+: l :=
  (List.prefix_append l₁ l₂).isInfix.trans h

theorem of_append_right (h : l₁ ++ l₂ <:+: l) : l₂ <:+: l :=
  (List.suffix_append l₁ l₂).isInfix.trans h

end List.IsInfix

namespace ExprLang

variable {t o c : Token} {ts us all : List Token} {need n : Nat}

/-! ## Balanced parentheses -/

/-- Are there as many closing parentheses as opening ones? -/
def Balanced (ts : List Token) : Prop :=
  ts.countP (·.kind = .openParen) = ts.countP (·.kind = .closeParen)

/-- Is a token no parenthesis? -/
def TokenKind.NoParen (k : TokenKind) : Prop := k ≠ .openParen ∧ k ≠ .closeParen

instance (k : TokenKind) : Decidable k.NoParen := inferInstanceAs (Decidable (_ ∧ _))

theorem TokenKind.noParen_of_unary {k : TokenKind} (h : k.prefixRule? = some .unary) : k.NoParen := by
  cases k <;> first | decide | cases h

theorem TokenKind.noParen_of_binary {k : TokenKind} (h : k.infixRule? = some .binary) :
    k.NoParen := by
  cases k <;> first | decide | cases h

namespace Balanced

theorem nil : Balanced [] := rfl

theorem append (h : Balanced ts) (k : Balanced us) : Balanced (ts ++ us) := by
  rw [Balanced, List.countP_append, List.countP_append, h, k]

theorem cons {k : TokenKind} (ht : t.kind = k) (hk : k.NoParen) (h : Balanced ts) :
    Balanced (t :: ts) := by
  subst ht
  rw [Balanced, List.countP_cons_of_neg (by simpa using hk.1),
    List.countP_cons_of_neg (by simpa using hk.2), h]

/-- Parentheses come in pairs. -/
theorem group (ho : o.kind = .openParen) (hc : c.kind = .closeParen) (h : Balanced ts)
    (k : Balanced us) : Balanced (o :: (ts ++ c :: us)) := by
  rw [Balanced, List.countP_cons, List.countP_cons, List.countP_append, List.countP_append,
    List.countP_cons, List.countP_cons, h, k, ho, hc]
  simp only [decide_true, if_true, reduceCtorEq, decide_false, Bool.false_eq_true, if_false]
  omega

/-- What is missing in front of a run is the surplus of closing parentheses in it. -/
theorem length_opens (hopens : ∀ t ∈ us, t.kind = .openParen) (h : Balanced (us ++ ts)) :
    us.length + ts.countP (·.kind = .openParen) = ts.countP (·.kind = .closeParen) := by
  have hopen : us.countP (·.kind = .openParen) = us.length :=
    List.countP_eq_length.2 fun t ht => decide_eq_true (hopens t ht)
  have hclose : us.countP (·.kind = .closeParen) = 0 := by
    refine List.countP_eq_zero.2 fun t ht => ?_
    rw [hopens t ht]
    decide
  have h : _ = _ := h
  rwa [List.countP_append, List.countP_append, hopen, hclose, Nat.zero_add] at h

/-- Only the kinds of the tokens count. -/
theorem of_kinds (h : Balanced ts) (hkinds : us.map (·.kind) = ts.map (·.kind)) :
    Balanced us := by
  have count (k : TokenKind) (ts : List Token) :
      ts.countP (·.kind = k) = (ts.map (·.kind)).countP (· = k) := by
    rw [List.countP_map]
    rfl
  rw [Balanced, count, count, hkinds, ← count, ← count]
  exact h

end Balanced

theorem Identifier.MoreWritten.balanced {ids : List Identifier} (h : MoreWritten ids ts) :
    Balanced ts := by
  induction h with
  | nil => exact .nil
  | cons hc ht _ ih => exact (ih.cons ht (by decide)).cons hc (by decide)

theorem Identifier.ListWritten.balanced {ids : List Identifier} (h : ListWritten ids ts) :
    Balanced ts := by
  cases h with
  | nil => exact .nil
  | cons ht hids => exact hids.balanced.cons ht (by decide)

/-- A semicolon is no parenthesis. -/
theorem balanced_semicolon {semicolon? : Option Token}
    (h : ∀ t ∈ semicolon?, t.kind = .semicolon) : Balanced semicolon?.toList := by
  cases semicolon? with
  | none => exact .nil
  | some t => exact .cons (h t rfl) (by decide) .nil

mutual

/-- Every writing of an expression is balanced. -/
theorem Expr.Written.balanced {e : Expr} {ts : List Token} {top : Power} {n : Nat} :
    e.Written ts top n → Balanced ts
  | .identifier hk => .cons hk (by decide) .nil
  | .integer hk _ => .cons hk (by decide) .nil
  | .boolean (.inl hk) => .cons hk (by decide) .nil
  | .boolean (.inr hk) => .cons hk (by decide) .nil
  | .unary ho hr _ => hr.balanced.cons rfl (TokenKind.noParen_of_unary ho)
  | .group ho he hc => .group ho hc he.balanced .nil
  | .binary hl ho hr _ _ =>
      hl.balanced.append (hr.balanced.cons rfl (TokenKind.noParen_of_binary ho))
  | .conditional hk ho he hc hb ha =>
      (Balanced.group ho hc he.balanced (hb.balanced.append ha.balanced)).cons hk (by decide)
  | .function hk ho hids hc hb =>
      (Balanced.group ho hc hids.balanced hb.balanced).cons hk (by decide)
  | .call hf ho has hc => hf.balanced.append (.group ho hc has.balanced .nil)

theorem Expr.ListWritten.balanced {es : List Expr} {ts : List Token} {n : Nat} :
    Expr.ListWritten es ts n → Balanced ts
  | .nil => .nil
  | .cons he hes => he.balanced.append hes.balanced

theorem Expr.MoreWritten.balanced {es : List Expr} {ts : List Token} {n : Nat} :
    Expr.MoreWritten es ts n → Balanced ts
  | .nil => .nil
  | .cons hc he hes => (he.balanced.append hes.balanced).cons hc (by decide)

theorem Block.Written.balanced {b : Block} {ts : List Token} {n : Nat} :
    b.Written ts n → Balanced ts
  | .mk ho hss hc =>
      (hss.balanced.append (.cons hc (by decide) .nil)).cons ho (by decide)

theorem Block.ElseWritten.balanced {a : Option Block} {ts : List Token} {n : Nat} :
    Block.ElseWritten a ts n → Balanced ts
  | .none => .nil
  | .some hk hb => hb.balanced.cons hk (by decide)

theorem Stmt.Written.balanced {s : Stmt} {ts : List Token} {n : Nat}
    {semicolon? : Option Token} : s.Written ts n semicolon? → Balanced ts
  | .binding hk hname hsign he hsemi =>
      (((he.balanced.append (balanced_semicolon hsemi)).cons hsign (by decide)).cons
        hname (by decide)).cons hk (by decide)
  | .result hk he hsemi =>
      (he.balanced.append (balanced_semicolon hsemi)).cons hk (by decide)
  | .expression he hsemi => he.balanced.append (balanced_semicolon hsemi)

theorem Stmt.ListWritten.balanced {ss : List Stmt} {ts : List Token} {n : Nat} :
    Stmt.ListWritten ss ts n → Balanced ts
  | .nil => .nil
  | .cons hs _ hss => hs.balanced.append hss.balanced

end

/-! ## Where a node starts and ends -/

/-- Where the first of some tokens starts. -/
def startOf (ts : List Token) : Position := (ts.headD default).span.start

/-- A run starts with what it starts with in front of something else. -/
theorem startOf_append (hts : ts ≠ []) (us : List Token) : startOf (ts ++ us) = startOf ts := by
  obtain ⟨t, ts, rfl⟩ := List.exists_cons_of_ne_nil hts
  rfl

/-- A run ends with what it ends with behind something else. -/
theorem stopOf_append (ts : List Token) (hus : us ≠ []) : stopOf (ts ++ us) = stopOf us := by
  rw [← List.dropLast_concat_getLast hus, ← List.append_assoc, stopOf_append_singleton,
    stopOf_append_singleton]

/-- Is there something in a run for a node to start with, behind opening parentheses only? -/
def Opens (start : Position) (ts : List Token) : Prop :=
  ∃ opens inside, ts = opens ++ inside ∧ (∀ t ∈ opens, t.kind = .openParen) ∧ inside ≠ [] ∧
    start = startOf inside

theorem Opens.of_start (hts : ts ≠ []) : Opens (startOf ts) ts := ⟨[], ts, rfl, nofun, hts, rfl⟩

/-- What comes behind does not matter. -/
theorem Opens.append {start : Position} (h : Opens start ts) (us : List Token) :
    Opens start (ts ++ us) := by
  obtain ⟨opens, inside, rfl, hopens, hne, rfl⟩ := h
  refine ⟨opens, inside ++ us, List.append_assoc _ _ _, hopens, by simp [hne], ?_⟩
  rw [startOf_append hne]

/-- One more opening parenthesis is not covered. -/
theorem Opens.cons {start : Position} (ho : o.kind = .openParen) (h : Opens start ts) :
    Opens start (o :: ts) := by
  obtain ⟨opens, inside, rfl, hopens, hne, rfl⟩ := h
  exact ⟨o :: opens, inside, rfl, List.forall_mem_cons.2 ⟨ho, hopens⟩, hne, rfl⟩

/-- In front of where a node starts, its writing has opening parentheses only. -/
theorem Expr.Written.opens {e : Expr} {ts : List Token} {top : Power} {n : Nat} :
    e.Written ts top n → Opens e.site.span.start ts
  | .identifier _ | .integer _ _ | .boolean _ | .unary _ _ _ | .conditional _ _ _ _ _ _
  | .function _ _ _ _ _ => .of_start (List.cons_ne_nil _ _)
  | .group ho he _ => .cons ho (he.opens.append _)
  | .binary hl _ _ _ _ => hl.opens.append _
  | .call hf _ _ _ => hf.opens.append _

theorem Expr.Written.ne_nil {e : Expr} {ts : List Token} {top : Power} {n : Nat}
    (h : e.Written ts top n) : ts ≠ [] := by
  obtain ⟨t, us, rfl, -⟩ := h.head
  exact List.cons_ne_nil t us

/-- Without the parentheses around it, a node ends where its writing does. -/
theorem Expr.Written.bare {e : Expr} {ts : List Token} {top : Power} {n : Nat} :
    e.Written ts top n → ∃ us top' m, us <:+: ts ∧ e.Written us top' m ∧ m ≤ n ∧
      e.site.span.stop = stopOf us
  | .group _ he _ => by
    obtain ⟨us, top', m, hus, hw, hm, hstop⟩ := he.bare
    exact ⟨us, top', m, hus.trans ⟨[_], [_], rfl⟩, hw, Nat.le_succ_of_le hm, hstop⟩
  | h@(.identifier _) => ⟨_, _, _, List.infix_rfl, h, Nat.le_refl _, rfl⟩
  | h@(.integer _ _) => ⟨_, _, _, List.infix_rfl, h, Nat.le_refl _, rfl⟩
  | h@(.boolean _) => ⟨_, _, _, List.infix_rfl, h, Nat.le_refl _, rfl⟩
  | h@(.unary _ _ _) => ⟨_, _, _, List.infix_rfl, h, Nat.le_refl _, rfl⟩
  | h@(.conditional _ _ _ _ _ _) => ⟨_, _, _, List.infix_rfl, h, Nat.le_refl _, rfl⟩
  | h@(.function _ _ _ _ _) => ⟨_, _, _, List.infix_rfl, h, Nat.le_refl _, rfl⟩
  | h@(.binary _ _ hr _ _) => by
    refine ⟨_, _, _, List.infix_rfl, h, Nat.le_refl _, ?_⟩
    rw [← List.singleton_append, ← List.append_assoc, stopOf_append _ hr.ne_nil]
    rfl
  | h@(.call _ _ _ _) => by
    refine ⟨_, _, _, List.infix_rfl, h, Nat.le_refl _, ?_⟩
    rw [← List.cons_append, ← List.append_assoc, stopOf_append_singleton]
    rfl

/-! ## Every expression -/

/-- Is an expression written somewhere in a run, up to where it ends and with at most `need`
expressions inside each other? -/
def Node.WrittenIn (all : List Token) (need : Nat) : Node → Prop
  | .expr e => ∃ ts top n, ts <:+: all ∧ e.Written ts top n ∧ n ≤ need ∧
      e.site.span.stop = stopOf ts
  | _ => True

theorem Expr.Written.writtenIn {e : Expr} {top : Power} (h : e.Written ts top n)
    (hts : ts <:+: all) (hn : n ≤ need) : (Node.expr e).WrittenIn all need := by
  obtain ⟨us, top', m, hus, hw, hm, hstop⟩ := h.bare
  exact ⟨us, top', m, hus.trans hts, hw, Nat.le_trans hm hn, hstop⟩

/-- A name is written by itself. -/
theorem Identifier.writtenIn (ht : t.kind = .identifier) (hmem : t ∈ all) (hneed : 0 < need) :
    (Node.expr (.identifier (.ofToken t))).WrittenIn all need :=
by
  obtain ⟨us, vs, rfl⟩ := List.append_of_mem hmem
  exact (Expr.Written.identifier ht).writtenIn ⟨us, vs, by simp⟩ hneed

theorem Identifier.MoreWritten.each {ids : List Identifier} (h : MoreWritten ids ts)
    (hts : ∀ t ∈ ts, t ∈ all) (hneed : 0 < need) :
    ∀ id ∈ ids, (Node.expr (.identifier id)).WrittenIn all need := by
  induction h with
  | nil => exact List.forall_mem_nil _
  | cons _ ht _ ih =>
    obtain ⟨-, htmem, hrest⟩ : _ ∧ _ ∧ _ := by simpa using hts
    exact List.forall_mem_cons.2 ⟨Identifier.writtenIn ht htmem hneed, ih hrest⟩

theorem Identifier.ListWritten.each {ids : List Identifier} (h : ListWritten ids ts)
    (hts : ∀ t ∈ ts, t ∈ all) (hneed : 0 < need) :
    ∀ id ∈ ids, (Node.expr (.identifier id)).WrittenIn all need := by
  cases h with
  | nil => exact List.forall_mem_nil _
  | cons ht hids =>
    obtain ⟨htmem, hrest⟩ := List.forall_mem_cons.1 hts
    exact List.forall_mem_cons.2
      ⟨Identifier.writtenIn ht htmem hneed, hids.each hrest hneed⟩

mutual

/-- The expressions of a tree are written where the tree is. -/
theorem Expr.Written.each {e : Expr} {ts : List Token} {top : Power} {n : Nat} :
    e.Written ts top n → ts <:+: all → n ≤ need → e.Each (Node.WrittenIn all need)
  | h@(.identifier _), hts, hn => h.writtenIn hts hn
  | h@(.integer _ _), hts, hn => h.writtenIn hts hn
  | h@(.boolean _), hts, hn => h.writtenIn hts hn
  | h@(.unary _ hr _), hts, hn => ⟨h.writtenIn hts hn, hr.each hts.of_cons (by omega)⟩
  | .group _ he _, hts, hn => he.each hts.of_cons.of_append_left (by omega)
  | h@(.binary hl _ hr _ _), hts, hn =>
    ⟨h.writtenIn hts hn, hl.each hts.of_append_left (by omega),
      hr.each hts.of_append_right.of_cons (by omega)⟩
  | h@(.conditional _ _ he _ hb ha), hts, hn =>
    have hbranches := hts.of_cons.of_cons.of_append_right.of_cons
    ⟨h.writtenIn hts hn, he.each hts.of_cons.of_cons.of_append_left (by omega),
      hb.each hbranches.of_append_left (by omega), ha.each hbranches.of_append_right (by omega)⟩
  | h@(.function _ _ hids _ hb), hts, hn =>
    ⟨h.writtenIn hts hn, hids.each hts.of_cons.of_cons.of_append_left.subset (by omega),
      hb.each hts.of_cons.of_cons.of_append_right.of_cons (by omega)⟩
  | h@(.call hf _ has _), hts, hn =>
    ⟨h.writtenIn hts hn, hf.each hts.of_append_left (by omega),
      has.each hts.of_append_right.of_cons.of_append_left (by omega)⟩

theorem Expr.ListWritten.each {es : List Expr} {ts : List Token} {n : Nat} :
    Expr.ListWritten es ts n → ts <:+: all → n ≤ need → Expr.EachAll (Node.WrittenIn all need) es
  | .nil, _, _ => trivial
  | .cons he hes, hts, hn =>
    ⟨he.each hts.of_append_left (by omega), hes.each hts.of_append_right (by omega)⟩

theorem Expr.MoreWritten.each {es : List Expr} {ts : List Token} {n : Nat} :
    Expr.MoreWritten es ts n → ts <:+: all → n ≤ need → Expr.EachAll (Node.WrittenIn all need) es
  | .nil, _, _ => trivial
  | .cons _ he hes, hts, hn =>
    ⟨he.each hts.of_cons.of_append_left (by omega), hes.each hts.of_cons.of_append_right (by omega)⟩

theorem Block.Written.each {b : Block} {ts : List Token} {n : Nat} :
    b.Written ts n → ts <:+: all → n ≤ need → b.Each (Node.WrittenIn all need)
  | .mk _ hss _, hts, hn => ⟨trivial, hss.each hts.of_cons.of_append_left hn⟩

theorem Block.ElseWritten.each {a : Option Block} {ts : List Token} {n : Nat} :
    Block.ElseWritten a ts n → ts <:+: all → n ≤ need →
      Block.EachElse (Node.WrittenIn all need) a
  | .none, _, _ => trivial
  | .some _ hb, hts, hn => hb.each hts.of_cons hn

theorem Stmt.Written.each {s : Stmt} {ts : List Token} {n : Nat} {semicolon? : Option Token} :
    s.Written ts n semicolon? → ts <:+: all → n ≤ need → s.Each (Node.WrittenIn all need)
  | .binding _ hname _ he _, hts, hn =>
    ⟨trivial,
      Identifier.writtenIn hname (hts.of_cons.subset List.mem_cons_self)
        (Nat.lt_of_lt_of_le he.need_pos hn),
      he.each hts.of_cons.of_cons.of_cons.of_append_left hn⟩
  | .result _ he _, hts, hn => ⟨trivial, he.each hts.of_cons.of_append_left hn⟩
  | .expression he _, hts, hn => ⟨trivial, he.each hts.of_append_left hn⟩

theorem Stmt.ListWritten.each {ss : List Stmt} {ts : List Token} {n : Nat} :
    Stmt.ListWritten ss ts n → ts <:+: all → n ≤ need →
      Stmt.EachAll (Node.WrittenIn all need) ss
  | .nil, _, _ => trivial
  | .cons hs _ hss, hts, hn =>
    ⟨hs.each hts.of_append_left (by omega), hss.each hts.of_append_right (by omega)⟩

end

end ExprLang
