import ExprLang.Parser.Program
import ExprLang.Proofs.Parser.Likeness

/-!
# The rules in step

Every rule does the same on two parsers that correspond, whatever the likeness is, if its
operand does.  A rule for expressions ends on a token that an expression can end with, and
so it may look ahead of it.  A statement may end on a semicolon instead, and what is ahead
of that is not looked at before the cursor has moved on.

The full operand keeps in step without any premise (`Operand.full_inStep`), and so do whole
programs if the likeness lasts over every token (`Parser.topLevel_inStep`).
-/

namespace ExprLang

open Parse Likeness

/-- Does an operand do the same on both sides? -/
def Operand.InStep (L : Likeness) (operand : Operand) : Prop :=
  ∀ power, L.InStep (fun _ => True) (L.Same Expr.move) TokenKind.Ends (operand.parse power)
    (operand.parse power)

theorem Expr.site_move (h : Position → Position) (e : Expr) : (e.move h).site = e.site.move h := by
  cases e <;> rfl

/-! ## Trees that are seen the same -/

namespace Likeness

variable {L : Likeness}

/-- Do both sides see the same in two arrays? -/
def SameAll {α : Type} (L : Likeness) (move : (Position → Position) → α → α) (as bs : Array α) :
    Prop := as.toList.map (move L.left) = bs.toList.map (move L.right)

theorem SameAll.push {α : Type} {move : (Position → Position) → α → α} {as bs : Array α} {a b : α}
    (h : L.SameAll move as bs) (hab : L.Same move a b) :
    L.SameAll move (as.push a) (bs.push b) := by
  simp_all only [SameAll, Same, Array.toList_push, List.map_append, List.map_cons, List.map_nil]

namespace Same

/-- Expressions that are seen the same start at places that are. -/
theorem start_eq {e e' : Expr} (h : L.Same Expr.move e e') :
    L.left e.site.span.start = L.right e'.site.span.start := by
  show (e.site.move L.left).span.start = (e'.site.move L.right).span.start
  rw [← Expr.site_move, ← Expr.site_move, show e.move L.left = e'.move L.right from h]

variable {s s' : Site} {name name' : Identifier} {e e' left left' : Expr} {b b' : Block}

theorem binding (hs : L.Same Site.move s s') (hn : L.Same Identifier.move name name')
    (he : L.Same Expr.move e e') : L.Same Stmt.move (.binding s name e) (.binding s' name' e') := by
  simp_all only [Same, Stmt.move]

theorem result (hs : L.Same Site.move s s') (he : L.Same Expr.move e e') :
    L.Same Stmt.move (.result s e) (.result s' e') := by
  simp_all only [Same, Stmt.move]

theorem expression (hs : L.Same Site.move s s') (he : L.Same Expr.move e e') :
    L.Same Stmt.move (.expression s e) (.expression s' e') := by
  simp_all only [Same, Stmt.move]

theorem block {ss us : Array Stmt} (hs : L.Same Site.move s s')
    (hss : L.SameAll Stmt.move ss us) :
    L.Same Block.move (.mk s ss.toList) (.mk s' us.toList) := by
  simp_all only [Same, SameAll, Block.move, Stmt.moveList_eq_map]

theorem unary (hs : L.Same Site.move s s') (operator : String) (he : L.Same Expr.move e e') :
    L.Same Expr.move (.unary s operator e) (.unary s' operator e') := by
  simp_all only [Same, Expr.move]

theorem binary (hs : L.Same Site.move s s') (operator : String)
    (hl : L.Same Expr.move left left') (he : L.Same Expr.move e e') :
    L.Same Expr.move (.binary s operator left e) (.binary s' operator left' e') := by
  simp_all only [Same, Expr.move]

theorem conditional {a a' : Option Block} (hs : L.Same Site.move s s')
    (he : L.Same Expr.move e e') (hb : L.Same Block.move b b')
    (ha : L.Same Block.moveOption a a') :
    L.Same Expr.move (.conditional s e b a) (.conditional s' e' b' a') := by
  simp_all only [Same, Expr.move]

theorem function {ids js : List Identifier} (hs : L.Same Site.move s s')
    (hids : L.Same (fun h => List.map (·.move h)) ids js) (hb : L.Same Block.move b b') :
    L.Same Expr.move (.function s ids b) (.function s' js b') := by
  simp_all only [Same, Expr.move]

theorem call {es fs : List Expr} (hs : L.Same Site.move s s') (he : L.Same Expr.move e e')
    (hes : L.Same Expr.moveList es fs) :
    L.Same Expr.move (.call s e es) (.call s' e' fs) := by
  simp_all only [Same, Expr.move]

end Same

theorem SameAll.exprs {es fs : Array Expr} (h : L.SameAll Expr.move es fs) :
    L.Same Expr.moveList es.toList fs.toList := by
  simp_all only [SameAll, Same, Expr.moveList_eq_map]

end Likeness

namespace Parse

variable {L : Likeness} {operand : Operand}

/-! ## Statements and blocks -/

theorem binding_inStep (h : operand.InStep L) :
    L.InStep TokenKind.Inner (L.Same Stmt.move) TokenKind.Closes (binding operand)
      (binding operand) := by
  refine .current fun t u ht hk => ?_
  refine (inStep_expect (by rintro _ rfl; exact hk) .identifier).bind fun name name' hname => ?_
  refine (inStep_expect (by rintro _ rfl; decide) .assign).bind fun _ _ _ => ?_
  refine (inStep_advance (by rintro _ rfl; decide)).bind fun _ _ _ => (h _).bind fun e f he => ?_
  refine inStep_skipSemicolon.bind fun _ _ _ => (inStep_siteFrom ht).bind fun s s' hs => .pure ?_
  exact hs.binding (same_ofToken hname) he

theorem result_inStep (h : operand.InStep L) :
    L.InStep TokenKind.Inner (L.Same Stmt.move) TokenKind.Closes (result operand)
      (result operand) := by
  refine (inStep_advance fun _ hk => hk).bind fun t u ht => (h _).bind fun e f he => ?_
  refine inStep_skipSemicolon.bind fun _ _ _ => (inStep_siteFrom ht).bind fun s s' hs => .pure ?_
  exact hs.result he

theorem expressionStatement_inStep (h : operand.InStep L) :
    L.InStep (fun _ => True) (L.Same Stmt.move) TokenKind.Closes (expressionStatement operand)
      (expressionStatement operand) := by
  refine .current fun t u ht _ => ((h _).weaken fun _ _ => trivial).bind fun e f he => ?_
  refine inStep_skipSemicolon.bind fun _ _ _ => (inStep_siteFrom ht).bind fun s s' hs => .pure ?_
  exact hs.expression he

theorem stmtRule_inStep (h : operand.InStep L) : ∀ rule,
    L.InStep (·.stmtRule? = rule) (L.Same Stmt.move) TokenKind.Closes (stmtRule operand rule)
      (stmtRule operand rule)
  | some .binding => (binding_inStep h).weaken fun _ => TokenKind.inner_of_stmtRule
  | some .result => (result_inStep h).weaken fun _ => TokenKind.inner_of_stmtRule
  | none => (expressionStatement_inStep h).weaken fun _ _ => trivial

theorem statement_inStep (h : operand.InStep L) :
    L.InStep (fun _ => True) (L.Same Stmt.move) TokenKind.Closes (statement operand)
      (statement operand) := by
  refine .current fun t u ht _ => ?_
  rw [← kind_eq ht]
  exact (stmtRule_inStep h _).weaken fun _ hk => congrArg _ hk

/-- A block that comes to the end of the source fails there. -/
theorem moreStatements_lost {V : Array Stmt → Array Stmt → Prop} {K : TokenKind → Prop}
    {done : Array Stmt} {p : Parser} {c : Cursor} {r : Parsed (Array Stmt)}
    (h : L.Edge p.cursor c) : L.Outcomes V K (moreStatements operand done p) r := by
  have he : p.current.kind = .eof := L.eof_of_edge h
  rw [moreStatements_eq, if_neg (by rw [he]; decide), if_pos he]
  exact .lost h rfl

theorem moreStatements_inStep (h : operand.InStep L) {done done' : Array Stmt} {p q : Parser}
    (hd : L.SameAll Stmt.move done done') (hp : L.Parsers p q) :
    L.Outcomes (L.SameAll Stmt.move) (· = .closeCurly) (moreStatements operand done p)
      (moreStatements operand done' q) := by
  have hs := statement_inStep h hp trivial
  have hkind := kind_eq hp.current
  fun_induction moreStatements operand done p generalizing done' q with
  | case1 done p hc =>
    rw [moreStatements_eq, if_pos (hkind ▸ hc)]
    exact .ok hd hp hc
  | case2 done p hc he =>
    rw [moreStatements_eq, if_neg (hkind ▸ hc), if_pos (hkind ▸ he), Diagnostic.unexpected,
      Diagnostic.unexpected, ← hkind, ← literal_eq hp.current]
    exact .error (.current _ hp.current) hp
  | case3 done p hc he s r hr ih =>
    obtain ⟨u, r', hr', hv, hp', hk⟩ := hs.of_ok hr
    rw [moreStatements_eq operand done' q, if_neg (hkind ▸ hc), if_neg (hkind ▸ he), hr']
    rcases hp'.pass hk.ne_eof with hn | hedge
    · exact ih (hd.push hv) hn (statement_inStep h hn trivial) (kind_eq hn.current)
    · exact moreStatements_lost hedge
  | case4 done p hc he d r hr hq =>
    rcases hs.of_error hr with ⟨e, r', hr', hb, hp'⟩ | ⟨c, hedge, hposition⟩
    · rw [moreStatements_eq operand done' q, if_neg (hkind ▸ hc), if_neg (hkind ▸ he), hr']
      dsimp only
      rw [if_pos (kind_eq hp'.current ▸ hq)]
      exact .error hb hp'
    · exact .lost hedge hposition
  | case5 done p hc he d r hr hq ih =>
    rcases hs.of_error hr with ⟨e, r', hr', hb, hp'⟩ | ⟨c, hedge, -⟩
    · rw [moreStatements_eq operand done' q, if_neg (hkind ▸ hc), if_neg (hkind ▸ he), hr']
      dsimp only
      rw [if_neg (kind_eq hp'.current ▸ hq)]
      rcases (hp'.record hb).pass hq with hn | hedge
      · exact ih hd hn (statement_inStep h hn trivial) (kind_eq hn.current)
      · exact moreStatements_lost hedge
    · exact absurd (L.eof_of_edge hedge) hq

theorem statements_inStep (h : operand.InStep L) :
    L.InStep (fun _ => True) (L.SameAll Stmt.move) (· = .closeCurly) (statements operand)
      (statements operand) := fun _ _ hp _ => moreStatements_inStep h rfl hp

theorem block_inStep (h : operand.InStep L) :
    L.InStep (· = .openCurly) (L.Same Block.move) (· = .closeCurly) (block operand)
      (block operand) := by
  refine (inStep_advance (by rintro _ rfl; decide)).bind fun t u ht => ?_
  refine (statements_inStep h).bind fun ss us hss => (inStep_siteFrom ht).bind fun s s' hs => ?_
  exact .pure (hs.block hss)

/-! ## How an expression starts -/

theorem identifier_inStep :
    L.InStep TokenKind.Ends (L.Same Expr.move) TokenKind.Ends identifier identifier := by
  refine .current fun t u ht hk => (InStep.pure ?_).strengthen (by rintro _ rfl; exact hk)
  exact congrArg Expr.identifier (same_ofToken ht)

theorem integer_inStep :
    L.InStep TokenKind.Ends (L.Same Expr.move) TokenKind.Ends integer integer := by
  refine .current fun t u ht hk => ?_
  rw [← literal_eq ht]
  cases Text.integer? t.literal with
  | none => exact inStep_failHere _
  | some v =>
    refine (InStep.pure ?_).strengthen (by rintro _ rfl; exact hk)
    exact congrArg (Expr.integer · v) (same_site ht)

theorem boolean_inStep :
    L.InStep TokenKind.Ends (L.Same Expr.move) TokenKind.Ends boolean boolean := by
  refine .current fun t u ht hk => (InStep.pure ?_).strengthen (by rintro _ rfl; exact hk)
  rw [← kind_eq ht]
  exact congrArg (Expr.boolean · _) (same_site ht)

theorem unary_inStep (h : operand.InStep L) :
    L.InStep TokenKind.Inner (L.Same Expr.move) TokenKind.Ends (unary operand)
      (unary operand) := by
  refine (inStep_advance fun _ hk => hk).bind fun t u ht => (h _).bind fun e f he => ?_
  refine (inStep_siteFrom ht).bind fun s s' hs => .pure ?_
  rw [← literal_eq ht]
  exact hs.unary _ he

theorem group_inStep (h : operand.InStep L) :
    L.InStep TokenKind.Inner (L.Same Expr.move) TokenKind.Ends (group operand)
      (group operand) := by
  refine (inStep_advance fun _ hk => hk).bind fun _ _ _ => (h _).bind fun e f he => ?_
  refine (inStep_expect (fun _ hk => hk.inner) _).bind fun _ _ _ => ?_
  exact (InStep.pure he).strengthen (by rintro _ rfl; trivial)

theorem alternative_inStep (h : operand.InStep L) :
    L.InStep TokenKind.Ends (L.Same Block.moveOption) TokenKind.Ends (alternative operand)
      (alternative operand) := by
  refine .ifPeek (fun _ hk => hk.inner) ?_ (.pure rfl)
  refine (inStep_expect (by rintro _ rfl; decide) _).bind fun _ _ _ => ?_
  refine (block_inStep h).bind fun b b' hb => ?_
  have hsome : L.Same Block.moveOption (some b) (some b') := congrArg some hb
  exact (InStep.pure hsome).strengthen (by rintro _ rfl; trivial)

theorem conditional_inStep (h : operand.InStep L) :
    L.InStep TokenKind.Inner (L.Same Expr.move) TokenKind.Ends (conditional operand)
      (conditional operand) := by
  refine .current fun t u ht hk => ?_
  refine (inStep_expect (by rintro _ rfl; exact hk) .openParen).bind fun _ _ _ => ?_
  refine (inStep_advance (by rintro _ rfl; decide)).bind fun _ _ _ => (h _).bind fun e f he => ?_
  refine (inStep_expect (fun _ hk => hk.inner) .closeParen).bind fun _ _ _ => ?_
  refine (inStep_expect (by rintro _ rfl; decide) .openCurly).bind fun _ _ _ => ?_
  refine (block_inStep h).bind fun b b' hb => ?_
  refine ((alternative_inStep h).weaken (by rintro _ rfl; trivial)).bind fun a a' ha => ?_
  refine (inStep_siteFrom ht).bind fun s s' hs => .pure ?_
  exact hs.conditional he hb ha

theorem moreParameters_inStep {done done' : Array Identifier} {p q : Parser}
    (hd : L.SameAll Identifier.move done done') (hp : L.Parsers p q)
    (hk : p.current.kind.Inner) :
    L.Outcomes (L.SameAll Identifier.move) (· = .identifier) (moreParameters done p)
      (moreParameters done' q) := by
  have ht := inStep_expect (fun _ hk => hk) .identifier hp hk
  fun_induction moreParameters done p generalizing done' q with
  | case1 done p d r hr =>
    rcases ht.of_error hr with ⟨e, r', hr', hb, hp'⟩ | ⟨c, hedge, hposition⟩
    · rw [moreParameters_eq, hr']
      exact .error hb hp'
    · exact .lost hedge hposition
  | case2 done p t r hr hc ih =>
    obtain ⟨u, r', hr', hv, hp', hk'⟩ := ht.of_ok hr
    have hinner : r.current.kind.Inner := by rw [hk']; decide
    have hcomma : r.advance.current.kind.Inner := by
      show r.peek.kind.Inner
      rw [hc]
      decide
    have hn := hp'.advance hinner
    rw [moreParameters_eq done' q, hr']
    dsimp only
    rw [if_pos (kind_eq (hp'.peek hinner) ▸ hc)]
    exact ih (hd.push (same_ofToken hv)) hn hcomma (inStep_expect (fun _ hk => hk) _ hn hcomma)
  | case3 done p t r hr hc =>
    obtain ⟨u, r', hr', hv, hp', hk'⟩ := ht.of_ok hr
    rw [moreParameters_eq done' q, hr']
    dsimp only
    rw [if_neg (kind_eq (hp'.peek (by rw [hk']; decide)) ▸ hc)]
    exact .ok (hd.push (same_ofToken hv)) hp' hk'

theorem someParameters_inStep :
    L.InStep TokenKind.Inner (L.SameAll Identifier.move) (· = .identifier) someParameters
      someParameters := fun _ _ hp hk => moreParameters_inStep rfl hp hk

theorem parameters_inStep :
    L.InStep TokenKind.Inner (L.Same fun h => List.map (Identifier.move h)) (· = .closeParen)
      parameters parameters := by
  refine .ifPeek (fun _ hk => hk) (.pure rfl) (someParameters_inStep.bind fun ids js hids => ?_)
  exact (inStep_expect (by rintro _ rfl; decide) _).bind fun _ _ _ => .pure hids

theorem function_inStep (h : operand.InStep L) :
    L.InStep TokenKind.Inner (L.Same Expr.move) TokenKind.Ends (function operand)
      (function operand) := by
  refine .current fun t u ht hk => ?_
  refine (inStep_expect (by rintro _ rfl; exact hk) .openParen).bind fun _ _ _ => ?_
  refine (parameters_inStep.weaken (by rintro _ rfl; decide)).bind fun ids js hids => ?_
  refine (inStep_expect (by rintro _ rfl; decide) .openCurly).bind fun _ _ _ => ?_
  refine (block_inStep h).bind fun b b' hb => (inStep_siteFrom ht).bind fun s s' hs => ?_
  refine (InStep.pure ?_).strengthen (by rintro _ rfl; trivial)
  exact hs.function hids hb

theorem prefixRule_inStep (h : operand.InStep L) (rule : PrefixRule) :
    L.InStep (·.prefixRule? = some rule) (L.Same Expr.move) TokenKind.Ends
      (prefixRule operand rule) (prefixRule operand rule) := by
  have hinner : ∀ k : TokenKind, k.prefixRule? = some rule → k.Inner := fun _ =>
    TokenKind.inner_of_prefixRule
  cases rule with
  | identifier => exact identifier_inStep.weaken fun k hk => by cases k <;> trivial
  | integer => exact integer_inStep.weaken fun k hk => by cases k <;> trivial
  | boolean => exact boolean_inStep.weaken fun k hk => by cases k <;> trivial
  | unary => exact (unary_inStep h).weaken hinner
  | group => exact (group_inStep h).weaken hinner
  | conditional => exact (conditional_inStep h).weaken hinner
  | function => exact (function_inStep h).weaken hinner

/-! ## How an expression goes on -/

section Infix

variable {left left' : Expr}

theorem binary_inStep (h : operand.InStep L) (hl : L.Same Expr.move left left') (power : Power) :
    L.InStep TokenKind.Inner (L.Same Expr.move) TokenKind.Ends (binary operand left power)
      (binary operand left' power) := by
  refine (inStep_advance fun _ hk => hk).bind fun t u ht => (h _).bind fun e f he => ?_
  refine (inStep_siteSince hl.start_eq ht).bind fun s s' hs => .pure ?_
  rw [← literal_eq ht]
  exact hs.binary _ hl he

theorem moreArguments_inStep (h : operand.InStep L) {done done' : Array Expr} {p q : Parser}
    (hd : L.SameAll Expr.move done done') (hp : L.Parsers p q) (hk : p.current.kind.Ends) :
    L.Outcomes (L.SameAll Expr.move) TokenKind.Ends (moreArguments operand done p)
      (moreArguments operand done' q) := by
  have hpeek := kind_eq (hp.peek hk.inner)
  have hcomma (hc : p.peek.kind = .comma) : L.Parsers p.advance.advance q.advance.advance :=
    (hp.advance hk.inner).advance (by show p.peek.kind.Inner; rw [hc]; decide)
  fun_induction moreArguments operand done p generalizing done' q with
  | case1 done p hc e r hr ih =>
    obtain ⟨f, r', hr', hv, hp', hk'⟩ := (h .default (hcomma hc) trivial).of_ok hr
    rw [moreArguments_eq operand done' q, if_pos (hpeek ▸ hc), hr']
    exact ih (hd.push hv) hp' hk' (kind_eq (hp'.peek hk'.inner)) fun hc =>
      (hp'.advance hk'.inner).advance (by show r.peek.kind.Inner; rw [hc]; decide)
  | case2 done p hc d r hr =>
    rcases (h .default (hcomma hc) trivial).of_error hr with
      ⟨e, r', hr', hb, hp'⟩ | ⟨c, hedge, hposition⟩
    · rw [moreArguments_eq operand done' q, if_pos (hpeek ▸ hc), hr']
      exact .error hb hp'
    · exact .lost hedge hposition
  | case3 done p hc =>
    rw [moreArguments_eq, if_neg (hpeek ▸ hc)]
    exact .ok hd hp hk

theorem laterArguments_inStep (h : operand.InStep L) (hl : L.Same Expr.move left left') :
    L.InStep TokenKind.Ends (L.SameAll Expr.move) TokenKind.Ends (laterArguments operand left)
      (laterArguments operand left') := by
  have hnone : L.SameAll Expr.move #[] #[] := rfl
  exact fun _ _ hp hk => moreArguments_inStep h (hnone.push hl) hp hk

theorem arguments_inStep (h : operand.InStep L) :
    L.InStep TokenKind.Inner (L.Same Expr.moveList) (· = .closeParen) (arguments operand)
      (arguments operand) := by
  refine .ifPeek (fun _ hk => hk) (.pure rfl) ?_
  refine (inStep_advance fun _ hk => hk).bind fun _ _ _ => (h _).bind fun e f he => ?_
  refine (laterArguments_inStep h he).bind fun es fs hes => ?_
  exact (inStep_expect (fun _ hk => hk.inner) _).bind fun _ _ _ => .pure hes.exprs

theorem call_inStep (h : operand.InStep L) (hl : L.Same Expr.move left left') :
    L.InStep TokenKind.Inner (L.Same Expr.move) TokenKind.Ends (call operand left)
      (call operand left') := by
  refine .current fun t u ht hk => ?_
  refine ((arguments_inStep h).weaken (by rintro _ rfl; exact hk)).bind fun es fs hes => ?_
  refine (inStep_siteSince hl.start_eq ht).bind fun s s' hs => ?_
  refine (InStep.pure ?_).strengthen (by rintro _ rfl; trivial)
  exact hs.call hl hes

theorem infixRule_inStep (h : operand.InStep L) (hl : L.Same Expr.move left left')
    (power : Power) : ∀ rule, L.InStep (·.infixRule? = some rule) (L.Same Expr.move)
      TokenKind.Ends (infixRule operand left power rule) (infixRule operand left' power rule)
  | .binary => (binary_inStep h hl power).weaken fun _ => TokenKind.inner_of_infixRule
  | .call => (call_inStep h hl).weaken fun _ => TokenKind.inner_of_infixRule

theorem operationsFrom_inStep (h : operand.InStep L) (hl : L.Same Expr.move left left')
    {power : Power} {p q : Parser} (hp : L.Parsers p q) (hk : p.current.kind.Ends) :
    L.Outcomes (L.Same Expr.move) TokenKind.Ends (operationsFrom operand power left p)
      (operationsFrom operand power left' q) := by
  have hpeek := kind_eq (hp.peek hk.inner)
  fun_induction operationsFrom operand power left p generalizing left' q with
  | case1 left p hlt hrule =>
    rw [operationsFrom_eq, ← hpeek, if_pos hlt, hrule]
    exact .ok hl hp hk
  | case2 left p hlt rule hrule e r hr ih =>
    have he := infixRule_inStep h hl p.peek.kind.power rule (hp.advance hk.inner) hrule
    obtain ⟨f, r', hr', hv, hp', hk'⟩ := he.of_ok hr
    rw [operationsFrom_eq operand power left' q, ← hpeek, if_pos hlt, hrule]
    dsimp only
    rw [hr']
    exact ih hv hp' hk' (kind_eq (hp'.peek hk'.inner))
  | case3 left p hlt rule hrule d r hr =>
    have he := infixRule_inStep h hl p.peek.kind.power rule (hp.advance hk.inner) hrule
    rcases he.of_error hr with ⟨e, r', hr', hb, hp'⟩ | ⟨c, hedge, hposition⟩
    · rw [operationsFrom_eq operand power left' q, ← hpeek, if_pos hlt, hrule]
      dsimp only
      rw [hr']
      exact .error hb hp'
    · exact .lost hedge hposition
  | case4 left p hlt =>
    rw [operationsFrom_eq, ← hpeek, if_neg hlt]
    exact .ok hl hp hk

end Infix

theorem operation_inStep (h : operand.InStep L) (power : Power) :
    L.InStep (fun _ => True) (L.Same Expr.move) TokenKind.Ends (operation operand power)
      (operation operand power) := by
  refine .current fun t u ht _ => ?_
  rw [← kind_eq ht, ← literal_eq ht]
  cases hrule : t.kind.prefixRule? with
  | none => exact inStep_failHere _
  | some rule =>
    refine ((prefixRule_inStep h rule).weaken (by rintro _ rfl; exact hrule)).bind fun e f he => ?_
    exact fun _ _ hp hk => operationsFrom_inStep h he hp hk

end Parse

/-! ## Operands -/

namespace Operand

variable {L : Likeness}

theorem ofLevels_inStep (n : Nat) : (ofLevels n).InStep L := by
  induction n with
  | zero => exact fun _ => inStep_failHere _
  | succ n ih => exact fun power => (operation_inStep ih power).nested

theorem full_inStep : full.InStep L := by
  intro power p q hp hk
  have h := ofLevels_inStep (Parser.depthLimit - p.depth) power hp hk
  show L.Outcomes _ _ _ (((ofLevels (Parser.depthLimit - q.depth)).parse power).run q)
  rw [← hp.depth_eq]
  exact h

end Operand

/-! ## Programs -/

/-- Does a likeness last over every token? -/
structure Likeness.Lasting (L : Likeness) : Prop where
  /-- Cursors that correspond do so one token on. -/
  advance {c d : Cursor} : L.Cursors c d → L.Cursors c.advance d.advance
  /-- Neither source ends before the other. -/
  not_edge {c d : Cursor} : ¬ L.Edge c d

variable {L : Likeness}

theorem Likeness.Lasting.parsers_advance (h : L.Lasting) {p q : Parser} (hp : L.Parsers p q) :
    L.Parsers p.advance q.advance := ⟨h.advance hp.cursors, hp.depth_eq, hp.recorded⟩

namespace Parser

theorem topLevel_inStep (hL : L.Lasting) {done done' : Array Stmt} {p q : Parser}
    (hd : L.SameAll Stmt.move done done') (hp : L.Parsers p q) :
    L.SameAll Stmt.move (topLevel done p).1 (topLevel done' q).1 ∧
      L.Parsers (topLevel done p).2 (topLevel done' q).2 := by
  have hs := statement_inStep Operand.full_inStep hp trivial
  have hkind := kind_eq hp.current
  fun_induction topLevel done p generalizing done' q with
  | case1 done p hk =>
    rw [topLevel_eq, if_pos (hkind ▸ hk)]
    exact ⟨hd, hp⟩
  | case2 done p hk s r hr ih =>
    obtain ⟨u, r', hr', hv, hp', -⟩ := hs.of_ok hr
    have hn := hL.parsers_advance hp'
    rw [topLevel_eq done' q, if_neg (hkind ▸ hk), hr']
    exact ih (hd.push hv) hn (statement_inStep Operand.full_inStep hn trivial) (kind_eq hn.current)
  | case3 done p hk d r hr ih =>
    rcases hs.of_error hr with ⟨e, r', hr', hb, hp'⟩ | ⟨c, hedge, -⟩
    · have hn := hL.parsers_advance (hp'.record hb)
      rw [topLevel_eq done' q, if_neg (hkind ▸ hk), hr']
      exact ih hd hn (statement_inStep Operand.full_inStep hn trivial) (kind_eq hn.current)
    · exact absurd hedge hL.not_edge

end Parser

end ExprLang
