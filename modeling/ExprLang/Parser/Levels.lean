import ExprLang.Parser.Expression

/-!
# Levels and depth

The operand of the levels that are left does what the full operand does, so the
full operand satisfies the equation one would write for it without any levels
(`Operand.run_full_parse`): inside one more expression, an operation whose operands are full
again.

The proof compares parses on the parsers that have some property.  If the property lasts
while a parse goes on (`Parser.Lasting`), parses that agree there compose, and a rule agrees
with itself at two operands that agree.  The depth is such a property, because a steady
parse restores it.

A rule that goes one token on before anything else asks for its operands only from there, so
it agrees with itself already where the property holds one token on (`Parser.Next`).
-/

namespace ExprLang

/-! ## Properties that last -/

namespace Parser

/-- Does a property of parsers last while the cursor goes on and the depth is what it was? -/
def Lasting (P : Parser → Prop) : Prop :=
  ∀ p q : Parser, P p → p.cursor.Reaches q.cursor → q.depth = p.depth → P q

/-- Does the property hold one token on? -/
def Next (P : Parser → Prop) (p : Parser) : Prop := P p.advance

variable {P : Parser → Prop} {p q : Parser}

theorem Lasting.of_leads (hP : Lasting P) (hp : P p) (h : p.Leads q) : P q :=
  hP p q hp h.reaches h.depth_eq

theorem Lasting.advance (hP : Lasting P) (hp : P p) : P p.advance :=
  hP.of_leads hp p.leads_advance

/-- What lasts lasts one token on as well. -/
theorem Lasting.next (hP : Lasting P) : Lasting (Next P) :=
  fun p q hp hreaches hdepth => hP p.advance q.advance hp hreaches.advances hdepth

theorem lasting_depth (d : Nat) : Lasting fun p => p.depth = d :=
  fun _ _ hp _ hdepth => hdepth.trans hp

end Parser

/-! ## Parses that agree where a property holds -/

namespace Parse

variable {α β : Type} {P Q : Parser → Prop}

/-- Do two parses do the same on every parser with the property `P`? -/
def AgreeOn (P : Parser → Prop) (x y : Parse α) : Prop := ∀ p : Parser, P p → x.run p = y.run p

theorem AgreeOn.refl (x : Parse α) : AgreeOn P x x := fun _ _ => rfl

theorem AgreeOn.mono {x y : Parse α} (h : AgreeOn Q x y) (hPQ : ∀ p, P p → Q p) :
    AgreeOn P x y := fun p hp => h p (hPQ p hp)

/-- What agrees one token on agrees where the property holds. -/
theorem AgreeOn.of_next {x y : Parse α} (hP : Parser.Lasting P)
    (h : AgreeOn (Parser.Next P) x y) : AgreeOn P x y := h.mono fun _ hp => hP.advance hp

theorem AgreeOn.bind {x y : Parse α} {f g : α → Parse β} (hP : Parser.Lasting P)
    (hx : AgreeOn P x y) (steady : Steady x) (hf : ∀ a, AgreeOn P (f a) (g a)) :
    AgreeOn P (x >>= f) (y >>= g) := by
  intro p hp
  have hl := steady p
  rw [EStateM.run_bind, EStateM.run_bind, ← hx p hp]
  split
  · next a q heq =>
    rw [heq] at hl
    exact hf a q (hP.of_leads hp hl)
  · rfl

/-- A step that does not depend on the operand may come first. -/
theorem AgreeOn.then {x : Parse α} {f g : α → Parse β} (hP : Parser.Lasting P)
    (steady : Steady x) (hf : ∀ a, AgreeOn P (f a) (g a)) : AgreeOn P (x >>= f) (x >>= g) :=
  (AgreeOn.refl x).bind hP steady hf

/-- So may a look at the token the parser stands on. -/
theorem AgreeOn.current {f g : Token → Parse β} (hf : ∀ t, AgreeOn P (f t) (g t)) :
    AgreeOn P (Parse.current >>= f) (Parse.current >>= g) := fun p hp => hf p.current p hp

/-- So may a look at the token ahead. -/
theorem AgreeOn.peekKind {f g : TokenKind → Parse β} (hf : ∀ k, AgreeOn P (f k) (g k)) :
    AgreeOn P (Parse.peekKind >>= f) (Parse.peekKind >>= g) := fun p hp => hf p.peek.kind p hp

/-- What comes behind a step over a token is one token on. -/
theorem AgreeOn.advance {f g : Token → Parse β} (hf : ∀ t, AgreeOn P (f t) (g t)) :
    AgreeOn (Parser.Next P) (Parse.advance >>= f) (Parse.advance >>= g) :=
  fun p hp => hf p.current p.advance hp

/-- So is what comes behind a token that was expected. -/
theorem AgreeOn.expect {kind : TokenKind} {f g : Token → Parse β}
    (hf : ∀ t, AgreeOn P (f t) (g t)) :
    AgreeOn (Parser.Next P) (Parse.expect kind >>= f) (Parse.expect kind >>= g) := by
  intro p hp
  rw [EStateM.run_bind, EStateM.run_bind, run_expect]
  by_cases hk : p.peek.kind = kind
  · rw [if_pos hk]
    exact hf p.peek p.advance hp
  · rw [if_neg hk]

theorem AgreeOn.ite {c : Prop} [Decidable c] {x y x' y' : Parse α} (hx : AgreeOn P x x')
    (hy : AgreeOn P y y') : AgreeOn P (if c then x else y) (if c then x' else y') := by
  split
  · exact hx
  · exact hy

/-- Parses that agree one level in agree when they are nested. -/
theorem AgreeOn.nested {x y : Parse α} (h : AgreeOn Q x y) (hPQ : ∀ p, P p → Q p.enter) :
    AgreeOn P (Parse.nested x) (Parse.nested y) := by
  intro p hp
  by_cases hl : p.depth < Parser.depthLimit
  · rw [run_nested hl, run_nested hl, h p.enter (hPQ p hp)]
  · rw [run_nested_of_le (Nat.not_lt.1 hl), run_nested_of_le (Nat.not_lt.1 hl)]

end Parse

/-- Do two operands do the same on every parser with the property `P`? -/
def Operand.AgreeOn (P : Parser → Prop) (a b : Operand) : Prop :=
  ∀ power, Parse.AgreeOn P (a.parse power) (b.parse power)

/-! ## Rules agree at operands that agree -/

namespace Parse

variable {P : Parser → Prop} {a b : Operand}

theorem binding_agree (hP : Parser.Lasting P) (h : a.AgreeOn P b) :
    AgreeOn (Parser.Next P) (binding a) (binding b) :=
  .current fun _ => .expect fun _ => .then hP (steady_expect _) fun _ =>
    .then hP steady_advance fun _ => (h _).bind hP (a.steady _) fun _ => .refl _

theorem result_agree (hP : Parser.Lasting P) (h : a.AgreeOn P b) :
    AgreeOn (Parser.Next P) (result a) (result b) :=
  .advance fun _ => (h _).bind hP (a.steady _) fun _ => .refl _

theorem expressionStatement_agree (hP : Parser.Lasting P) (h : a.AgreeOn P b) :
    AgreeOn P (expressionStatement a) (expressionStatement b) :=
  .current fun _ => (h _).bind hP (a.steady _) fun _ => .refl _

theorem stmtRule_agree (hP : Parser.Lasting P) (h : a.AgreeOn P b) :
    ∀ rule, AgreeOn P (stmtRule a rule) (stmtRule b rule)
  | some .binding => (binding_agree hP h).of_next hP
  | some .result => (result_agree hP h).of_next hP
  | none => expressionStatement_agree hP h

theorem statement_agree (hP : Parser.Lasting P) (h : a.AgreeOn P b) :
    AgreeOn P (statement a) (statement b) :=
  .current fun _ => stmtRule_agree hP h _

theorem moreStatements_agree (hP : Parser.Lasting P) (h : a.AgreeOn P b) (done : Array Stmt)
    (p : Parser) (hp : P p) : moreStatements a done p = moreStatements b done p := by
  have hs := statement_agree hP h p hp
  have hl := steady_statement a p
  fun_induction moreStatements a done p with
  | case1 done p hc => rw [moreStatements_eq, if_pos hc]
  | case2 done p hc he => rw [moreStatements_eq, if_neg hc, if_pos he]
  | case3 done p hc he s q ha ih =>
    rw [ha] at hs hl
    have hq : P q.advance := hP.advance (hP.of_leads hp hl)
    rw [moreStatements_eq b done p, if_neg hc, if_neg he, ← hs,
      ih hq (statement_agree hP h _ hq) (steady_statement a _)]
  | case4 done p hc he e q ha hq =>
    rw [ha] at hs
    rw [moreStatements_eq b done p, if_neg hc, if_neg he, ← hs]
    exact (if_pos hq).symm
  | case5 done p hc he e q ha hq ih =>
    rw [ha] at hs hl
    have hq' : P (q.record e).advance :=
      hP.advance (hP.of_leads hp (hl.trans (q.leads_record e)))
    rw [moreStatements_eq b done p, if_neg hc, if_neg he, ← hs,
      ih hq' (statement_agree hP h _ hq') (steady_statement a _)]
    exact (if_neg hq).symm

theorem statements_agree (hP : Parser.Lasting P) (h : a.AgreeOn P b) :
    AgreeOn P (statements a) (statements b) :=
  fun p hp => moreStatements_agree hP h #[] p hp

theorem block_agree (hP : Parser.Lasting P) (h : a.AgreeOn P b) :
    AgreeOn (Parser.Next P) (block a) (block b) :=
  .advance fun _ => (statements_agree hP h).bind hP (steady_statements a) fun _ => .refl _

theorem unary_agree (hP : Parser.Lasting P) (h : a.AgreeOn P b) :
    AgreeOn (Parser.Next P) (unary a) (unary b) :=
  .advance fun _ => (h _).bind hP (a.steady _) fun _ => .refl _

theorem group_agree (hP : Parser.Lasting P) (h : a.AgreeOn P b) :
    AgreeOn (Parser.Next P) (group a) (group b) :=
  .advance fun _ => (h _).bind hP (a.steady _) fun _ => .refl _

theorem alternative_agree (hP : Parser.Lasting P) (h : a.AgreeOn P b) :
    AgreeOn P (alternative a) (alternative b) :=
  .peekKind fun _ => .ite
    (.then hP steady_advance fun _ => .then hP (steady_expect _) fun _ =>
      ((block_agree hP h).of_next hP).bind hP (steady_block a) fun _ => .refl _)
    (.refl _)

theorem conditional_agree (hP : Parser.Lasting P) (h : a.AgreeOn P b) :
    AgreeOn (Parser.Next P) (conditional a) (conditional b) :=
  .current fun _ => .expect fun _ => .then hP steady_advance fun _ =>
    (h _).bind hP (a.steady _) fun _ => .then hP (steady_expect _) fun _ =>
      .then hP (steady_expect _) fun _ =>
        ((block_agree hP h).of_next hP).bind hP (steady_block a) fun _ =>
          (alternative_agree hP h).bind hP (steady_alternative a) fun _ => .refl _

theorem function_agree (hP : Parser.Lasting P) (h : a.AgreeOn P b) :
    AgreeOn (Parser.Next P) (function a) (function b) :=
  .current fun _ => .expect fun _ => .then hP steady_parameters fun _ =>
    .then hP (steady_expect _) fun _ =>
      ((block_agree hP h).of_next hP).bind hP (steady_block a) fun _ => .refl _

theorem prefixRule_agree (hP : Parser.Lasting P) (h : a.AgreeOn P b) :
    ∀ rule, AgreeOn (Parser.Next P) (prefixRule a rule) (prefixRule b rule)
  | .identifier => .refl _
  | .integer => .refl _
  | .boolean => .refl _
  | .unary => unary_agree hP h
  | .group => group_agree hP h
  | .conditional => conditional_agree hP h
  | .function => function_agree hP h

theorem binary_agree (hP : Parser.Lasting P) (h : a.AgreeOn P b) (left : Expr) (power : Power) :
    AgreeOn (Parser.Next P) (binary a left power) (binary b left power) :=
  .advance fun _ => (h _).bind hP (a.steady _) fun _ => .refl _

theorem moreArguments_agree (hP : Parser.Lasting P) (h : a.AgreeOn P b) (done : Array Expr)
    (p : Parser) (hp : P p) : moreArguments a done p = moreArguments b done p := by
  have he := h .default p.advance.advance (hP.advance (hP.advance hp))
  have hl := a.steady .default p.advance.advance
  fun_induction moreArguments a done p with
  | case1 done p hc e q ha ih =>
    rw [ha] at he hl
    have hq : P q := hP.of_leads (hP.advance (hP.advance hp)) hl
    rw [moreArguments_eq b done p, if_pos hc, ← he,
      ih hq (h _ _ (hP.advance (hP.advance hq))) (a.steady _ _)]
  | case2 done p hc e q ha =>
    rw [ha] at he
    rw [moreArguments_eq b done p, if_pos hc, ← he]
  | case3 done p hc => rw [moreArguments_eq, if_neg hc]

theorem laterArguments_agree (hP : Parser.Lasting P) (h : a.AgreeOn P b) (first : Expr) :
    AgreeOn P (laterArguments a first) (laterArguments b first) :=
  fun p hp => moreArguments_agree hP h #[first] p hp

theorem arguments_agree (hP : Parser.Lasting P) (h : a.AgreeOn P b) :
    AgreeOn (Parser.Next P) (arguments a) (arguments b) :=
  .peekKind fun _ => .ite (.refl _)
    (.advance fun _ => (h _).bind hP (a.steady _) fun _ =>
      (laterArguments_agree hP h _).bind hP (steady_laterArguments a _) fun _ => .refl _)

theorem call_agree (hP : Parser.Lasting P) (h : a.AgreeOn P b) (callee : Expr) :
    AgreeOn (Parser.Next P) (call a callee) (call b callee) :=
  .current fun _ => (arguments_agree hP h).bind hP.next (steady_arguments a) fun _ => .refl _

theorem infixRule_agree (hP : Parser.Lasting P) (h : a.AgreeOn P b) (left : Expr)
    (power : Power) :
    ∀ rule, AgreeOn (Parser.Next P) (infixRule a left power rule) (infixRule b left power rule)
  | .binary => binary_agree hP h left power
  | .call => call_agree hP h left

theorem operationsFrom_agree (hP : Parser.Lasting P) (h : a.AgreeOn P b) (power : Power)
    (left : Expr) (p : Parser) (hp : Parser.Next P p) :
    operationsFrom a power left p = operationsFrom b power left p := by
  fun_induction operationsFrom a power left p with
  | case1 left p hc hr => rw [operationsFrom_eq, if_pos hc, hr]
  | case2 left p hc rule hr e q ha ih =>
    have he := infixRule_agree hP h left p.peek.kind.power rule p.advance (hP.advance hp)
    have hl := steady_infixRule a left p.peek.kind.power rule p.advance
    rw [ha] at he hl
    rw [operationsFrom_eq b power left p, if_pos hc, hr, ih (hP.advance (hP.of_leads hp hl))]
    dsimp only
    rw [← he]
  | case3 left p hc rule hr e q ha =>
    have he := infixRule_agree hP h left p.peek.kind.power rule p.advance (hP.advance hp)
    rw [ha] at he
    rw [operationsFrom_eq b power left p, if_pos hc, hr]
    dsimp only
    rw [← he]
  | case4 left p hc => rw [operationsFrom_eq, if_neg hc]

theorem operations_agree (hP : Parser.Lasting P) (h : a.AgreeOn P b) (power : Power)
    (left : Expr) : AgreeOn (Parser.Next P) (operations a power left) (operations b power left) :=
  fun p hp => operationsFrom_agree hP h power left p hp

theorem operation_agree (hP : Parser.Lasting P) (h : a.AgreeOn P b) (power : Power) :
    AgreeOn (Parser.Next P) (operation a power) (operation b power) := by
  refine .current fun t => ?_
  split
  · exact .refl _
  · exact (prefixRule_agree hP h _).bind hP.next (steady_prefixRule a _) fun _ =>
      operations_agree hP h power _

end Parse

/-! ## The equation of the full operand -/

namespace Operand

open Parse

theorem full_agree (d : Nat) :
    (ofLevels (Parser.depthLimit - d)).AgreeOn (fun p => p.depth = d) full := by
  rintro power p rfl
  rfl

/-- An expression is an operation inside one more expression, with expressions as
its operands. -/
theorem run_full_parse (power : Power) (p : Parser) :
    (full.parse power).run p = (nested (operation full power)).run p := by
  rw [← full_agree p.depth power p rfl]
  by_cases hl : p.depth < Parser.depthLimit
  · have hn : Parser.depthLimit - p.depth = Parser.depthLimit - (p.depth + 1) + 1 := by omega
    rw [hn]
    have hinside :=
      operation_agree (Parser.lasting_depth (p.depth + 1)) (full_agree (p.depth + 1)) power
    have hagree := (hinside.of_next (Parser.lasting_depth _)).nested
      (P := fun q => q.depth = p.depth) fun q hq => congrArg (· + 1) hq
    exact hagree p rfl
  · rw [run_nested_of_le (Nat.not_lt.1 hl), show Parser.depthLimit - p.depth = 0 by omega]
    rfl

end Operand

end ExprLang
