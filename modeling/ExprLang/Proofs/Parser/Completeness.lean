import ExprLang.Parser.Program
import ExprLang.Proofs.Grammar.Replaced
import ExprLang.Proofs.Parser.Overflow
import ExprLang.Proofs.Parser.Success
import ExprLang.Proofs.Token.Spelled

/-!
# Every writing is parsed

A source whose tokens write a program is parsed to that program, if the limit leaves room
for the expressions inside each other, and else the first diagnostic is that they are
nested too deep.

For each kind of writing a predicate `Complete` says what the parser does on it.  An
expression is parsed as part of a longer one, so `Expr.Complete` speaks of an operation
that goes on behind the expression: it does what the operators behind do with the
expression as their left operand.  Each way to write a tree has a lemma that these
predicates are closed under it, and the induction over writings puts them together
(`Expr.Written.complete`).
-/

namespace ExprLang

open Parse

variable {p q : Parser}

/-! ## Steps -/

namespace Parse

/-- A further operator is a rule with operators behind it. -/
theorem operationsFrom_eq_bind {operand : Operand} {power : Power} {left : Expr}
    {rule : InfixRule} (hlt : power < p.peek.kind.power)
    (hrule : p.peek.kind.infixRule? = some rule) :
    operationsFrom operand power left p =
      (infixRule operand left p.peek.kind.power rule >>= operations operand power).run
        p.advance := by
  rw [operationsFrom_eq, if_pos hlt, hrule, EStateM.run_bind]
  dsimp only
  cases (infixRule operand left p.peek.kind.power rule).run p.advance <;> rfl

end Parse

/-! ## What the parser does on a writing -/

/-- Where an expression is asked for that admits the writing, and the token behind goes
on with no part of it, the expression is the left operand of what comes behind. -/
def Expr.Complete (e : Expr) (ts : List Token) (top : Power) (n : Nat) : Prop :=
  ∀ {power : Power} {p q : Parser}, 0 < p.room → power.Admits top → p.Reads ts q →
    q.peek.kind.power ≤ top → q.peek.kind ≠ .kwElse →
    p.Meets n ((operation .full power).run p.enter) (operationsFrom .full power e q.enter)

/-- The arguments are read to the closing parenthesis behind them. -/
def Expr.ListComplete (es : List Expr) (ts : List Token) (n : Nat) : Prop :=
  ∀ {p q : Parser} {c : Token}, 0 < p.room → p.Ahead (ts ++ [c]) q → c.kind = .closeParen →
    p.Meets n ((arguments .full).run p.enter) (.ok es q.enter)

/-- The arguments, each behind a comma, are read up to the closing parenthesis. -/
def Expr.MoreComplete (es : List Expr) (ts : List Token) (n : Nat) : Prop :=
  ∀ {p q : Parser} (done : Array Expr), 0 < p.room → p.Ahead ts q → q.peek.kind = .closeParen →
    p.Meets n (moreArguments .full done p.enter) (.ok (done ++ es.toArray) q.enter)

/-- The block behind a token is read to its closing brace. -/
def Block.Complete (b : Block) (ts : List Token) (n : Nat) : Prop :=
  ∀ {p q : Parser}, p.Ahead ts q →
    p.peek.kind = .openCurly ∧ p.Meets n ((block .full).run p.advance) (.ok b q)

/-- The second branch is read, if there is one. -/
def Block.ElseComplete (a : Option Block) (ts : List Token) (n : Nat) : Prop :=
  ∀ {p q : Parser}, p.Ahead ts q → q.peek.kind ≠ .kwElse →
    p.Meets n ((alternative .full).run p) (.ok a q)

/-- Can a token of this kind stand behind a statement without a semicolon? -/
def TokenKind.Separates (k : TokenKind) : Prop :=
  k.power = .default ∧ k ≠ .kwElse ∧ k ≠ .semicolon

/-- The statement is read to its semicolon, or up to a token that can stand behind. -/
def Stmt.Complete (s : Stmt) (ts : List Token) (n : Nat) (semicolon? : Option Token) : Prop :=
  ∀ {p q : Parser}, p.Reads ts q → (semicolon? = none → q.peek.kind.Separates) →
    p.Meets n ((statement .full).run p) (.ok s q)

/-- The statements are read to the closing brace behind them. -/
def Stmt.ListComplete (ss : List Stmt) (ts : List Token) (n : Nat) : Prop :=
  ∀ {p q : Parser} {c : Token} (done : Array Stmt), p.Reads (ts ++ [c]) q →
    c.kind = .closeCurly → p.Meets n (moreStatements .full done p) (.ok (done ++ ss.toArray) q)

/-! ## Expressions where they are asked for -/

variable {e left right : Expr} {ts us vs : List Token} {top l r power : Power} {m n : Nat}
  {o c k : Token}

/-- An expression by itself. -/
theorem Expr.Complete.parse (h : e.Complete ts top n) (hw : e.Written ts top n)
    (hadm : power.Admits top) (hr : p.Reads ts q) (hp : q.peek.kind.power ≤ power)
    (helse : q.peek.kind ≠ .kwElse) : p.Meets n ((Operand.full.parse power).run p) (.ok e q) := by
  have hend : operationsFrom .full power e q.enter = .ok e q.enter := by
    rw [operationsFrom_eq]
    exact if_neg (Power.not_lt.2 hp)
  have hm : 0 < p.room → p.Meets n ((operation .full power).run p.enter) (.ok e q.enter) := by
    intro hroom
    rw [← hend]
    exact h hroom hadm hr (hadm.le hp) helse
  have hn := Parser.Meets.nested hm hw.need_pos
  rwa [← Operand.run_full_parse] at hn

/-- An expression as part of another one that starts at `p`. -/
theorem Expr.Complete.inside {r : Parser} (h : e.Complete ts top n) (hw : e.Written ts top n)
    (hadm : power.Admits top) (hroom : 0 < p.room) (hu : p.Ahead us r) (ha : r.Ahead ts q)
    (hp : q.peek.kind.power ≤ power) (helse : q.peek.kind ≠ .kwElse) :
    p.Meets (n + 1) ((Operand.full.parse power).run r.advance.enter) (.ok e q.enter) := by
  obtain ⟨t, vs, hts, -⟩ := hw.head
  have hm := h.parse (p := r.advance.enter) hw hadm (ha.reads hts).enter hp helse
  have hu : p.Ahead (us ++ [r.peek]) r.advance := Parser.ahead_append.2 ⟨r, hu, rfl, rfl⟩
  exact hm.of_enter hu hroom

/-- An operation starts with what its first token calls for. -/
theorem operation_meets {rule : PrefixRule} (hrule : p.current.kind.prefixRule? = some rule)
    (h : p.Meets n ((prefixRule .full rule).run p.enter) (.ok e q.enter)) :
    p.Meets n ((operation .full power).run p.enter) (operationsFrom .full power e q.enter) := by
  have hrule : p.enter.current.kind.prefixRule? = some rule := hrule
  rw [operation, run_current_bind, hrule]
  exact h.bind_eq (fun _ => steady_operations _ _ _) rfl

/-- Operators go on with one that binds tighter than what is asked for. -/
theorem operationsFrom_meets {rule : InfixRule} {s : Parser} (hlt : power < q.peek.kind.power)
    (hrule : q.peek.kind.infixRule? = some rule)
    (h : p.Meets n ((infixRule .full left q.peek.kind.power rule).run q.advance.enter)
      (.ok e s.enter)) :
    p.Meets n (operationsFrom .full power left q.enter) (operationsFrom .full power e s.enter) := by
  rw [operationsFrom_eq_bind (p := q.enter) hlt hrule]
  exact h.bind_eq (fun _ => steady_operations _ _ _) rfl

/-! ## How an expression starts -/

theorem Expr.Complete.identifier (hk : k.kind = .identifier) :
    Expr.Complete (.identifier (.ofToken k)) [k] .call 1 := by
  rintro power p q hroom - ⟨rfl, rfl⟩ - -
  have hrule : q.current.kind.prefixRule? = some .identifier := by rw [hk]; rfl
  exact operation_meets hrule (.of_eq rfl hroom)

theorem Expr.Complete.integer {v : Int64} (hk : k.kind = .int)
    (hv : Text.integer? k.literal = some v) :
    Expr.Complete (.integer ⟨k, k.span⟩ v) [k] .call 1 := by
  rintro power p q hroom - ⟨rfl, rfl⟩ - -
  have hrule : q.current.kind.prefixRule? = some .integer := by rw [hk]; rfl
  refine operation_meets hrule (.of_eq ?_ hroom)
  exact integer_eq_ok_iff.2 ⟨v, hv, rfl, rfl⟩

theorem Expr.Complete.boolean (hk : k.kind = .kwTrue ∨ k.kind = .kwFalse) :
    Expr.Complete (.boolean ⟨k, k.span⟩ (k.kind = .kwTrue)) [k] .call 1 := by
  rintro power p q hroom - ⟨rfl, rfl⟩ - -
  have hrule : q.current.kind.prefixRule? = some .boolean := by
    rcases hk with hk | hk <;> rw [hk] <;> rfl
  exact operation_meets hrule (.of_eq rfl hroom)

theorem Expr.Complete.unary (ho : o.kind.prefixRule? = some .unary) (hw : right.Written ts top n)
    (h : right.Complete ts top n) (htop : .unary ≤ top) :
    Expr.Complete (.unary (.ofTokens (o :: ts)) o.literal right) (o :: ts) .unary (n + 1) := by
  rintro power p q hroom - hr hp helse
  have ho : p.current.kind.prefixRule? = some .unary := hr.1 ▸ ho
  have hm := h.inside hw (.of_unary_le (by decide) htop) hroom (show p.Ahead [] p from rfl) hr.2
    hp helse
  refine operation_meets ho ?_
  show p.Meets (n + 1) ((Parse.unary .full).run p.enter) _
  rw [Parse.unary, run_advance_bind, ← hr.site, ← hr.1]
  exact hm.bind_eq (fun _ => (steady_siteFrom _).bind fun _ => steady_pure _) rfl

theorem Expr.Complete.group (ho : o.kind = .openParen) (hw : e.Written ts top n)
    (h : e.Complete ts top n) (hc : c.kind = .closeParen) :
    Expr.Complete e (o :: (ts ++ [c])) .call (n + 1) := by
  rintro power p q hroom - hr - -
  obtain ⟨s, hs, hsc, rfl⟩ := Parser.ahead_append.1 hr.2
  have ho : p.current.kind.prefixRule? = some .group := by rw [hr.1, ho]; rfl
  have hk : s.peek.kind = .closeParen := by rw [hsc, hc]
  have hm := h.inside hw hw.admits_default hroom (show p.Ahead [] p from rfl) hs
    (by rw [hk]; decide) (by rw [hk]; decide)
  refine operation_meets ho ?_
  show p.Meets (n + 1) ((Parse.group .full).run p.enter) _
  rw [Parse.group, run_advance_bind]
  refine hm.bind_eq (fun _ => (steady_expect _).bind fun _ => steady_pure _) ?_
  rw [run_expect_bind (show s.enter.peek.kind = .closeParen from hk)]
  rfl

theorem Block.ElseComplete.none : Block.ElseComplete none [] 0 := by
  rintro p q rfl helse
  exact .of_eq (alternative_eq_ok_iff.2 (.inr ⟨helse, rfl, rfl⟩)) (Nat.zero_le _)

theorem Block.ElseComplete.some {b : Block} (hk : k.kind = .kwElse) (h : b.Complete ts n) :
    Block.ElseComplete (some b) (k :: ts) n := by
  rintro p q ⟨hpk, ha⟩ -
  have hk : p.peek.kind = .kwElse := by rw [hpk, hk]
  obtain ⟨ho, hm⟩ := h ha
  have hm := hm.of_ahead (show p.Ahead [p.peek] p.advance from ⟨rfl, rfl⟩)
  rw [alternative, EStateM.run_bind, run_peekKind]
  dsimp only
  rw [if_pos hk, run_advance_bind, run_expect_bind ho]
  exact hm.bind_eq (fun _ => steady_pure _) rfl

theorem Expr.Complete.conditional {b : Block} {a : Option Block} {vs : List Token} {l m n : Nat}
    (hk : k.kind = .kwIf) (ho : o.kind = .openParen) (hw : e.Written ts top l)
    (he : e.Complete ts top l) (hc : c.kind = .closeParen) (hb : b.Complete us m)
    (ha : Block.ElseComplete a vs n) :
    Expr.Complete (.conditional (.ofTokens (k :: o :: (ts ++ c :: (us ++ vs)))) e b a)
      (k :: o :: (ts ++ c :: (us ++ vs))) .call (max l (max m n) + 1) := by
  rintro power p q hroom - hr - helse
  obtain ⟨hpk, hpo, hts⟩ := id hr
  obtain ⟨r, hts, hrc, hus⟩ := Parser.ahead_append.1 hts
  obtain ⟨s, hus, hvs⟩ := Parser.ahead_append.1 hus
  have hrule : p.current.kind.prefixRule? = some .conditional := by rw [hpk, hk]; rfl
  have ho : p.enter.peek.kind = .openParen := by rw [← ho, ← hpo]; rfl
  have hc : r.enter.peek.kind = .closeParen := by rw [← hc, ← hrc]; rfl
  have htor : p.Ahead (p.peek :: ts ++ [r.peek]) r.advance :=
    Parser.ahead_append.2 ⟨r, ⟨rfl, hts⟩, rfl, rfl⟩
  have htos : p.Ahead (p.peek :: ts ++ [r.peek] ++ us) s := Parser.ahead_append.2 ⟨_, htor, hus⟩
  have hme := he.inside hw hw.admits_default hroom (show p.Ahead [p.peek] p.advance from ⟨rfl, rfl⟩)
    hts (by rw [show r.peek.kind = .closeParen from hc]; decide)
    (by rw [show r.peek.kind = .closeParen from hc]; decide)
  obtain ⟨hbr, hmb⟩ := hb hus.enter
  have hma := ha hvs.enter helse
  refine operation_meets hrule ?_
  show p.Meets _ ((Parse.conditional .full).run p.enter) _
  rw [Parse.conditional, run_current_bind, run_expect_bind ho, run_advance_bind,
    ← Nat.add_max_add_right, ← Nat.add_max_add_right]
  refine hme.bind (fun _ => (steady_expect _).bind fun _ => (steady_expect _).bind fun _ =>
    (steady_block _).bind fun _ => (steady_alternative _).bind fun _ =>
      (steady_siteFrom _).bind fun _ => steady_pure _) ?_
  rw [run_expect_bind hc, Parser.advance_enter, run_expect_bind hbr]
  refine (hmb.of_enter htor hroom).bind (fun _ => (steady_alternative _).bind fun _ =>
    (steady_siteFrom _).bind fun _ => steady_pure _) ?_
  refine (hma.of_enter htos hroom).bind_eq (fun _ => (steady_siteFrom _).bind fun _ =>
    steady_pure _) ?_
  rw [← hr.site]
  rfl

theorem moreParameters_written {q : Parser} {t : Token} {ids : List Identifier}
    (done : Array Identifier) (ht : t.kind = .identifier) (h : Identifier.MoreWritten ids ts)
    (ha : p.Ahead (t :: ts) q) (hc : q.peek.kind ≠ .comma) :
    moreParameters done p = .ok (done ++ (.ofToken t :: ids).toArray) q := by
  induction h generalizing p t done with
  | nil =>
    obtain ⟨rfl, rfl⟩ := ha
    rw [moreParameters_eq, run_expect, if_pos ht]
    simp [hc]
  | @cons comma u ids ts hcomma hu hids ih =>
    obtain ⟨rfl, hpc, ha⟩ := ha
    have hcomma : p.advance.peek.kind = .comma := by rw [hpc, hcomma]
    rw [moreParameters_eq, run_expect, if_pos ht]
    simp only [if_pos hcomma]
    rw [ih _ hu ha]
    simp

theorem parameters_written {ids : List Identifier} (h : Identifier.ListWritten ids ts)
    (ha : p.Ahead (ts ++ [c]) q) (hc : c.kind = .closeParen) : parameters.run p = .ok ids q := by
  rw [parameters_eq_ok_iff]
  cases h with
  | nil =>
    obtain ⟨rfl, rfl⟩ := ha
    exact .inl ⟨hc, rfl, rfl⟩
  | @cons t ids ts ht hids =>
    obtain ⟨r, hr, rfl, rfl⟩ := Parser.ahead_append.1 ha
    have hm := moreParameters_written #[] ht hids hr (by rw [hc]; decide)
    refine .inr ⟨?_, _, r, hm, hc, by simp, rfl⟩
    rw [show p.peek = t from hr.1, ht]
    decide

theorem Expr.Complete.function {ids : List Identifier} {b : Block} (hk : k.kind = .kwFn)
    (ho : o.kind = .openParen) (hi : Identifier.ListWritten ids ts) (hc : c.kind = .closeParen)
    (hb : b.Complete us n) :
    Expr.Complete (.function (.ofTokens (k :: o :: (ts ++ c :: us))) ids b)
      (k :: o :: (ts ++ c :: us)) .call (n + 1) := by
  rintro power p q hroom - hr - -
  obtain ⟨hpk, hpo, hts⟩ := id hr
  have hrule : p.current.kind.prefixRule? = some .function := by rw [hpk, hk]; rfl
  have ho : p.enter.peek.kind = .openParen := by rw [← ho, ← hpo]; rfl
  rw [List.append_cons] at hts
  obtain ⟨r, hts, hus⟩ := Parser.ahead_append.1 hts
  obtain ⟨hbr, hmb⟩ := hb hus.enter
  refine operation_meets hrule ?_
  show p.Meets _ ((Parse.function .full).run p.enter) _
  rw [Parse.function, run_current_bind, run_expect_bind ho, EStateM.run_bind, Parser.advance_enter,
    parameters_written hi hts.enter hc]
  dsimp only
  rw [run_expect_bind hbr]
  refine (hmb.of_enter (show p.Ahead (p.peek :: (ts ++ [c])) r from ⟨rfl, hts⟩) hroom).bind_eq
    (fun _ => (steady_siteFrom _).bind fun _ => steady_pure _) ?_
  rw [← hr.site]
  rfl

/-! ## How an expression goes on -/

theorem Expr.Complete.binary (hl : left.Complete ts l m) (hwl : left.Written ts l m)
    (ho : o.kind.infixRule? = some .binary) (hr : right.Complete us r n)
    (hwr : right.Written us r n) (hlt : o.kind.power ≤ l) (hgt : o.kind.power < r) :
    Expr.Complete (.binary ⟨o, ⟨left.site.span.start, stopOf us⟩⟩ o.literal left right)
      (ts ++ o :: us) o.kind.power (max m (n + 1)) := by
  rintro power p q hroom hadm hreads hp helse
  obtain ⟨t, vs, hts, -⟩ := hwl.head
  obtain ⟨u, ws, hus, -⟩ := hwr.head
  obtain ⟨s, hs, rfl, ha⟩ := (Parser.reads_append hts).1 hreads
  have hpow : power < s.peek.kind.power := by
    rcases hadm with hadm | ⟨-, h⟩
    · exact hadm
    · exact absurd (TokenKind.power_lt_unary ho) (by rw [h]; exact Nat.lt_irrefl _)
  have helse' : s.peek.kind ≠ .kwElse := by
    intro h
    rw [h] at ho
    cases ho
  have hml := hl hroom (.inl (Power.lt_of_lt_of_le hpow hlt)) hs hlt helse'
  have hmr := hr.inside hwr (.inl hgt) hroom hs.ahead_advance ha hp helse
  refine hml.trans (operationsFrom_meets hpow ho ?_)
  show p.Meets _ ((Parse.binary .full left s.peek.kind.power).run s.advance.enter) _
  rw [Parse.binary, run_advance_bind, (ha.reads hus).stopOf]
  exact hmr.bind_eq (fun _ => (steady_siteSince _ _).bind fun _ => steady_pure _) rfl

/-- Behind an argument stands a comma or the closing parenthesis. -/
theorem Expr.MoreWritten.head_kind {es : List Expr} (h : Expr.MoreWritten es ts n)
    (ha : p.Ahead (ts ++ [c]) q) (hc : c.kind = .closeParen) :
    p.peek.kind = .comma ∨ p.peek.kind = .closeParen := by
  cases h with
  | nil => exact .inr (by rw [ha.1, hc])
  | cons hk _ _ => exact .inl (by rw [← hk]; exact congrArg Token.kind ha.1)

theorem Expr.MoreComplete.nil : Expr.MoreComplete [] [] 0 := by
  rintro p q done hroom rfl hc
  have hc : ¬ q.enter.peek.kind = .comma := by
    rw [show q.enter.peek.kind = .closeParen from hc]
    decide
  rw [moreArguments_eq, if_neg hc]
  exact .of_eq (by simp) (Nat.zero_le _)

theorem Expr.MoreComplete.cons {es : List Expr} (hk : k.kind = .comma) (hw : e.Written ts top m)
    (he : e.Complete ts top m) (hws : Expr.MoreWritten es us n) (hes : Expr.MoreComplete es us n) :
    Expr.MoreComplete (e :: es) (k :: (ts ++ us)) (max (m + 1) n) := by
  rintro p q done hroom ⟨hpk, ha⟩ hc
  obtain ⟨r, hts, hus⟩ := Parser.ahead_append.1 ha
  have hr : r.peek.kind = .comma ∨ r.peek.kind = .closeParen :=
    hws.head_kind (Parser.ahead_append.2 ⟨q, hus, rfl, rfl⟩) hc
  have hk : p.enter.peek.kind = .comma := by rw [← hk, ← hpk]; rfl
  have hme := he.inside hw hw.admits_default hroom (show p.Ahead [p.peek] p.advance from ⟨rfl, rfl⟩)
    hts (by rcases hr with hr | hr <;> rw [hr] <;> decide)
    (by rcases hr with hr | hr <;> rw [hr] <;> decide)
  have htor : p.Ahead (p.peek :: ts) r := ⟨rfl, hts⟩
  have hmes := (hes (p := r) (done.push e) (htor.room_eq ▸ hroom) hus hc).of_ahead htor
  rw [moreArguments_eq, if_pos hk]
  refine hme.andThen ?_ ?_
  · intro ho
    rw [Parser.advance_enter, Parser.advance_enter]
    cases hx : (Operand.full.parse .default).run p.advance.advance.enter with
    | ok b t =>
      rw [hx] at ho
      exact ho.of_leads (leads_moreArguments _ _ _)
    | error d t =>
      rw [hx] at ho
      exact ho
  · intro hx
    rw [Parser.advance_enter, Parser.advance_enter, hx]
    simpa using hmes

theorem Expr.ListComplete.nil : Expr.ListComplete [] [] 0 := by
  rintro p q c hroom ha hc
  obtain ⟨rfl, rfl⟩ := ha
  exact .of_eq (arguments_eq_ok_iff.2 (.inl ⟨hc, rfl, rfl⟩)) (Nat.zero_le _)

theorem Expr.ListComplete.cons {es : List Expr} (hw : e.Written ts top m)
    (he : e.Complete ts top m) (hws : Expr.MoreWritten es us n) (hes : Expr.MoreComplete es us n) :
    Expr.ListComplete (e :: es) (ts ++ us) (max (m + 1) n) := by
  rintro p q c hroom ha hc
  rw [List.append_assoc] at ha
  obtain ⟨r, hts, hrest⟩ := Parser.ahead_append.1 ha
  have hr := hws.head_kind hrest hc
  obtain ⟨s, hus, hsc, rfl⟩ := Parser.ahead_append.1 hrest
  have hs : s.peek.kind = .closeParen := by rw [hsc, hc]
  obtain ⟨t, vs, rfl, ht⟩ := hw.head
  have hp : ¬ p.enter.peek.kind = .closeParen := by
    intro hk
    rw [← hts.1, show p.peek.kind = .closeParen from hk] at ht
    cases ht
  have hme := he.inside hw hw.admits_default hroom (show p.Ahead [] p from rfl) hts
    (by rcases hr with hr | hr <;> rw [hr] <;> decide)
    (by rcases hr with hr | hr <;> rw [hr] <;> decide)
  have hmes := (hes (p := r) #[e] (hts.room_eq ▸ hroom) hus hs).of_ahead hts
  rw [arguments, EStateM.run_bind, run_peekKind]
  dsimp only
  rw [if_neg hp, run_advance_bind]
  refine hme.bind (fun _ => (steady_laterArguments _ _).bind fun _ => (steady_expect _).bind
    fun _ => steady_pure _) ?_
  refine Parser.Meets.bind_eq (x := laterArguments .full e) hmes (fun _ =>
    (steady_expect _).bind fun _ => steady_pure _) ?_
  rw [run_expect_bind (show s.enter.peek.kind = .closeParen from hs)]
  simp
  rfl

theorem Expr.Complete.call {es : List Expr} {callee : Expr} (hf : callee.Complete ts .call m)
    (hw : callee.Written ts .call m) (ho : o.kind = .openParen) (hes : Expr.ListComplete es us n)
    (hc : c.kind = .closeParen) :
    Expr.Complete (.call ⟨o, ⟨callee.site.span.start, c.span.stop⟩⟩ callee es)
      (ts ++ o :: (us ++ [c])) .call (max m n) := by
  rintro power p q hroom hadm hreads hp helse
  obtain ⟨t, vs, hts, -⟩ := hw.head
  obtain ⟨s, hs, rfl, ha⟩ := (Parser.reads_append hts).1 hreads
  have hpow : power < s.peek.kind.power := by
    rw [ho]
    rcases hadm with hadm | ⟨-, h⟩
    · exact hadm
    · cases h
  have hmf := hf hroom hadm hs (Power.le_call _) (by rw [ho]; decide)
  have htos := hs.ahead_advance
  have hmes := (hes (p := s.advance) (htos.room_eq ▸ hroom) ha hc).of_ahead htos
  have hlast : q.current = c := by rw [← ha.getLastD, List.getLastD_concat]
  refine hmf.trans (operationsFrom_meets hpow (TokenKind.infixRule?_eq_call_iff.2 ho) ?_)
  show p.Meets _ ((Parse.call .full callee).run s.advance.enter) _
  rw [Parse.call, run_current_bind, ← hlast]
  exact hmes.bind_eq (fun _ => (steady_siteSince _ _).bind fun _ => steady_pure _) rfl

/-! ## Statements and blocks -/

variable {s : Stmt} {ss : List Stmt} {semicolon? : Option Token}

/-- A semicolon that is there is skipped, and nothing else is. -/
theorem skipSemicolon_eq_ok (ha : p.Ahead semicolon?.toList q)
    (hk : ∀ t ∈ semicolon?, t.kind = .semicolon)
    (hsep : semicolon? = none → q.peek.kind.Separates) : skipSemicolon.run p = .ok () q := by
  rw [run_skipSemicolon]
  cases semicolon? with
  | none =>
    obtain rfl := Parser.ahead_nil.1 ha
    rw [if_neg (hsep rfl).2.2]
  | some t =>
    obtain ⟨ht, rfl⟩ := ha
    rw [if_pos (by rw [ht, hk t rfl])]

/-- The value of a statement, with what ends the statement behind it. -/
theorem Expr.Complete.value (h : e.Complete ts top n) (hw : e.Written ts top n)
    (hr : p.Reads (ts ++ semicolon?.toList) q) (hk : ∀ t ∈ semicolon?, t.kind = .semicolon)
    (hsep : semicolon? = none → q.peek.kind.Separates) {f : Expr → Site → Stmt} {t : Token}
    (start : Parser) (hs : start.Ahead us p) :
    start.Meets n ((Operand.full.parse .default >>= fun e => do
      skipSemicolon
      let site ← siteFrom t
      pure (f e site)).run p) (.ok (f e ⟨t, q.spanFrom t.span.start⟩) q) := by
  obtain ⟨u, vs, hts, -⟩ := hw.head
  obtain ⟨r, hr, ha⟩ := (Parser.reads_append hts).1 hr
  have hend : r.peek.kind.power ≤ .default ∧ r.peek.kind ≠ .kwElse := by
    cases semicolon? with
    | none =>
      obtain rfl := Parser.ahead_nil.1 ha
      exact ⟨Nat.le_of_eq (congrArg Power.rank (hsep rfl).1), (hsep rfl).2.1⟩
    | some t =>
      rw [ha.1, hk t rfl]
      decide
  have hm := (h.parse hw hw.admits_default hr hend.1 hend.2).of_ahead hs
  refine hm.bind_eq (fun _ => steady_skipSemicolon.bind fun _ => (steady_siteFrom _).bind
    fun _ => steady_pure _) ?_
  rw [EStateM.run_bind, skipSemicolon_eq_ok ha hk hsep]
  rfl

theorem Stmt.Complete.binding {name sign : Token} (hk : k.kind = .kwLet)
    (hname : name.kind = .identifier) (hsign : sign.kind = .assign) (hw : e.Written ts top n)
    (he : e.Complete ts top n) (hsemi : ∀ t ∈ semicolon?, t.kind = .semicolon) :
    Stmt.Complete
      (.binding (.ofTokens (k :: name :: sign :: (ts ++ semicolon?.toList))) (.ofToken name) e)
      (k :: name :: sign :: (ts ++ semicolon?.toList)) n semicolon? := by
  intro p q hr hsep
  obtain ⟨hpk, hpn, hps, ha⟩ := id hr
  obtain ⟨u, vs, hts, -⟩ := hw.head
  have hrule : p.current.kind.stmtRule? = some .binding := by rw [hpk, hk]; rfl
  have hname : p.peek.kind = .identifier := by rw [hpn, hname]
  have hsign : p.advance.peek.kind = .assign := by rw [hps, hsign]
  show p.Meets n ((stmtRule .full p.current.kind.stmtRule?).run p) _
  rw [hrule, ← hr.site, ← hpn]
  show p.Meets n ((Parse.binding .full).run p) _
  rw [Parse.binding, run_current_bind, run_expect_bind hname, run_expect_bind hsign,
    run_advance_bind]
  exact he.value hw (ha.reads (by rw [hts]; rfl)) hsemi hsep p
    (show p.Ahead [p.peek, p.advance.peek, p.advance.advance.peek] _ from ⟨rfl, rfl, rfl, rfl⟩)

theorem Stmt.Complete.result (hk : k.kind = .kwReturn) (hw : e.Written ts top n)
    (he : e.Complete ts top n) (hsemi : ∀ t ∈ semicolon?, t.kind = .semicolon) :
    Stmt.Complete (.result (.ofTokens (k :: (ts ++ semicolon?.toList))) e)
      (k :: (ts ++ semicolon?.toList)) n semicolon? := by
  intro p q hr hsep
  obtain ⟨hpk, ha⟩ := id hr
  obtain ⟨u, vs, hts, -⟩ := hw.head
  have hrule : p.current.kind.stmtRule? = some .result := by rw [hpk, hk]; rfl
  show p.Meets n ((stmtRule .full p.current.kind.stmtRule?).run p) _
  rw [hrule, ← hr.site]
  show p.Meets n ((Parse.result .full).run p) _
  rw [Parse.result, run_advance_bind]
  exact he.value hw (ha.reads (by rw [hts]; rfl)) hsemi hsep p
    (show p.Ahead [p.peek] _ from ⟨rfl, rfl⟩)

theorem Stmt.Complete.expression (hw : e.Written ts top n) (he : e.Complete ts top n)
    (hsemi : ∀ t ∈ semicolon?, t.kind = .semicolon) :
    Stmt.Complete (.expression (.ofTokens (ts ++ semicolon?.toList)) e)
      (ts ++ semicolon?.toList) n semicolon? := by
  intro p q hr hsep
  obtain ⟨u, vs, rfl, hu⟩ := hw.head
  have hrule : p.current.kind.stmtRule? = none := by
    rw [hr.1]
    exact TokenKind.stmtRule?_eq_none hu
  show p.Meets n ((stmtRule .full p.current.kind.stmtRule?).run p) _
  rw [hrule, ← hr.site]
  show p.Meets n ((Parse.expressionStatement .full).run p) _
  rw [Parse.expressionStatement, run_current_bind]
  exact he.value hw hr hsemi hsep p (show p.Ahead [] p from rfl)

/-- A statement starts with no token that could stand behind one only. -/
theorem Stmt.Written.head_kind (h : s.Written ts n semicolon?) (hr : p.Reads (ts ++ us) q) :
    p.current.kind ≠ .kwElse ∧ p.current.kind ≠ .semicolon ∧ p.current.kind ≠ .closeCurly ∧
      p.current.kind ≠ .eof := by
  obtain ⟨t, vs, rfl, ht⟩ := h.head
  rw [hr.1]
  refine ⟨?_, ?_, ?_, ?_⟩ <;> (intro hk; rw [hk] at ht; revert ht; decide)

/-- What comes behind a statement without a semicolon can stand there. -/
theorem Stmt.ListWritten.separates (h : Stmt.ListWritten ss ts n)
    (hts : ∀ t ∈ ts.head?, t.kind.power = .default) (hc : c.kind.Separates)
    (hr : p.Reads (ts ++ [c]) q) : p.current.kind.Separates := by
  cases h with
  | nil =>
    rw [hr.1]
    exact hc
  | @cons s ss ts us m n semicolon? hs hsemi hss =>
    rw [List.append_assoc] at hr
    obtain ⟨helse, hsemicolon, -, -⟩ := hs.head_kind hr
    obtain ⟨t, vs, rfl, -⟩ := hs.head
    refine ⟨?_, helse, hsemicolon⟩
    rw [hr.1]
    exact hts t rfl

/-- The statement in front of others, and the others behind it. -/
theorem Stmt.Complete.first (h : s.Complete ts m semicolon?) (hw : s.Written ts m semicolon?)
    (hsemi : semicolon? = none → ∀ t ∈ us.head?, t.kind.power = .default)
    (hws : Stmt.ListWritten ss us n) (hc : c.kind.Separates)
    (hr : p.Reads (ts ++ us ++ [c]) q) :
    ∃ r vs, p.Ahead vs r.advance ∧ p.Meets m ((statement .full).run p) (.ok s r) ∧
      r.advance.Reads (us ++ [c]) q := by
  obtain ⟨t, vs, hts, -⟩ := hw.head
  rw [List.append_assoc] at hr
  obtain ⟨r, hr, ha⟩ := (Parser.reads_append hts).1 hr
  refine ⟨r, _, hr.ahead_advance, h hr ?_, ha.reads_concat⟩
  intro hnone
  exact hws.separates (hsemi hnone) hc ha.reads_concat

theorem Stmt.ListComplete.nil : Stmt.ListComplete [] [] 0 := by
  rintro p q c done ⟨rfl, rfl⟩ hc
  rw [moreStatements_eq, if_pos hc]
  exact .of_eq (by simp) (Nat.zero_le _)

theorem Stmt.ListComplete.cons (hw : s.Written ts m semicolon?) (hs : s.Complete ts m semicolon?)
    (hsemi : semicolon? = none → ∀ t ∈ us.head?, t.kind.power = .default)
    (hws : Stmt.ListWritten ss us n) (hss : Stmt.ListComplete ss us n) :
    Stmt.ListComplete (s :: ss) (ts ++ us) (max m n) := by
  intro p q c done hr hc
  have hcs : c.kind.Separates := by
    rw [hc]
    exact ⟨rfl, by decide, by decide⟩
  obtain ⟨r, vs, ha, hm, hrest⟩ := hs.first hw hsemi hws hcs hr
  rw [List.append_assoc] at hr
  obtain ⟨-, -, hcurly, heof⟩ := hw.head_kind hr
  have hmss := (hss (done.push s) hrest hc).of_ahead ha
  rw [moreStatements_eq, if_neg hcurly, if_neg heof]
  refine hm.andThen ?_ ?_
  · intro ho
    cases hx : (statement .full).run p with
    | ok b t =>
      rw [hx] at ho
      exact ho.of_leads (t.leads_advance.trans (leads_moreStatements _ _ _))
    | error d t =>
      rw [hx] at ho
      dsimp only
      split
      · exact ho
      · have ho : Overflows p.diagnostics (t.record d).diagnostics.toList := by
          simpa [Parser.record, Parsed.reported] using ho
        exact ho.of_leads ((Parser.leads_advance _).trans (leads_moreStatements _ _ _))
  · intro hx
    rw [hx]
    simpa using hmss

theorem Block.Complete.mk (ho : o.kind = .openCurly) (hss : Stmt.ListComplete ss ts n)
    (hc : c.kind = .closeCurly) :
    Block.Complete (.mk (.ofTokens (o :: (ts ++ [c]))) ss) (o :: (ts ++ [c])) n := by
  intro p q ha
  have hr : p.advance.Reads (o :: (ts ++ [c])) q := ha
  refine ⟨by rw [ha.1, ho], ?_⟩
  have hm := (hss #[] ha.2.reads_concat hc).of_ahead
    (show p.Ahead [p.peek, p.advance.peek] _ from ⟨rfl, rfl, rfl⟩)
  rw [Parse.block, run_advance_bind, ← hr.site]
  refine Parser.Meets.bind_eq (x := statements .full) hm (fun _ => (steady_siteFrom _).bind
    fun _ => steady_pure _) ?_
  simp only [List.append_toArray, List.nil_append, bind_pure_comp]
  rfl

/-! ## Every writing -/

mutual

/-- A writing of an expression is parsed to the expression. -/
theorem Expr.Written.complete {e : Expr} {ts : List Token} {top : Power} {n : Nat} :
    e.Written ts top n → e.Complete ts top n
  | .identifier hk => Expr.Complete.identifier hk
  | .integer hk hv => Expr.Complete.integer hk hv
  | .boolean hk => Expr.Complete.boolean hk
  | .unary ho hr htop => Expr.Complete.unary ho hr hr.complete htop
  | .group ho he hc => Expr.Complete.group ho he he.complete hc
  | .binary hl ho hr hlt hgt => Expr.Complete.binary hl.complete hl ho hr.complete hr hlt hgt
  | .conditional hk ho he hc hb ha =>
      Expr.Complete.conditional hk ho he he.complete hc hb.complete ha.complete
  | .function hk ho hi hc hb => Expr.Complete.function hk ho hi hc hb.complete
  | .call hf ho hes hc => Expr.Complete.call hf.complete hf ho hes.complete hc

theorem Expr.ListWritten.complete {es : List Expr} {ts : List Token} {n : Nat} :
    Expr.ListWritten es ts n → Expr.ListComplete es ts n
  | .nil => Expr.ListComplete.nil
  | .cons he hes => Expr.ListComplete.cons he he.complete hes hes.complete

theorem Expr.MoreWritten.complete {es : List Expr} {ts : List Token} {n : Nat} :
    Expr.MoreWritten es ts n → Expr.MoreComplete es ts n
  | .nil => Expr.MoreComplete.nil
  | .cons hk he hes => Expr.MoreComplete.cons hk he he.complete hes hes.complete

theorem Block.Written.complete {b : Block} {ts : List Token} {n : Nat} :
    b.Written ts n → b.Complete ts n
  | .mk ho hss hc => Block.Complete.mk ho hss.complete hc

theorem Block.ElseWritten.complete {a : Option Block} {ts : List Token} {n : Nat} :
    Block.ElseWritten a ts n → Block.ElseComplete a ts n
  | .none => Block.ElseComplete.none
  | .some hk hb => Block.ElseComplete.some hk hb.complete

theorem Stmt.Written.complete {s : Stmt} {ts : List Token} {n : Nat}
    {semicolon? : Option Token} : s.Written ts n semicolon? → s.Complete ts n semicolon?
  | .binding hk hname hsign he hsemi =>
      Stmt.Complete.binding hk hname hsign he he.complete hsemi
  | .result hk he hsemi => Stmt.Complete.result hk he he.complete hsemi
  | .expression he hsemi => Stmt.Complete.expression he he.complete hsemi

theorem Stmt.ListWritten.complete {ss : List Stmt} {ts : List Token} {n : Nat} :
    Stmt.ListWritten ss ts n → Stmt.ListComplete ss ts n
  | .nil => Stmt.ListComplete.nil
  | .cons hs hsemi hss => Stmt.ListComplete.cons hs hs.complete hsemi hss hss.complete

end

/-! ## Programs -/

/-- Statements up to the end of the source. -/
theorem Parser.topLevel_meets {ss : List Stmt} {ts : List Token} {n : Nat} {last : Token}
    (h : Stmt.ListWritten ss ts n) (hlast : last.kind = .eof) (done : Array Stmt) {p q : Parser}
    (hr : p.Reads (ts ++ [last]) q) :
    p.Meets n (.ok (topLevel done p).1 (topLevel done p).2) (.ok (done ++ ss.toArray) q) := by
  cases h with
  | nil =>
    obtain ⟨rfl, rfl⟩ := hr
    rw [topLevel_eq, if_pos hlast]
    exact .of_eq (by simp) (Nat.zero_le _)
  | @cons s ss ts us m n semicolon? hs hsemi hss =>
    have hcs : last.kind.Separates := by
      rw [hlast]
      exact ⟨rfl, by decide, by decide⟩
    obtain ⟨r, vs, ha, hm, hrest⟩ := Stmt.Complete.first hs.complete hs hsemi hss hcs hr
    have hmss := (topLevel_meets hss hlast (done.push s) hrest).of_ahead ha
    rw [List.append_assoc] at hr
    obtain ⟨-, -, -, heof⟩ := hs.head_kind hr
    rw [topLevel_eq, if_neg heof]
    refine hm.andThen ?_ ?_
    · intro ho
      cases hx : (statement .full).run p with
      | ok b t =>
        rw [hx] at ho
        exact ho.mono (t.leads_advance.trans (leads_topLevel _ _)).diagnostics
      | error d t =>
        rw [hx] at ho
        have ho : Overflows p.diagnostics (t.record d).diagnostics.toList := by
          simpa [Parser.record, Parsed.reported] using ho
        exact ho.mono ((Parser.leads_advance _).trans (leads_topLevel _ _)).diagnostics
    · intro hx
      rw [hx]
      simpa using hmss

/-- A source whose tokens write a program is parsed to that program, if the limit leaves
room for it. -/
theorem Program.Written.parse_meets {P : Program} {need : Nat} {source : String}
    {file? : Option String} (h : P.Written (tokenize source file?) need) :
    (need ≤ Parser.depthLimit →
        (parse source file?).1 = P ∧ (parse source file?).2.diagnostics = #[]) ∧
      (Parser.depthLimit < need → Overflows #[] (parse source file?).2.diagnostics.toList) := by
  let p := (Parser.ofScanner (.ofSource source file?)).reset
  have htokens : p.cursor.tokens = tokenize source file? := Cursor.tokens_ofScanner _
  generalize tokenize source file? = tokens at h htokens
  cases h with
  | @mk ss ts last n hss hlast =>
    obtain ⟨q, hr⟩ := Parser.exists_reads hss.ne_eof htokens
    have hm := Parser.topLevel_meets hss hlast #[] hr
    refine ⟨fun hn => ?_, hm.overflows⟩
    have hbody : Parser.topLevel #[] p = (#[] ++ ss.toArray, q) := by
      have heq := hm.eq hn
      rw [EStateM.Result.ok.injEq] at heq
      exact Prod.ext heq.1 heq.2
    have hfirst : (ts ++ [last]).headD default = p.current := by
      cases ts with
      | nil => exact hr.1.symm
      | cons t ts => exact hr.1.symm
    have hstop : last.span.stop = q.current.span.stop := by
      rw [← hr.stopOf, stopOf_append_singleton]
    have hparse : parse source file? =
        (⟨(#[] ++ ss.toArray).toList, q.spanFrom (.at p.position.file 0)⟩,
          q.finish (#[] ++ ss.toArray).size) := by
      rw [parse, Parser.program]
      show (_, _) = _
      rw [show (Parser.ofScanner (.ofSource source file?)).reset = p from rfl, hbody]
      rfl
    rw [hparse, hfirst, hstop]
    refine ⟨by simp; rfl, hr.diagnostics_eq⟩

/-- The diagnostic that too deep a nesting is reported with comes first. -/
theorem Overflows.getElem?_zero {ds : Array Diagnostic} (h : Overflows #[] ds.toList) :
    ∃ position, ds[0]? = some ⟨.nestingTooDeep Parser.depthLimit, position⟩ := by
  obtain ⟨position, es, hd⟩ := h
  refine ⟨position, ?_⟩
  rw [← Array.getElem?_toList, ← hd]
  rfl

/-- The tokens of a writing come from some source, if a source can spell them at all. -/
theorem Program.Written.exists_source {P : Program} {ts : List Token} {need : Nat}
    (h : P.Written ts need) (hts : ∀ t ∈ ts, t.Scanned) :
    ∃ source, ∀ file?, Token.Agree ts (tokenize source file?) := by
  cases h with
  | @mk ss ts last n hss hlast =>
    have hspelled : ∀ t ∈ ts, t.Spelled := by
      intro t ht
      rcases hts t (List.mem_append_left _ ht) with ⟨heof, -⟩ | h
      · exact absurd heof (hss.ne_eof t ht)
      · exact h
    have hend : last.unplaced = ⟨.eof, "\x00", ⟨.nowhere, .nowhere⟩⟩ := by
      rcases hts last (by simp) with ⟨hk, hl⟩ | ⟨c, text, -, -, hl⟩
      · rw [Token.unplaced, Token.move, hk, hl]
        rfl
      · have hk : (Munch.lexeme c text).1 = last.kind := congrArg Prod.fst hl
        exact absurd (hk.trans hlast) (Munch.lexeme_ne_eof c text)
    refine ⟨Token.spaced ts, fun file? => ?_⟩
    rw [Token.Agree, tokenize_spaced hspelled, List.map_append, List.map_singleton, hend]

/-- Whatever writes a program is parsed to that program, without a diagnostic, if the
limit leaves room for the expressions inside each other, and else the first diagnostic is
that they are nested too deep.  The places in the writing do not matter, and tokens that
some source can spell at all are those of a source. -/
theorem parse_of_written {P : Program} {ts : List Token} {need : Nat} (h : P.Written ts need) :
    (∀ source file?, Token.Agree ts (tokenize source file?) →
        (need ≤ Parser.depthLimit → (parse source file?).2.diagnostics = #[] ∧
          (parse source file?).1.unplaced = P.unplaced) ∧
        (Parser.depthLimit < need → ∃ position, (parse source file?).2.diagnostics[0]? =
          some ⟨.nestingTooDeep Parser.depthLimit, position⟩)) ∧
      ((∀ t ∈ ts, t.Scanned) → ∃ source, ∀ file?, Token.Agree ts (tokenize source file?)) := by
  refine ⟨fun source file? ha => ?_, h.exists_source⟩
  obtain ⟨Q, hQ, hPQ⟩ := h.replaced ha
  obtain ⟨hfits, hover⟩ := hQ.parse_meets
  refine ⟨fun hn => ?_, fun hn => (hover hn).getElem?_zero⟩
  obtain ⟨rfl, hd⟩ := hfits hn
  exact ⟨hd, hPQ⟩

theorem parse_of_written_group :
    ∃ P : Program,
      P.Written [⟨.minus, "-", default⟩, ⟨.openParen, "(", default⟩, ⟨.identifier, "a", default⟩,
        ⟨.closeParen, ")", default⟩, ⟨.eof, "\x00", default⟩] 3 ∧
      (parse "-(a)" none).2.diagnostics = #[] ∧ (parse "-(a)" none).1.unplaced = P.unplaced := by
  have hw := Expr.Written.unary (o := ⟨.minus, "-", default⟩) rfl
    (.group (o := ⟨.openParen, "(", default⟩) (c := ⟨.closeParen, ")", default⟩) rfl
      (.identifier (t := ⟨.identifier, "a", default⟩) rfl) rfl) (by decide)
  have hs := @Stmt.Written.expression _ _ _ _ none hw (by simp)
  have hlast : Token.kind ⟨.eof, "\x00", default⟩ = .eof := rfl
  have hP := Program.Written.mk (.cons hs (by simp) .nil) hlast
  exact ⟨_, hP, ((parse_of_written hP).1 "-(a)" none (by decide +kernel)).1 (by decide)⟩

end ExprLang
