import ExprLang.Proofs.Parser.Walk
import ExprLang.Proofs.Tree.Inner

/-!
# Every parse is a walk

Each rule walks from the token it starts on to the last token of what it gives, or to where
it fails (`Parser.Walked`), if the calls that it makes do so.  By induction on the calls
every call does (`Parser.Active.walked`).

A rule is gone through step by step.  It stands on the last token it has read
(`Parser.Stands`), and a step either leads to the next one or fails at once.  Where a rule
moves on without looking, it parses an expression or a block there, and so the token is
looked at by that.
-/

namespace ExprLang

open Parse

/-! ## Steps -/

namespace Parser

variable {start p q : Parser} {n : Nat} {α β : Type} {inner : α → Nat} {count : β → Nat}

theorem Stands.pure {a : α} (hp : start.Stands p n q) (ha : inner a = n) :
    start.Walked p inner ((Pure.pure a : Parse α).run q) := by
  subst ha
  exact hp

/-- A token is expected, and the parse goes on there if it is found. -/
theorem Stands.expect {kind : TokenKind} {f : Token → Parse α} (hp : start.Stands p n q)
    (hkind : kind.Known ∧ kind ≠ .closeCurly)
    (next : q.peek.kind = kind → start.Stands p n q.advance →
      start.Walked p inner ((f q.peek).run q.advance)) :
    start.Walked p inner ((expect kind >>= f).run q) := by
  rw [EStateM.run_bind, run_expect]
  by_cases hq : q.peek.kind = kind
  · rw [if_pos hq]
    exact next hq (hp.ahead (hq ▸ hkind))
  · rw [if_neg hq]
    exact hp.unexpected hkind.2 hq

/-- A part is parsed, and the parse goes on behind it if it succeeds. -/
theorem walked_bind {x : Parse β} {f : β → Parse α} (hx : start.Walked p count (x.run q))
    (next : ∀ b r, x.run q = .ok b r → start.Stands p (count b) r →
      start.Walked p inner ((f b).run r)) :
    start.Walked p inner ((x >>= f).run q) := by
  rw [EStateM.run_bind]
  cases hr : x.run q with
  | ok b r =>
    rw [hr] at hx
    exact next b r hr hx
  | error d r =>
    rw [hr] at hx
    exact hx

theorem Walked.behind {x : Parsed α} (hx : start.Walked q inner x) (hp : start.Way p n 0 q) :
    start.Walked p (fun a => n + inner a) x := by
  cases x with
  | ok a r => exact Stands.behind hx hp
  | error d r => exact Fails.behind hx hp

/-- The part starts where the parse has moved to without looking. -/
theorem Way.part {x : Parse β} {f : β → Parse α} (hp : start.Way p n 0 q)
    (hx : start.Walked q count (x.run q))
    (next : ∀ b r, x.run q = .ok b r → start.Stands p (n + count b) r →
      start.Walked p inner ((f b).run r)) :
    start.Walked p inner ((x >>= f).run q) := walked_bind (hx.behind hp) next

/-- A semicolon may follow. -/
theorem Stands.skipSemicolon {f : Unit → Parse α} (hp : start.Stands p n q)
    (next : ∀ r, start.Stands p n r → start.Walked p inner ((f ()).run r)) :
    start.Walked p inner ((Parse.skipSemicolon >>= f).run q) := by
  rw [EStateM.run_bind, run_skipSemicolon]
  refine next _ ?_
  split
  · next hq => exact hp.ahead (hq ▸ by decide)
  · exact hp

end Parser

namespace Parse

variable {start p q : Parser} {α : Type} {inner : α → Nat}

theorem walked_current {f : Token → Parse α} (h : start.Walked p inner ((f q.current).run q)) :
    start.Walked p inner ((current >>= f).run q) := h

theorem walked_peekKind {f : TokenKind → Parse α}
    (h : start.Walked p inner ((f q.peek.kind).run q)) :
    start.Walked p inner ((peekKind >>= f).run q) := h

theorem walked_advance {f : Token → Parse α}
    (h : start.Walked p inner ((f q.current).run q.advance)) :
    start.Walked p inner ((advance >>= f).run q) := h

theorem walked_siteSince {f : Site → Parse α} {position : Position} {t : Token}
    (h : start.Walked p inner ((f ⟨t, q.spanFrom position⟩).run q)) :
    start.Walked p inner ((siteSince position t >>= f).run q) := h

end Parse

/-! ## Calls -/

/-- A statement or an expression is walked through. -/
def Parse.Call.Walked (start : Parser) : Call → Parser → Prop
  | .statement, p => start.Walked p Stmt.inner ((Parse.statement .full).run p)
  | .expression power, p => start.Walked p Expr.inner ((Operand.full.parse power).run p)

/-- A call is made in a parse that began on `start`, and is walked through. -/
structure Parse.Call.Done (start : Parser) (c : Call) (p : Parser) : Prop where
  /-- The call is made. -/
  active : ∃ n, start.Active n c p
  /-- It is walked through. -/
  walked : c.Walked start p

namespace Parse

variable {start first p q : Parser}

/-! ### Statements and blocks -/

theorem statement_walked (ih : ∀ c q, Calls .statement p c q → c.Walked start q) :
    Call.statement.Walked start p := by
  show start.Walked p Stmt.inner ((stmtRule .full p.current.kind.stmtRule?).run p)
  match hrule : p.current.kind.stmtRule? with
  | some .binding =>
    have hk := TokenKind.stmtRule?_eq_binding_iff.1 hrule
    have hp : start.Stands p 0 p := .here (hk ▸ by decide)
    refine walked_current (hp.expect (by decide) fun hname hp => ?_)
    refine hp.expect (by decide) fun hsign hp => walked_advance ?_
    refine hp.advance.part (ih _ _ (.binding hk hname hsign)) fun e r _ hr => ?_
    exact hr.skipSemicolon fun r hr => walked_siteSince (hr.pure (Nat.zero_add _).symm)
  | some .result =>
    have hk := TokenKind.stmtRule?_eq_result_iff.1 hrule
    have hp : start.Stands p 0 p := .here (hk ▸ by decide)
    refine walked_advance (hp.advance.part (ih _ _ (.result hk)) fun e r _ hr => ?_)
    exact hr.skipSemicolon fun r hr => walked_siteSince (hr.pure (Nat.zero_add _).symm)
  | none =>
    refine walked_current ((Parser.Way.refl start p).part (ih _ _ (.expression hrule))
      fun e r _ hr => ?_)
    exact hr.skipSemicolon fun r hr => walked_siteSince (hr.pure (Nat.zero_add _).symm)

/-- A loop over the statements of a block leads to the closing brace in laps, or fails at the
end of the source.  What it fails with may tell of the block itself, which is open. -/
theorem moreStatements_walked {done : Array Stmt}
    (ih : ∀ q, first.Turns Parser.blockStops q → q.current.kind ∉ Parser.blockStops →
      Call.Done start .statement q)
    (turns : first.Turns Parser.blockStops p)
    (hp : start.Laps first (Stmt.countAll done.toList) 0 p) :
    match moreStatements .full done p with
    | .ok body q =>
      q.current.kind = .closeCurly ∧ start.Laps first (Stmt.countAll body.toList) 0 q
    | .error d q => q.current.kind = .eof ∧ start.Raises q.cursor d ∧
      ∃ m, start.Laps first m (d.cause.height q.current.kind - 1) q := by
  fun_induction moreStatements .full done p with
  | case1 done p hc => exact ⟨hc, hp⟩
  | case2 done p hc he => exact ⟨he, .unclosed he, _, hp⟩
  | case3 done p hc he s r hs ihs =>
    have hk := Parser.not_mem_blockStops.2 ⟨hc, he⟩
    have hr := (ih p turns hk).walked
    rw [Call.Walked, hs] at hr
    refine ihs (turns.kept hk hs) ?_
    rw [Stmt.countAll_push]
    exact hp.keep hr
  | case4 done p hc he d r hs hr =>
    have hk := Parser.not_mem_blockStops.2 ⟨hc, he⟩
    have hd := (ih p turns hk).walked
    rw [Call.Walked, hs] at hd
    obtain ⟨ms, hms, hm, hh⟩ := hp.fail hd he hr
    exact ⟨hr, hd.raises, _, ms, hms, hm, by omega⟩
  | case5 done p hc he d r hs hr ihs =>
    have hk := Parser.not_mem_blockStops.2 ⟨hc, he⟩
    obtain ⟨⟨n, hactive⟩, hd⟩ := ih p turns hk
    rw [Call.Walked, hs] at hd
    exact ihs (turns.dropped hk hs hr) (hp.drop hd hr ⟨hd.raises, n, p, hactive, hs⟩)

theorem block_walked (hopen : p.current.kind = .openCurly)
    (ih : ∀ q, BlockCalls p q → Call.Done start .statement q) :
    start.Walked p Block.inner ((block .full).run p) := by
  have hknown : p.current.kind.Known := hopen ▸ by decide
  have hrise : p.current.kind.rise = 1 := by rw [hopen]; rfl
  have hnone : start.Laps p.advance (Stmt.countAll (#[] : Array Stmt).toList) 0 p.advance :=
    .refl start p.advance
  have hloop := moreStatements_walked (fun q hq hk => ih q ⟨hq, hk⟩) .first hnone
  have hrun : (statements .full).run p.advance = moreStatements .full #[] p.advance := rfl
  refine walked_advance ?_
  rw [EStateM.run_bind, hrun]
  cases hm : moreStatements .full #[] p.advance with
  | ok body q =>
    rw [hm] at hloop
    obtain ⟨hclose, hlaps⟩ := hloop
    have hway := hlaps.way hknown
    refine walked_siteSince (Parser.Stands.pure (n := Block.inner (.mk default body.toList)) ?_ rfl)
    refine ⟨hclose ▸ by decide, hway.mono (Nat.le_refl _) ?_⟩
    rw [hclose, hrise]
    decide
  | error d q =>
    rw [hm] at hloop
    obtain ⟨-, hraises, m, hlaps⟩ := hloop
    refine ⟨hraises, (hlaps.way hknown).mono (Nat.zero_le m) ?_⟩
    omega

/-! ### How an expression starts -/

theorem moreParameters_walked {done : Array Identifier} (hp : start.Stands first 0 p) :
    start.Walked first (fun _ => 0) (moreParameters done p) := by
  fun_induction moreParameters done p with
  | case1 done p d r h =>
    rw [run_expect] at h
    split at h
    · cases h
    · next hk =>
      cases h
      exact hp.unexpected (by decide) hk
  | case2 done p t r h hc ih =>
    obtain ⟨hk, rfl, rfl⟩ := expect_eq_ok h
    exact ih ((hp.ahead (hk ▸ by decide)).ahead (hc ▸ by decide))
  | case3 done p t r h hc =>
    obtain ⟨hk, rfl, rfl⟩ := expect_eq_ok h
    exact hp.ahead (hk ▸ by decide)

theorem parameters_walked (hp : start.Stands first 0 p) :
    start.Walked first (fun _ => 0) (parameters.run p) := by
  refine walked_peekKind ?_
  by_cases hk : p.peek.kind = .closeParen
  · rw [if_pos hk]
    exact walked_advance ((hp.ahead (hk ▸ by decide)).pure rfl)
  · rw [if_neg hk]
    refine Parser.walked_bind (moreParameters_walked hp) fun ids r _ hr => ?_
    exact hr.expect (by decide) fun _ hr => hr.pure rfl

theorem alternative_walked {n : Nat} (hp : start.Stands first n p)
    (ih : ∀ q, p.peek.kind = .kwElse → p.advance.peek.kind = .openCurly →
      BlockCalls p.advance.advance q → Call.Done start .statement q) :
    start.Walked first (fun a => n + Block.innerElse a) ((alternative .full).run p) := by
  refine walked_peekKind ?_
  by_cases helse : p.peek.kind = .kwElse
  · rw [if_pos helse]
    have hp := hp.ahead (helse ▸ by decide)
    refine walked_advance (hp.expect (by decide) fun hopen hp => ?_)
    refine hp.block.part (block_walked hopen fun q hq => ih q helse hopen hq) fun b r _ hr => ?_
    exact hr.pure rfl
  · rw [if_neg helse]
    exact hp.pure rfl

theorem prefixRule_walked {rule : PrefixRule} (hrule : p.current.kind.prefixRule? = some rule)
    (ih : ∀ c q, PrefixCalls rule p c q → Call.Done start c q) :
    start.Walked p Expr.inner ((prefixRule .full rule).run p) := by
  have hp : start.Stands p 0 p := .here (TokenKind.known_of_prefixRule hrule)
  cases rule with
  | identifier => exact walked_current (hp.pure rfl)
  | integer =>
    refine walked_current ?_
    cases hv : Text.integer? p.current.literal with
    | some value => exact hp.pure rfl
    | none =>
      have hint := List.mem_singleton.1 (TokenKind.prefixRule?_eq_some_iff.1 hrule)
      exact ⟨.badNumber hint hv, .refl start p⟩
  | boolean => exact walked_current (hp.pure rfl)
  | unary =>
    refine walked_advance (hp.advance.part (ih _ _ .operand).walked fun e r _ hr => ?_)
    exact walked_siteSince (hr.pure (Nat.zero_add _).symm)
  | group =>
    refine walked_advance (hp.advance.part (ih _ _ .inside).walked fun e r _ hr => ?_)
    exact hr.expect (by decide) fun _ hr => hr.pure (Nat.zero_add _).symm
  | conditional =>
    refine walked_current (hp.expect (by decide) fun hparen hp => walked_advance ?_)
    refine hp.advance.part (ih _ _ (.condition hparen)).walked fun c r hc hr => ?_
    refine hr.expect (by decide) fun hclose hr => hr.expect (by decide) fun hopen hr => ?_
    have hblock := block_walked (p := r.advance.advance) hopen fun q hq =>
      ih _ q (.consequence hparen hc hclose hopen hq)
    refine hr.block.part hblock fun b s hb hs => ?_
    have helse := alternative_walked hs fun q helse hopen' hq =>
      ih _ q (.alternative hparen hc hclose hopen hb helse hopen' hq)
    refine Parser.walked_bind helse fun a t _ ht => walked_siteSince (ht.pure ?_)
    rw [Expr.inner, Nat.zero_add]
  | function =>
    refine walked_current (hp.expect (by decide) fun hparen hp => ?_)
    refine Parser.walked_bind (parameters_walked hp) fun ids r hids hr => ?_
    refine hr.expect (by decide) fun hopen hr => ?_
    have hblock := block_walked (p := r.advance) hopen fun q hq =>
      ih _ q (.body hparen hids hopen hq)
    exact hr.block.part hblock fun b s _ hs => walked_siteSince (hs.pure (Nat.zero_add _).symm)

/-! ### How an expression goes on -/

theorem moreArguments_walked {n : Nat} {origin : Parser} {done : Array Expr}
    (ih : ∀ q, first.Argument q → Call.Walked start (.expression .default) q)
    (hargument : p.peek.kind = .comma → first.Argument p.advance.advance)
    (hp : start.Stands origin (n + Expr.innerAll done.toList) p) :
    start.Walked origin (fun es : Array Expr => n + Expr.innerAll es.toList)
      (moreArguments .full done p) := by
  fun_induction moreArguments .full done p with
  | case1 done p hc e r he ihe =>
    have hq := ih _ (hargument hc)
    rw [Call.Walked, he] at hq
    refine ihe (fun hc' => (hargument hc).next he hc') ?_
    rw [Expr.innerAll_push, ← Nat.add_assoc]
    exact hq.behind (hp.ahead (hc ▸ by decide)).advance
  | case2 done p hc d r he =>
    have hq := ih _ (hargument hc)
    rw [Call.Walked, he] at hq
    exact hq.behind (hp.ahead (hc ▸ by decide)).advance
  | case3 done p hc => exact hp

theorem arguments_walked {n : Nat} (hp : start.Stands first n p)
    (ih : ∀ q, p.Argument q → Call.Walked start (.expression .default) q) :
    start.Walked first (fun es => n + Expr.innerAll es) ((arguments .full).run p) := by
  refine walked_peekKind ?_
  by_cases hk : p.peek.kind = .closeParen
  · rw [if_pos hk]
    exact walked_advance ((hp.ahead (hk ▸ by decide)).pure rfl)
  · rw [if_neg hk]
    refine walked_advance (hp.advance.part (ih _ (.first hk)) fun e r he hr => ?_)
    have hmore : start.Walked first (fun es : Array Expr => n + Expr.innerAll es.toList)
        ((laterArguments .full e).run r) :=
      moreArguments_walked ih (fun hc => (Parser.Argument.first hk).next he hc)
        (by simpa [Expr.innerAll] using hr)
    exact Parser.walked_bind hmore fun es s _ hs =>
      hs.expect (by decide) fun _ hs => hs.pure rfl

theorem infixRule_walked {rule : InfixRule} {left : Expr} {power : Power}
    (hp : start.Stands first left.inner p)
    (ih : ∀ c q, InfixCalls power p rule c q → c.Walked start q) :
    start.Walked first Expr.inner ((infixRule .full left power rule).run p) := by
  cases rule with
  | binary =>
    refine walked_advance (hp.advance.part (ih _ _ .right) fun right r _ hr => ?_)
    exact walked_siteSince (hr.pure rfl)
  | call =>
    refine walked_current ?_
    refine Parser.walked_bind (arguments_walked hp fun q hq => ih _ q (.argument hq))
      fun es r _ hr => walked_siteSince (hr.pure rfl)

theorem operationsFrom_walked {power : Power} {left : Expr}
    (ih : ∀ (left : Expr) r rule c q, first.Operates power left r → power < r.peek.kind.power →
      r.peek.kind.infixRule? = some rule → InfixCalls r.peek.kind.power r.advance rule c q →
      c.Walked start q)
    (hleft : first.Operates power left p) (hp : start.Stands first left.inner p) :
    start.Walked first Expr.inner (operationsFrom .full power left p) := by
  fun_induction operationsFrom .full power left p with
  | case1 left p hlt hrule => exact hp
  | case2 left p hlt rule hrule e r hr ihe =>
    have hq := infixRule_walked (hp.ahead (TokenKind.known_of_infixRule hrule))
      fun c q => ih left p rule c q hleft hlt hrule
    rw [hr] at hq
    exact ihe (hleft.next hlt hrule hr) hq
  | case3 left p hlt rule hrule d r hr =>
    have hq := infixRule_walked (hp.ahead (TokenKind.known_of_infixRule hrule))
      fun c q => ih left p rule c q hleft hlt hrule
    rw [hr] at hq
    exact hq
  | case4 left p hlt => exact hp

theorem operation_walked {power : Power}
    (ihstarts : ∀ rule c q, p.current.kind.prefixRule? = some rule → PrefixCalls rule p c q →
      Call.Done start c q)
    (ihgoes : ∀ (left : Expr) r rule c q, p.Operates power left r → power < r.peek.kind.power →
      r.peek.kind.infixRule? = some rule → InfixCalls r.peek.kind.power r.advance rule c q →
      c.Walked start q) :
    start.Walked p Expr.inner ((operation .full power).run p) := by
  refine walked_current ?_
  cases hrule : p.current.kind.prefixRule? with
  | none => exact ⟨.noPrefixRule hrule, .refl start p⟩
  | some rule =>
    have hstarts := prefixRule_walked hrule fun c q => ihstarts rule c q hrule
    exact Parser.walked_bind hstarts fun left r hleft hr =>
      operationsFrom_walked ihgoes (.first hrule hleft) hr

end Parse

/-! ## Every call -/

namespace Parser

open Parse

variable {start p : Parser} {n : Nat} {c : Call}

/-- What is walked through inside of an expression is walked through around it. -/
theorem Walked.nested {α : Type} {inner : α → Nat} {x : Parse α}
    (h : start.Walked p.enter inner (x.run p.enter)) (hlt : p.depth < depthLimit) :
    start.Walked p inner ((Parse.nested x).run p) := by
  rw [run_nested hlt]
  cases hr : x.run p.enter with
  | ok a r =>
    rw [hr] at h
    exact ⟨h.known, h.way.enter.leave⟩
  | error d r =>
    rw [hr] at h
    exact ⟨h.raises, h.way.enter.leave⟩

/-- Every call is walked through. -/
theorem Active.walked (h : start.Active n c p) : c.Walked start p := by
  induction c, p using Call.induction generalizing n with
  | step c p ih =>
    have hdone (c' : Call) (q : Parser) (hc : Calls c p c' q) : Call.Done start c' q :=
      ⟨⟨_, h.call hc⟩, ih c' q hc (h.call hc)⟩
    cases c with
    | statement => exact statement_walked fun c q hc => (hdone c q hc).walked
    | expression power =>
      rw [Call.Walked, Operand.run_full_parse]
      by_cases hlt : p.depth < depthLimit
      · refine Walked.nested (operation_walked ?_ ?_) hlt
        · exact fun rule c q hrule hc => hdone c q (.starts hlt hrule hc)
        · exact fun left r rule c q hr hpower hrule hc =>
            (hdone c q (.goesOn hlt hr hpower hrule hc)).walked
      · rw [run_nested_of_le (Nat.not_lt.1 hlt)]
        exact ⟨.tooDeep rfl h (Nat.not_lt.1 hlt), .refl start p⟩

end Parser

end ExprLang
