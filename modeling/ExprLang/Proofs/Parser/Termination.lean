import ExprLang.Proofs.Parser.Afresh
import ExprLang.Proofs.Parser.Course
import ExprLang.Proofs.Parser.Unwinding

/-!
# Parsing ends

What a parse does is bounded by the tokens that are left before the end of the source, and by
nothing else.  At the end token advancing makes no progress, and so this has to be seen for each
recursion and each loop.

* `base.unfolded n` are expressions whose operands are those of the rules, `n` times one inside of
  the other, and below that whatever `base` does.  Where fewer than `n` tokens are left it does
  what the full operand does (`Operand.unfolded_agree`): an expression goes over a token before it
  asks for another one, and on the end token it asks for none.  The limit on the depth is not
  needed for this.
* A call makes another one only where fewer tokens are left, but for a statement that is an
  expression (`Calls.left_lt`).
* `q.Repeats r` says that a loop which has come to `q` goes round once more and comes to `r`.  Then
  fewer tokens are left (`Repeats.left_lt`).

A program goes over each of its tokens just once, and the only other step is over the end token,
when a statement has failed there (`parse_terminates`).
-/

namespace ExprLang

open Parse

/-! ## Tokens that are left -/

namespace Cursor

/-- How many tokens come before the end token, the current one among them? -/
def left (c : Cursor) : Nat := c.tokens.countP (·.kind ≠ .eof)

variable {c d : Cursor}

theorem left_of_eof (h : c.current.kind = .eof) : c.left = 0 := by
  rw [left, tokens_of_eof h, List.countP_singleton, h]
  rfl

/-- Before the end every step leaves one token less. -/
theorem left_of_ne_eof (h : c.current.kind ≠ .eof) : c.left = c.advance.left + 1 := by
  rw [left, tokens_of_ne_eof h, List.countP_cons, if_pos (decide_eq_true h)]
  rfl

theorem Settled.left_le (h : c.Settled) (k : c.Reaches d) : d.left ≤ c.left :=
  (h.tokens_suffix k).sublist.countP_le

/-- No step leaves more than one token less. -/
theorem Reaches.left_add_index_le (h : c.Reaches d) : c.left + c.index ≤ d.left + d.index := by
  induction h with
  | refl => exact Nat.le_refl _
  | @step c d _ ih =>
    have hindex := c.index_advance
    by_cases hc : c.current.kind = .eof
    · rw [left_of_eof hc]
      omega
    · rw [left_of_ne_eof hc]
      omega

end Cursor

namespace Parser

/-- How many tokens come before the end token, the current one among them? -/
def left (p : Parser) : Nat := p.cursor.left

/-- Are fewer than `n` tokens left, in a source that ends with the end token? -/
def Within (n : Nat) (p : Parser) : Prop := p.cursor.Settled ∧ p.left < n

variable {p q r : Parser} {n : Nat}

theorem lasting_within (n : Nat) : Lasting (Within n) := fun _ _ hp hreaches _ =>
  ⟨hp.1.of_reaches hreaches, Nat.lt_of_le_of_lt (hp.1.left_le hreaches) hp.2⟩

/-- Before the end one token less is left behind the next step. -/
theorem Within.next (h : p.Within (n + 1)) (hp : p.current.kind ≠ .eof) : Next (Within n) p := by
  have hleft : p.left = p.advance.left + 1 := Cursor.left_of_ne_eof hp
  have hlt := h.2
  exact ⟨h.1.of_reaches (.advance _), by omega⟩

theorem left_advance_lt (h : p.current.kind ≠ .eof) : p.advance.left < p.left := by
  have hleft : p.left = p.advance.left + 1 := Cursor.left_of_ne_eof h
  omega

/-- What leads on from behind a token leaves less. -/
theorem Leads.left_lt (h : p.advance.Leads q) (hs : p.cursor.Settled)
    (hp : p.current.kind ≠ .eof) : q.left < p.left :=
  Nat.lt_of_le_of_lt ((hs.of_reaches (.advance _)).left_le h.reaches) (left_advance_lt hp)

/-- So does one more step from anywhere a token leads to. -/
theorem Leads.left_advance_lt (h : p.Leads q) (hs : p.cursor.Settled)
    (hp : p.current.kind ≠ .eof) : q.advance.left < p.left :=
  Nat.lt_of_le_of_lt ((hs.of_reaches (.advance _)).left_le h.reaches.advances)
    (Parser.left_advance_lt hp)

end Parser

/-! ## Recursion -/

namespace Operand

/-- Expressions with the given operand inside the rules for them. -/
def unfold (operand : Operand) : Operand where
  parse power := nested (operation operand power)
  steady _ := steady_nested (steady_operation _ _)

/-- Expressions whose operands are those of the rules `n` times, and below that those of `base`. -/
def unfolded (base : Operand) : (n : Nat) → Operand
  | 0 => base
  | n + 1 => (base.unfolded n).unfold

end Operand

/-- No expression starts on the end token, and so no operand is asked for there. -/
theorem Parse.operation_agree_eof (a b : Operand) (power : Power) :
    AgreeOn (fun p => p.current.kind = .eof) (operation a power) (operation b power) := by
  intro p hp
  rw [operation, operation, run_current_bind, run_current_bind, hp]
  rfl

/-- Where fewer than `n` tokens are left, operands unfolded `n` times are as good as full ones. -/
theorem Operand.unfolded_agree (base : Operand) (n : Nat) :
    (base.unfolded n).AgreeOn (Parser.Within n) full := by
  induction n with
  | zero => exact fun power p hp => absurd hp.2 (Nat.not_lt_zero _)
  | succ n ih =>
    intro power p hp
    rw [run_full_parse]
    by_cases hc : p.current.kind = .eof
    · exact ((operation_agree_eof _ _ power).nested fun _ hq => hq) p hc
    · have hinside := operation_agree (Parser.lasting_within n) ih power
      exact hinside.nested (P := Parser.Next (Parser.Within n)) (fun _ hq => hq) p (hp.next hc)

/-- A call goes over a token before it makes another one.  Only a statement that is an expression
parses it where it starts itself. -/
theorem Parse.Calls.left_lt {c c' : Call} {p q : Parser} (h : Calls c p c' q)
    (hs : p.cursor.Settled) :
    q.left < p.left ∨ c = .statement ∧ c' = .expression .default ∧ q = p := by
  cases h with
  | binding hk _ _ =>
    have hl := (Parser.leads_advance p.advance).trans (Parser.leads_advance _)
    exact .inl (hl.left_lt hs (by rw [hk]; decide))
  | result hk => exact .inl (Parser.left_advance_lt (by rw [hk]; decide))
  | expression _ => exact .inr ⟨rfl, rfl, rfl⟩
  | starts _ hrule hc =>
    have hne := (TokenKind.known_of_prefixRule hrule).1.1
    exact .inl (hc.leads_behind.left_lt (p := p.enter) hs hne)
  | @goesOn _ _ r _ _ _ _ _ hr _ _ hc =>
    obtain ⟨rule, hrule⟩ := hr.exists_prefixRule
    have hne : p.current.kind ≠ .eof := (TokenKind.known_of_prefixRule hrule).1.1
    have hreaches := hr.leads.reaches.advances.trans hc.leads.reaches
    have hle := (hs.of_reaches (.advance _)).left_le hreaches
    exact .inl (Nat.lt_of_le_of_lt hle (Parser.left_advance_lt hne))

/-! ## Loops -/

namespace Parser

/-- A loop that has come to `q` goes round once more and comes to `r`. -/
inductive Repeats (q : Parser) : Parser → Prop
  /-- A statement of a program or a block is kept. -/
  | kept {r : Parser} {s : Stmt} : q.current.kind ≠ .eof →
      (statement .full).run q = .ok s r → Repeats q r.advance
  /-- It fails and is recorded. -/
  | dropped {r : Parser} {d : Diagnostic} : q.current.kind ≠ .eof →
      (statement .full).run q = .error d r → Repeats q (r.record d).advance
  /-- A parameter is followed by a comma. -/
  | parameter {r : Parser} {t : Token} : (expect .identifier).run q = .ok t r →
      r.peek.kind = .comma → Repeats q r.advance
  /-- A comma is followed by an argument. -/
  | argument {r : Parser} {e : Expr} : q.peek.kind = .comma →
      (Operand.full.parse .default).run q.advance.advance = .ok e r → Repeats q r
  /-- An operator goes on with what is in front of it. -/
  | operator {r : Parser} {power : Power} {rule : InfixRule} {left e : Expr} :
      power < q.peek.kind.power → q.peek.kind.infixRule? = some rule →
      (infixRule .full left q.peek.kind.power rule).run q.advance = .ok e r → Repeats q r

variable {q r : Parser}

/-- Every round of a loop leaves less. -/
theorem Repeats.left_lt (h : q.Repeats r) (hs : q.cursor.Settled) : r.left < q.left := by
  have hle {p : Parser} (h : q.Leads p) : p.left ≤ q.left := hs.left_le h.reaches
  -- A token that is ahead is not the last one, for then the current one is the end token as well.
  have hcurrent (hp : q.peek.kind ≠ .eof) : q.current.kind ≠ .eof :=
    fun hc => hp (hs.eof_advance hc)
  cases h with
  | kept hq h => exact ((steady_statement .full q).of_eq h).left_advance_lt hs hq
  | dropped hq h =>
    exact (((steady_statement .full q).of_eq h).trans (leads_record _ _)).left_advance_lt hs hq
  | parameter h _ =>
    obtain ⟨hk, -, rfl⟩ := expect_eq_ok h
    exact (leads_advance _).left_lt hs (hcurrent (by rw [hk]; decide))
  | argument hk h =>
    have hl := (leads_advance q.advance).trans ((Operand.full.steady .default _).of_eq h)
    exact hl.left_lt hs (hcurrent (by rw [hk]; decide))
  | operator hlt _ h =>
    exact ((steady_infixRule .full _ _ _ _).of_eq h).left_lt hs
      (hcurrent (TokenKind.ne_eof_of_lt_power hlt))

/-! ## Steps of a program -/

/-- The last diagnostic that a program records was raised on the end token. -/
def FailsAtEnd (p : Parser) : Prop :=
  ∃ d q, p.program.2.diagnostics.back? = some d ∧ p.reset.Failed d q ∧ q.current.kind = .eof

/-- A program goes over every token that is left, and over the end token if it has failed there. -/
theorem index_program {p : Parser} (hs : p.cursor.Settled) :
    (p.FailsAtEnd → p.program.2.cursor.index = p.cursor.index + p.left + 1) ∧
      (¬ p.FailsAtEnd → p.program.2.cursor.index = p.cursor.index + p.left) := by
  have hreset : p.reset.cursor.Settled := hs
  have hnone : p.reset.Laps p.reset (Stmt.countAll (#[] : Array Stmt).toList) 0 p.reset :=
    .refl _ _
  obtain ⟨ms, last?, stop, hcourse, hsettle⟩ := exists_course_topLevel hreset .first hnone
  have hprogram : p.program.2.cursor = (stop.settle last?).cursor := by
    rw [← hsettle]
    rfl
  have hleft : p.left = ms.length := hcourse.countP_tokens
  have hstop : stop.cursor.index = p.cursor.index + p.left := by
    rw [hcourse.walk.passes.index_eq, List.length_map, hleft]
    rfl
  cases last? with
  | some d =>
    have hend : p.FailsAtEnd := by
      refine ⟨d, stop, ?_, (hcourse.last d rfl).1, hcourse.eof⟩
      show (topLevel #[] p.reset).2.diagnostics.back? = some d
      rw [hsettle]
      exact Array.back?_push
    refine ⟨fun _ => ?_, fun h => absurd hend h⟩
    rw [hprogram]
    exact congrArg (· + 1) hstop
  | none =>
    refine ⟨?_, fun _ => hprogram ▸ hstop⟩
    rintro ⟨d, q, -, ⟨-, n, s, hactive, hd⟩, hq⟩
    -- The loop would be behind the end token then, but it has stopped there.
    obtain ⟨r, hr, hcursor, -, htop⟩ := hactive.exists_topLevel_eq hs hd hq #[]
    have hindex := hr.reaches.left_add_index_le
    have heq : (r.record d).advance = stop := htop.symm.trans hsettle
    have hnext : r.cursor.index + 1 = stop.cursor.index := congrArg (·.cursor.index) heq
    rw [Cursor.left_of_eof (c := r.cursor) (hcursor ▸ hq)] at hindex
    have : p.left + p.cursor.index ≤ 0 + r.cursor.index := hindex
    omega

end Parser

/-! ## After any commands -/

/-- Whatever commands were given before and whatever token it stands on, a parser ends by the tokens
that are left.  Every parse does what it would do with operands unfolded once more than there are
tokens, whatever is below them.  A call that it comes to makes another one only where less is left,
or is a statement that makes its expression right there, and every round of a loop leaves less.  A
program goes over each of the tokens once, and over the end token if the last diagnostic that it
records was raised there. -/
theorem parse_terminates (source : String) (file? : Option String)
    (commands : List (Session.Command × Option Expr)) :
    let p := (Parser.ofScanner (.ofSource source file?)).after commands
    (∀ base : Operand, let operand := base.unfolded (p.left + 1)
      (∀ power, (operand.parse power).run p = (expression power).run p) ∧
      (statement operand).run p = (statement .full).run p ∧
      (∀ rule, (stmtRule operand rule).run p = (stmtRule .full rule).run p) ∧
      (block operand).run p = (block .full).run p ∧
      (∀ rule, (prefixRule operand rule).run p = (prefixRule .full rule).run p) ∧
      ∀ left power rule,
        (infixRule operand left power rule).run p = (infixRule .full left power rule).run p) ∧
    (∀ (c c' : Call) (q r : Parser), p.cursor.Reaches q.cursor → Calls c q c' r →
      r.left < q.left ∨ c = .statement ∧ c' = .expression .default ∧ r = q) ∧
    (∀ q r : Parser, p.cursor.Reaches q.cursor → q.Repeats r → r.left < q.left) ∧
    (p.FailsAtEnd → p.program.2.cursor.index = p.cursor.index + p.left + 1) ∧
    (¬ p.FailsAtEnd → p.program.2.cursor.index = p.cursor.index + p.left) := by
  intro p
  have hreaches := Parser.reaches_after (.ofScanner (.ofSource source file?)) commands
  have hs : p.cursor.Settled := (Cursor.settled_ofSource source file?).of_reaches hreaches
  refine ⟨fun base => ?_, fun c c' q r hq hr => hr.left_lt (hs.of_reaches hq),
    fun q r hq hr => hr.left_lt (hs.of_reaches hq), Parser.index_program hs⟩
  have hlasting := Parser.lasting_within (p.left + 1)
  have hagree := base.unfolded_agree (p.left + 1)
  have hp : p.Within (p.left + 1) := ⟨hs, Nat.lt_succ_self _⟩
  have hnext : Parser.Next (Parser.Within (p.left + 1)) p := hlasting.advance hp
  exact ⟨fun power => hagree power p hp, statement_agree hlasting hagree p hp,
    fun rule => stmtRule_agree hlasting hagree rule p hp, block_agree hlasting hagree p hnext,
    fun rule => prefixRule_agree hlasting hagree rule p hnext,
    fun left power rule => infixRule_agree hlasting hagree left power rule p hnext⟩

/-- Where an operand is missed at the end of a block that is open, the end token is gone over as
well. -/
theorem parse_terminates_open :
    let p := (Parser.ofScanner (.ofSource "x fn()\x7b -" none)).after [(.advance, none)]
    p.left = 5 ∧ p.FailsAtEnd ∧ p.program.2.cursor.index = p.cursor.index + p.left + 1 ∧
      ∃ r, p.Repeats r ∧ r.left < p.left := by
  intro p
  obtain ⟨-, -, hrounds, hfails, hquiet⟩ :=
    parse_terminates "x fn()\x7b -" none [(.advance, none)]
  have hleft : p.left = 5 := by decide +kernel
  have hindex : p.cursor.index = 1 ∧ p.program.2.cursor.index = 7 := by decide +kernel
  have hend : p.FailsAtEnd := by
    refine Classical.byContradiction fun h => ?_
    have hshort : p.program.2.cursor.index = p.cursor.index + p.left := hquiet h
    omega
  refine ⟨hleft, hend, hfails hend, ?_⟩
  cases hrun : (statement .full).run p with
  | ok s r =>
    have hround : p.Repeats r.advance := .kept (by decide +kernel) hrun
    exact ⟨_, hround, hrounds p _ (.refl _) hround⟩
  | error d r =>
    have hround : p.Repeats (r.record d).advance := .dropped (by decide +kernel) hrun
    exact ⟨_, hround, hrounds p _ (.refl _) hround⟩

end ExprLang
