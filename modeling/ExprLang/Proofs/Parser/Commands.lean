import ExprLang.Parser.Levels
import ExprLang.Parser.Session
import ExprLang.Proofs.Parser.Stream

/-!
# What every command keeps

A parser is driven by commands, in any order and from whatever token it stands on.  Before
each of them any expression may be at hand for it to go on behind, and the only command
that may be refused is to leave an expression when inside of none
(`Session.Command.Allowed`).

`Session.step_leads` says what a command does that neither changes the depth by itself nor
starts over, and `Session.step_keeps` what holds of every command.  By induction the parser
stands on the token of its index however it got there
(`Cursor.Reaches.getElem?_tokenize`), and is never inside of more expressions than the limit
allows (`Parser.Driven.depth_le`).
-/

namespace ExprLang

open Parse

/-! ## One command -/

namespace Session

/-- May the command be given?  There has to be an expression to leave. -/
def Command.Allowed (command : Command) (p : Parser) : Prop := command = .leave → 0 < p.depth

/-- How many expressions a parser is inside of after a command. -/
def Command.depth (command : Command) (before : Nat) : Nat :=
  match command with
  | .enter => if before < Parser.depthLimit then before + 1 else before
  | .leave => before - 1
  | .program => 0
  | _ => before

variable {α : Type} {s : Session}

theorem run_leads {x : Parse α} (hx : Steady x) (answer : α → Answer) :
    s.parser.Leads (s.run x answer).2.parser := by
  have h := hx s.parser
  unfold run
  cases hr : x.run s.parser with
  | ok a p =>
    rw [hr] at h
    exact h
  | error d p =>
    rw [hr] at h
    exact h

theorem runExpr_leads {x : Parse Expr} (hx : Steady x) :
    s.parser.Leads (s.runExpr x).2.parser := by
  have h := hx s.parser
  unfold runExpr
  cases hr : x.run s.parser with
  | ok a p =>
    rw [hr] at h
    exact h
  | error d p =>
    rw [hr] at h
    exact h

/-- A command leads the parser on, unless it changes the depth or starts over. -/
theorem step_leads {command : Command} (henter : command ≠ .enter) (hleave : command ≠ .leave)
    (hprogram : command ≠ .program) : s.parser.Leads (s.step command).2.parser := by
  cases command with
  | advance => exact run_leads steady_advance _
  | expect kind => exact run_leads (steady_expect kind) _
  | skipSemicolon => exact run_leads steady_skipSemicolon _
  | enter => exact absurd rfl henter
  | leave => exact absurd rfl hleave
  | record d => exact s.parser.leads_record d
  | program => exact absurd rfl hprogram
  | statement => exact run_leads (steady_statement .full) _
  | stmtRule rule => exact run_leads (steady_stmtRule .full _) _
  | block => exact run_leads (steady_block .full) _
  | expression power => exact runExpr_leads (Operand.full.steady power)
  | prefixRule rule => exact runExpr_leads (steady_prefixRule .full rule)
  | infixRule rule power =>
    obtain ⟨p, operand?⟩ := s
    cases operand? with
    | none => exact .refl p
    | some left => exact runExpr_leads (s := ⟨p, none⟩) (steady_infixRule .full left power rule)

theorem Command.depth_of_ne {command : Command} (henter : command ≠ .enter)
    (hleave : command ≠ .leave) (hprogram : command ≠ .program) (n : Nat) :
    command.depth n = n := by
  cases command with
  | enter => exact absurd rfl henter
  | leave => exact absurd rfl hleave
  | program => exact absurd rfl hprogram
  | _ => rfl

theorem parser_step_enter : (s.step .enter).2.parser =
    if s.parser.depth < Parser.depthLimit then s.parser.enter else s.parser := by
  show (s.run Parse.enter _).2.parser = _
  unfold run
  rw [run_enter]
  by_cases h : s.parser.depth < Parser.depthLimit
  · rw [if_pos h, if_pos h]
  · rw [if_neg h, if_neg h]

/-- A token that is expected in vain changes nothing. -/
theorem step_expect_failed {kind : TokenKind} {d : Diagnostic}
    (h : (s.step (.expect kind)).1 = .failed d) : (s.step (.expect kind)).2.parser = s.parser := by
  change (s.run (Parse.expect kind) _).1 = _ at h
  show (s.run (Parse.expect kind) _).2.parser = _
  unfold run at h ⊢
  rw [run_expect] at h ⊢
  by_cases hk : s.parser.peek.kind = kind
  · rw [if_pos hk] at h
    cases h
  · rw [if_neg hk]

/-- Every command only advances the cursor, changes the depth in its own way, and but for a
program, which starts over, only adds diagnostics. -/
theorem step_keeps (s : Session) (command : Command) :
    s.parser.cursor.Reaches (s.step command).2.parser.cursor ∧
      (s.step command).2.parser.depth = command.depth s.parser.depth ∧
      (command ≠ .program →
        s.parser.diagnostics.toList <+: (s.step command).2.parser.diagnostics.toList) := by
  by_cases henter : command = .enter
  · subst henter
    rw [parser_step_enter, Command.depth]
    split
    · exact ⟨.refl _, rfl, fun _ => List.prefix_rfl⟩
    · exact ⟨.refl _, rfl, fun _ => List.prefix_rfl⟩
  by_cases hleave : command = .leave
  · subst hleave
    exact ⟨.refl _, rfl, fun _ => List.prefix_rfl⟩
  by_cases hprogram : command = .program
  · subst hprogram
    have h := Parser.leads_topLevel #[] s.parser.reset
    exact ⟨h.reaches, h.depth_eq, fun h => absurd rfl h⟩
  have h := s.step_leads henter hleave hprogram
  exact ⟨h.reaches, h.depth_eq.trans (Command.depth_of_ne henter hleave hprogram _).symm,
    fun _ => h.diagnostics⟩

/-- Within the limit a command keeps the depth within it. -/
theorem Command.depth_le (command : Command) {n : Nat} (h : n ≤ Parser.depthLimit) :
    command.depth n ≤ Parser.depthLimit := by
  cases command with
  | enter =>
    show (if n < Parser.depthLimit then n + 1 else n) ≤ Parser.depthLimit
    split <;> omega
  | leave => exact Nat.le_trans (Nat.sub_le n 1) h
  | program => exact Nat.zero_le _
  | _ => exact h

end Session

/-! ## Command after command -/

namespace Parser

/-- Commands, one after the other, lead from a parser to another one.  Whatever expression
is at hand before each of them. -/
inductive Driven (p : Parser) : Parser → Prop
  | start : Driven p p
  | step {q : Parser} (command : Session.Command) (operand? : Option Expr) :
      Driven p q → command.Allowed q → Driven p (Session.step ⟨q, operand?⟩ command).2.parser

variable {p q : Parser} {source : String} {file? : Option String}

theorem Driven.reaches (h : p.Driven q) : p.cursor.Reaches q.cursor := by
  induction h with
  | start => exact .refl _
  | @step q command operand? _ _ ih =>
    exact ih.trans (Session.step_keeps ⟨q, operand?⟩ command).1

theorem Driven.depth_le (h : p.Driven q) (hp : p.depth ≤ depthLimit) : q.depth ≤ depthLimit := by
  induction h with
  | start => exact hp
  | @step q command operand? _ _ ih =>
    rw [(Session.step_keeps ⟨q, operand?⟩ command).2.1]
    exact command.depth_le ih

/-- Wherever a parser is driven, it stands at its index in the tokens of the source. -/
theorem Driven.getElem?_tokenize (h : (ofScanner (.ofSource source file?)).Driven p) (n : Nat) :
    (tokenize source file?)[min (p.cursor.index + n) ((tokenize source file?).length - 1)]? =
      some (p.cursor.stream n) := h.reaches.getElem?_tokenize n

/-- An expression is left at a positive depth, whether it was parsed or failed. -/
theorem depth_operation_pos (power : Power) (p : Parser) :
    0 < (Parsed.parser ((operation .full power).run p.enter)).depth := by
  rw [(steady_operation .full power p.enter).depth_eq]
  exact Nat.succ_pos p.depth

/-- However a parser on a source is driven, it stands at its index in the tokens of the
source, which end with the end token again and again, and is inside of no more expressions
than the limit allows.  Every further command leaves the index at least where it is, the
depth as the command asks for, and but for a program the diagnostics with nothing taken away.
A token that was expected in vain changes nothing, and an expression is only left from
inside of one. -/
theorem driven_invariant (h : (ofScanner (.ofSource source file?)).Driven p) :
    (let tokens := tokenize source file?
      let last := tokens.length - 1
      let i := p.cursor.index
      tokens[min i last]? = some p.current ∧ tokens[min (i + 1) last]? = some p.peek ∧
        tokens[min (i + 2) last]? = some p.cursor.scanner.next.1) ∧
      p.depth ≤ depthLimit ∧
      (∀ command operand?, command.Allowed p →
        let result := Session.step ⟨p, operand?⟩ command
        p.cursor.index ≤ result.2.parser.cursor.index ∧
          result.2.parser.depth = command.depth p.depth ∧
          (command ≠ .program →
            p.diagnostics.toList <+: result.2.parser.diagnostics.toList) ∧
          ∀ kind d, command = .expect kind → result.1 = .failed d → result.2.parser = p) ∧
      ∀ power (q : Parser), (expression power).run q = (nested (operation .full power)).run q ∧
        0 < (Parsed.parser ((operation .full power).run q.enter)).depth := by
  refine ⟨⟨h.getElem?_tokenize 0, h.getElem?_tokenize 1, h.getElem?_tokenize 2⟩,
    h.depth_le (Nat.zero_le _), fun command operand? _ => ?_,
    fun power q => ⟨Operand.run_full_parse power q, depth_operation_pos power q⟩⟩
  obtain ⟨hreaches, hdepth, hdiagnostics⟩ := Session.step_keeps ⟨p, operand?⟩ command
  obtain ⟨k, hindex, -⟩ := hreaches.stream
  refine ⟨hindex ▸ Nat.le_add_right _ k, hdepth, hdiagnostics, ?_⟩
  rintro kind d rfl hfailed
  exact Session.step_expect_failed hfailed

/-- A call that the source does not close, parsed from inside an expression and then left. -/
theorem driven_invariant_open_call :
    ∃ p, (ofScanner (.ofSource "f(1" none)).Driven p ∧ p.cursor.index = 2 ∧ p.depth = 0 ∧
      (tokenize "f(1" none)[min p.cursor.index ((tokenize "f(1" none).length - 1)]? =
        some p.current := by
  have hstart := Driven.start (p := ofScanner (.ofSource "f(1" none))
  have hinside := (hstart.step .enter none nofun).step .statement none nofun
  have h := hinside.step .leave none fun _ => by decide +kernel
  exact ⟨_, h, by decide +kernel, by decide +kernel, (driven_invariant h).1.1⟩

end Parser

end ExprLang
