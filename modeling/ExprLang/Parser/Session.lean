import ExprLang.Parser.Program

/-!
# Sessions

A session runs a parser command by command, from any token it happens to stand
on.  It keeps the last expression parsed at hand, for the commands that go on
behind an operand.  Such a command uses the expression up, and its result takes
the place.
-/

namespace ExprLang

/-- Something to do with a parser. -/
inductive Session.Command where
  | advance
  | expect (kind : TokenKind)
  | skipSemicolon
  | enter
  | leave
  | record (d : Diagnostic)
  /-- Parse to the end of the source. -/
  | program
  /-- Parse a statement by the rule its first token calls for. -/
  | statement
  | stmtRule (rule : StmtRule)
  | block
  | expression (power : Power)
  | prefixRule (rule : PrefixRule)
  /-- Go on behind the expression at hand. -/
  | infixRule (rule : InfixRule) (power : Power)
deriving DecidableEq, Repr

/-- What a command gives. -/
inductive Session.Answer where
  | done
  | token (t : Token)
  | expr (e : Expr)
  | stmt (s : Stmt)
  | block (b : Block)
  | program (p : Program)
  | failed (d : Diagnostic)
  /-- No expression was at hand. -/
  | noOperand

/-- A parser and the expression at hand. -/
structure Session where
  /-- The parser. -/
  parser : Parser
  /-- The last expression parsed, unless it was used up. -/
  operand? : Option Expr

namespace Session

/-- The session on the first token of a source. -/
def ofSource (source : String) (file? : Option String) : Session :=
  ⟨.ofScanner (.ofSource source file?), none⟩

/-- Runs a parse and keeps the expression at hand. -/
def run {α : Type} (s : Session) (x : Parse α) (answer : α → Answer) : Answer × Session :=
  match x.run s.parser with
  | .ok a p => (answer a, { s with parser := p })
  | .error d p => (.failed d, { s with parser := p })

/-- Runs a parse of an expression, which is then at hand if it succeeds. -/
def runExpr (s : Session) (x : Parse Expr) : Answer × Session :=
  match x.run s.parser with
  | .ok e p => (.expr e, ⟨p, some e⟩)
  | .error d p => (.failed d, { s with parser := p })

/-- Carries out a command. -/
def step (s : Session) : Command → Answer × Session
  | .advance => s.run Parse.advance .token
  | .expect kind => s.run (Parse.expect kind) .token
  | .skipSemicolon => s.run Parse.skipSemicolon fun _ => .done
  | .enter => s.run Parse.enter fun _ => .done
  | .leave => s.run Parse.leave fun _ => .done
  | .record d => (.done, { s with parser := s.parser.record d })
  | .program =>
    let (p, parser) := s.parser.program
    (.program p, { s with parser := parser })
  | .statement => s.run (Parse.statement .full) .stmt
  | .stmtRule rule => s.run (Parse.stmtRule .full (some rule)) .stmt
  | .block => s.run (Parse.block .full) .block
  | .expression power => s.runExpr (Parse.expression power)
  | .prefixRule rule => s.runExpr (Parse.prefixRule .full rule)
  | .infixRule rule power =>
    match s.operand? with
    | none => (.noOperand, s)
    | some left => { s with operand? := none }.runExpr (Parse.infixRule .full left power rule)

end Session

end ExprLang
