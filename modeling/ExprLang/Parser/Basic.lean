import ExprLang.Diagnostic.Basic
import ExprLang.Parser.Cursor

/-!
# Parsers

A parser is a cursor with the diagnostics recorded so far, the number of
expressions it is inside of, and a log of what happened.  The log notes an illegal
token when the cursor pulls it, which is one token before the cursor stands on
it.

`Leads p q` says what every parse keeps: the cursor only advances, the depth is
restored, diagnostics and log only grow.  Each primitive change of a parser leads
(`leads_advance`, `leads_record`), and so does a sequence of them (`Leads.trans`).
-/

namespace ExprLang

/-- Something worth logging. -/
inductive Event where
  /-- An illegal token was pulled from the source. -/
  | illegalToken (literal : String) (offset : Nat)
  /-- A diagnostic was recorded. -/
  | recorded (diagnostic : Diagnostic)
  /-- A whole source was parsed. -/
  | finished (statements diagnostics : Nat)
deriving DecidableEq, Repr

/-- What is logged when a scanner gives a token. -/
def Event.ofToken? (s : Scanner) (t : Token) : Option Event :=
  if t.kind = .illegal then some (.illegalToken t.literal s.skipLayout.offset) else none

/-- The state of a parse. -/
structure Parser where
  /-- Where it stands. -/
  cursor : Cursor
  /-- The diagnostics recorded so far, in order. -/
  diagnostics : Array Diagnostic
  /-- How many expressions it is inside of. -/
  depth : Nat
  /-- What happened so far, in order. -/
  log : Array Event
deriving DecidableEq, Repr, Inhabited

namespace Parser

/-- The most expressions a parser can be inside of. -/
def depthLimit : Nat := 64

/-- The log with what is noted of the next token of a scanner. -/
def note (log : Array Event) (s : Scanner) (t : Token) : Array Event :=
  match Event.ofToken? s t with
  | some e => log.push e
  | none => log

/-- The parser on the first token of a scanner. -/
def ofScanner (s : Scanner) : Parser :=
  let first := s.next
  let second := first.2.next
  { cursor := Cursor.ofScanner s
    diagnostics := #[]
    depth := 0
    log := note (note #[] s first.1) first.2 second.1 }

/-- The token it stands on. -/
def current (p : Parser) : Token := p.cursor.current

/-- The token after it. -/
def peek (p : Parser) : Token := p.cursor.peek

/-- The position of the token it stands on. -/
def position (p : Parser) : Position := p.current.span.start

/-- The span from a position to the end of the token it stands on. -/
def spanFrom (p : Parser) (start : Position) : Span := ⟨start, p.current.span.stop⟩

/-- The parser one token on. -/
def advance (p : Parser) : Parser :=
  let s := p.cursor.scanner
  let next := s.next
  { p with cursor := p.cursor.shift next, log := note p.log s next.1 }

theorem cursor_advance (p : Parser) : p.advance.cursor = p.cursor.advance := rfl

/-- The parser with one diagnostic more. -/
def record (p : Parser) (d : Diagnostic) : Parser :=
  { p with diagnostics := p.diagnostics.push d, log := p.log.push (.recorded d) }

/-- The parser inside one more expression. -/
def enter (p : Parser) : Parser := { p with depth := p.depth + 1 }

/-- The parser outside the innermost expression. -/
def leave (p : Parser) : Parser := { p with depth := p.depth - 1 }

/-- A bound on how often it can advance before the end. -/
def remaining (p : Parser) : Nat := p.cursor.remaining

/-! ## What every parse keeps -/

/-- What holds between the parser before a parse and the parser after it. -/
structure Leads (p q : Parser) : Prop where
  /-- The cursor has only advanced. -/
  reaches : p.cursor.Reaches q.cursor
  /-- The depth is what it was. -/
  depth_eq : q.depth = p.depth
  /-- Diagnostics have only been added. -/
  diagnostics : p.diagnostics.toList <+: q.diagnostics.toList
  /-- Events have only been added. -/
  log : p.log.toList <+: q.log.toList

theorem Leads.refl (p : Parser) : Leads p p :=
  ⟨.refl _, rfl, List.prefix_rfl, List.prefix_rfl⟩

theorem Leads.trans {p q r : Parser} (h : Leads p q) (k : Leads q r) : Leads p r :=
  ⟨h.reaches.trans k.reaches, k.depth_eq.trans h.depth_eq,
    h.diagnostics.trans k.diagnostics, h.log.trans k.log⟩

theorem toList_note (log : Array Event) (s : Scanner) (t : Token) :
    (note log s t).toList = log.toList ++ (Event.ofToken? s t).toList := by
  unfold note
  cases Event.ofToken? s t with
  | none => exact (List.append_nil _).symm
  | some e => exact Array.toList_push

theorem log_prefix_note (log : Array Event) (s : Scanner) (t : Token) :
    log.toList <+: (note log s t).toList := by
  rw [toList_note]
  exact List.prefix_append _ _

theorem leads_advance (p : Parser) : Leads p p.advance :=
  ⟨.advance _, rfl, List.prefix_rfl, log_prefix_note _ _ _⟩

theorem leads_record (p : Parser) (d : Diagnostic) : Leads p (p.record d) :=
  ⟨.refl _, rfl, by simp [record], by simp [record]⟩

/-- What leads on inside an expression leads on around it. -/
theorem Leads.leave {p q : Parser} (h : Leads p.enter q) : Leads p q.leave :=
  ⟨h.reaches, by simp [Parser.leave, Parser.enter, h.depth_eq], h.diagnostics, h.log⟩

theorem Leads.remaining_le {p q : Parser} (h : Leads p q) : q.remaining ≤ p.remaining :=
  h.reaches.remaining_le

/-- One more step after a parse that began on a token leaves less than before. -/
theorem Leads.remaining_advance_lt {p q : Parser} (h : Leads p q)
    (hp : p.current.kind ≠ .eof) : q.advance.remaining < p.remaining :=
  h.reaches.remaining_advance_lt hp

/-- Advancing towards a token leaves less than before. -/
theorem remaining_advance_lt_of_peek {p : Parser} (h : p.peek.kind ≠ .eof) :
    p.advance.remaining < p.remaining :=
  Cursor.remaining_advance_lt (.inr h)

end Parser

end ExprLang
