import ExprLang.Parser.Expression

/-!
# Programs

A program is parsed to the end of the source whatever it holds.  A statement that
fails is left out and its diagnostic recorded, and parsing goes on one token after
the place where it failed.
-/

namespace ExprLang

open Parse

namespace Parser

/-- The statements up to the end of the source, behind those in `done`. -/
def topLevel (done : Array Stmt) (p : Parser) : Array Stmt × Parser :=
  if p.current.kind = .eof then (done, p)
  else
    match _h : (statement .full).run p with
    | .ok s q => topLevel (done.push s) q.advance
    | .error d q => topLevel done (q.record d).advance
termination_by p.remaining
decreasing_by
  · have h := steady_statement .full p
    rw [_h] at h
    exact h.remaining_advance_lt ‹_›
  · have h := steady_statement .full p
    rw [_h] at h
    exact (h.trans (q.leads_record d)).remaining_advance_lt ‹_›

theorem topLevel_eq (done : Array Stmt) (p : Parser) :
    topLevel done p =
      if p.current.kind = .eof then (done, p)
      else
        match (statement .full).run p with
        | .ok s q => topLevel (done.push s) q.advance
        | .error d q => topLevel done (q.record d).advance := by
  rw [topLevel]
  generalize (statement .full).run p = r
  cases r <;> rfl

theorem leads_topLevel (done : Array Stmt) (p : Parser) : p.Leads (topLevel done p).2 := by
  have hs := steady_statement .full p
  fun_induction topLevel done p with
  | case1 => exact .refl _
  | case2 done p _ s q h ih =>
    rw [h] at hs
    exact (hs.trans q.leads_advance).trans (ih (steady_statement .full _))
  | case3 done p _ d q h ih =>
    rw [h] at hs
    exact ((hs.trans (q.leads_record d)).trans (leads_advance _)).trans
      (ih (steady_statement .full _))

/-- The statements end where the source does. -/
theorem topLevel_eof (done : Array Stmt) (p : Parser) :
    (topLevel done p).2.current.kind = .eof := by
  fun_induction topLevel done p with
  | case1 _ _ h => exact h
  | case2 _ _ _ _ _ _ ih => exact ih
  | case3 _ _ _ _ _ _ ih => exact ih

/-- The parser outside every expression and with nothing recorded.  Its log is
kept. -/
def reset (p : Parser) : Parser := { p with diagnostics := #[], depth := 0 }

/-- The parser with the end of a program logged. -/
def finish (p : Parser) (statements : Nat) : Parser :=
  { p with log := p.log.push (.finished statements p.diagnostics.size) }

/-- The program from here to the end of the source, and the parser at the end.
What was recorded before is forgotten. -/
def program (p : Parser) : Program × Parser :=
  let file := p.position.file
  let (body, q) := topLevel #[] p.reset
  (⟨body.toList, q.spanFrom (.at file 0)⟩, q.finish body.size)

end Parser

/-- The program of a source, and the parser at its end, which holds the
diagnostics. -/
def parse (source : String) (file? : Option String) : Program × Parser :=
  (Parser.ofScanner (Scanner.ofSource source file?)).program

end ExprLang
