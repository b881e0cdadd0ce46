import ExprLang.Proofs.Parser.Walked

/-!
# The course of a program

Parsing a program is one walk from its first token to the end token (`exists_course`).  All
that is recorded is the failures of its moves, and behind them at most one that was raised
at the end token, which no move goes over.

So whatever was recorded was raised somewhere (`Course.failed`), and one further on than
the other (`Course.pairwise`).
-/

namespace ExprLang

open Parse

namespace Parser

variable {start p q stop : Parser} {ms : List Move} {last? : Option Diagnostic}
  {body : List Stmt} {ds : List Diagnostic}

/-! ## From the first token to the last -/

/-- The moves `ms` are those of a whole program, which gives the statements `body` and records
the diagnostics `ds`. -/
structure Course (start : Parser) (ms : List Move) (last? : Option Diagnostic) (stop : Parser)
    (body : List Stmt) (ds : List Diagnostic) : Prop where
  /-- They lead to the end token. -/
  walk : start.Walk start ms stop
  eof : stop.current.kind = .eof
  /-- There a last statement may have failed. -/
  last : ∀ d ∈ last?, start.Failed d stop ∧ d.cause.height .eof ≤ Move.height ms
  diagnostics_eq : ds = start.diagnostics.toList ++ (Move.failures ms ++ last?.toList)
  /-- Every statement and every diagnostic has a token of its own. -/
  room : Stmt.countAll body + (Move.failures ms ++ last?.toList).length ≤ ms.length

/-- The parser behind the failure of a last statement, if that has failed. -/
def settle (p : Parser) : Option Diagnostic → Parser
  | none => p
  | some d => (p.record d).advance

theorem exists_course_topLevel {done : Array Stmt} (hs : start.cursor.Settled)
    (turns : start.Turns programStops p) (hp : start.Laps start (Stmt.countAll done.toList) 0 p) :
    ∃ ms last? stop, start.Course ms last? stop (topLevel done p).1.toList
        (topLevel done p).2.diagnostics.toList ∧
      (topLevel done p).2 = stop.settle last? := by
  fun_induction topLevel done p with
  | case1 done p he =>
    obtain ⟨ms, hms, hm, -⟩ := hp
    refine ⟨ms, none, p, ⟨hms, he, fun d hd => absurd hd (Option.not_mem_none d), ?_, ?_⟩, rfl⟩
    · rw [hms.diagnostics_eq]
      simp
    · simpa using hm
  | case2 done p he s q h ih =>
    have hk := not_mem_programStops.2 he
    have hq := (Active.top turns hk).walked
    rw [Call.Walked, h] at hq
    refine ih (turns.kept hk h) ?_
    rw [Stmt.countAll_push]
    exact hp.keep hq
  | case3 done p he d q h ih =>
    have hk := not_mem_programStops.2 he
    have hq := (Active.top turns hk).walked
    rw [Call.Walked, h] at hq
    have hfailed : start.Failed d q := ⟨hq.raises, 0, p, .top turns hk, h⟩
    by_cases hend : q.current.kind = .eof
    · -- The next token is the end token again, and the loop stops there.
      have hl : start.Leads q := turns.leads.trans ((steady_statement .full p).of_eq h)
      have hnext : (q.record d).advance.current.kind = .eof :=
        (hs.of_reaches hl.reaches).eof_advance hend
      rw [topLevel_eq, if_pos hnext]
      obtain ⟨ms, hms, hm, hh⟩ := hp.fail hq he hend
      rw [hend] at hh
      refine ⟨ms, some d, q, ⟨hms, hend, ?_, ?_, ?_⟩, rfl⟩
      · rintro _ ⟨⟩
        exact ⟨hfailed, hh⟩
      · show (q.record d).diagnostics.toList = _
        rw [record, Array.toList_push, hms.diagnostics_eq, List.append_assoc]
        rfl
      · show Stmt.countAll done.toList + _ ≤ _
        rw [List.length_append, Option.toList_some, List.length_singleton]
        omega
    · exact ih (turns.dropped hk h hend) (hp.drop hq hend hfailed)

/-- A source is gone through in one walk, and nothing but the failure of a last statement
comes behind. -/
theorem exists_course_settle (source : String) (file? : Option String) :
    ∃ ms last? stop,
      (ofScanner (.ofSource source file?)).reset.Course ms last? stop
        (parse source file?).1.body (parse source file?).2.diagnostics.toList ∧
      (parse source file?).2 = (stop.settle last?).finish (parse source file?).1.body.length := by
  let start := (ofScanner (.ofSource source file?)).reset
  have hnone : start.Laps start (Stmt.countAll (#[] : Array Stmt).toList) 0 start := .refl _ _
  obtain ⟨ms, last?, stop, hcourse, hsettle⟩ :=
    exists_course_topLevel (Cursor.settled_ofSource source file?) .first hnone
  refine ⟨ms, last?, stop, hcourse, ?_⟩
  rw [← hsettle]
  rfl

theorem exists_course (source : String) (file? : Option String) :
    ∃ ms last? stop, (ofScanner (.ofSource source file?)).reset.Course ms last? stop
      (parse source file?).1.body (parse source file?).2.diagnostics.toList := by
  obtain ⟨ms, last?, stop, hcourse, -⟩ := exists_course_settle source file?
  exact ⟨ms, last?, stop, hcourse⟩

/-! ## Where failures are raised -/

/-- The failure `d` was raised before the end token, and `e` further on. -/
def Before (start : Parser) (d e : Diagnostic) : Prop :=
  ∃ p q, start.Failed d p ∧ start.Failed e q ∧ start.cursor.Reaches p.cursor ∧
    p.current.kind ≠ .eof ∧ p.cursor.advance.Reaches q.cursor

/-- Every failure of a walk was raised on the way. -/
theorem Walk.failed (h : start.Walk p ms q) : ∀ d ∈ Move.failures ms,
    ∃ r, start.Failed d r ∧ p.cursor.Reaches r.cursor ∧ r.current.kind ≠ .eof ∧
      r.cursor.advance.Reaches q.cursor := by
  intro d hd
  obtain ⟨m, hm, hfailure⟩ := List.mem_filterMap.1 hd
  obtain ⟨r, -, hk, hreaches, hrest, hr⟩ := h.forall_mem m hm
  rw [hfailure] at hr
  exact ⟨r, hr, hreaches, hk, hrest⟩

/-- One was raised behind the other. -/
theorem Walk.pairwise (h : start.Walk p ms q) (hp : start.cursor.Reaches p.cursor) :
    (Move.failures ms).Pairwise start.Before := by
  induction h with
  | nil p => exact .nil
  | pass _ _ ih => exact ih (hp.trans (.advance _))
  | @recover p q d ms hk hd hms ih =>
    refine .cons (fun e he => ?_) (ih (hp.trans (.advance _)))
    obtain ⟨r, hr, hreaches, -⟩ := hms.failed e he
    exact ⟨p, r, hd, hr, hp, hk, hreaches⟩
  | enter _ ih => exact ih hp
  | leave _ ih => exact ih hp

namespace Course

variable (h : start.Course ms last? stop body ds)
include h

/-- The tokens of the moves are all but the end token. -/
theorem tokens_eq : start.cursor.tokens = ms.map (·.token) ++ [stop.current] := by
  rw [h.walk.passes.tokens_eq h.walk.ne_eof, Cursor.tokens_of_eof h.eof]
  rfl

/-- Every move goes over a token of its own. -/
theorem countP_tokens : start.cursor.tokens.countP (·.kind ≠ .eof) = ms.length := by
  have hmoves : (ms.map (·.token)).countP (·.kind ≠ .eof) = ms.length := by
    rw [List.countP_eq_length.2 fun t ht => decide_eq_true (h.walk.ne_eof t ht), List.length_map]
  rw [h.tokens_eq, List.countP_append, hmoves, List.countP_singleton, h.eof]
  rfl

variable {source : String} {file? : Option String}
  (hcursor : start.cursor = .ofScanner (.ofSource source file?))
include hcursor

theorem tokenize_eq : tokenize source file? = ms.map (·.token) ++ [stop.current] := by
  rw [← h.tokens_eq, hcursor, Cursor.tokens_ofScanner]
  rfl

theorem countP_tokenize : (tokenize source file?).countP (·.kind ≠ .eof) = ms.length := by
  rw [h.tokenize_eq hcursor, ← h.tokens_eq, h.countP_tokens]

omit hcursor

/-- What a parse records that begins with nothing recorded. -/
theorem eq_failures (hstart : start.diagnostics = #[]) : ds = Move.failures ms ++ last?.toList := by
  rw [h.diagnostics_eq, hstart]
  rfl

/-- Everything recorded was raised on the way. -/
theorem failed (hstart : start.diagnostics = #[]) :
    ∀ d ∈ ds, ∃ q, start.Failed d q ∧ start.cursor.Reaches q.cursor := by
  intro d hd
  rw [h.eq_failures hstart] at hd
  rcases List.mem_append.1 hd with hd | hd
  · obtain ⟨q, hq, hreaches, -⟩ := h.walk.failed d hd
    exact ⟨q, hq, hreaches⟩
  · exact ⟨stop, (h.last d (Option.mem_toList.1 hd)).1, h.walk.passes.reaches⟩

/-- One was raised behind the other, and all but the last one before the end token. -/
theorem pairwise (hstart : start.diagnostics = #[]) : ds.Pairwise start.Before := by
  rw [h.eq_failures hstart, List.pairwise_append]
  refine ⟨h.walk.pairwise (.refl _), ?_, fun d hd e he => ?_⟩
  · cases last? with
    | none => exact .nil
    | some d => exact List.pairwise_singleton _ d
  · obtain ⟨q, hq, hreaches, hk, hrest⟩ := h.walk.failed d hd
    exact ⟨q, stop, hq, (h.last e (Option.mem_toList.1 he)).1, hreaches, hk, hrest⟩

end Course

end Parser

end ExprLang
