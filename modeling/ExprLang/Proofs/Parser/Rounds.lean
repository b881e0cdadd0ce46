import ExprLang.Parser.Program
import ExprLang.Proofs.Parser.InStep
import ExprLang.Proofs.Parser.Stream
import ExprLang.Proofs.Parser.Success

/-!
# Rounds of the loops over statements

Both loops over statements, that of a block and that of a whole program, go round by round.
A round parses one statement and moves one token on, and records what the statement failed
with, if it did.  A `Segment` is what one round takes and gives, and `Rounds p gs q` says
that rounds lead from `p` to `q` and what each of them does.

The end token is never among the tokens of a segment, for the loop of a program may stand
on it at the end of a round and find it again.

A segment is `Sound` if its statement covers its tokens, from the start of the first to the
stop of the last, or if its last diagnostic blames one of them or the one behind them.
Every round is (`Parser.Rounds.allSound`), for a parse is compared with itself to see where
it goes (`Likeness.way`).
-/

namespace ExprLang

open Parse

/-! ## Where a statement goes -/

/-- A parse goes the same way as itself, and never over an end token. -/
def Likeness.way (c₀ : Cursor) : Likeness where
  left := id
  right := id
  Tokens := Eq
  Cursors c d := c = d ∧ ∃ ts, (∀ t ∈ ts, t.kind ≠ .eof) ∧ c₀.Passes ts c
  Edge := NoEdge
  Recorded _ _ := True
  move_eq h := move_id_eq h
  current h := by rw [h.1]
  peek h _ := by rw [h.1]
  advance := by
    rintro c _ ⟨rfl, ts, hts, hp⟩ hk
    refine ⟨rfl, ts ++ [c.current], ?_, hp.trans (.advance c)⟩
    exact List.forall_mem_append.2 ⟨hts, List.forall_mem_singleton.2 hk.1⟩
  pass := by
    rintro c _ ⟨rfl, ts, hts, hp⟩ hk
    refine .inl ⟨rfl, ts ++ [c.current], ?_, hp.trans (.advance c)⟩
    exact List.forall_mem_append.2 ⟨hts, List.forall_mem_singleton.2 (by rw [hk]; decide)⟩
  eof_of_edge h := h.eof
  record _ _ _ := trivial

theorem Likeness.parsers_way (p : Parser) : (Likeness.way p.cursor).Parsers p p :=
  ⟨⟨rfl, [], by simp, .nil _⟩, rfl, trivial⟩

namespace Parse

variable {operand : Operand} {p q : Parser}

/-- A statement that succeeds ends on its last token. -/
theorem statement_way_of_ok {s : Stmt} (h : (statement .full).run p = .ok s q) :
    (∃ ts, (∀ t ∈ ts, t.kind ≠ .eof) ∧ p.cursor.Passes ts q.cursor) ∧ q.current.kind.Closes := by
  have hway := statement_inStep Operand.full_inStep (Likeness.parsers_way p) trivial
  obtain ⟨_, r, -, -, hq, hk⟩ := hway.of_ok h
  exact ⟨hq.cursors.2, hk⟩

/-- A statement that fails blames the token it has come to, or the one ahead. -/
theorem statement_way_of_error {d : Diagnostic} (h : (statement .full).run p = .error d q) :
    (∃ ts, (∀ t ∈ ts, t.kind ≠ .eof) ∧ p.cursor.Passes ts q.cursor) ∧
      (d.position = q.current.span.start ∨ d.position = q.peek.span.start) := by
  have hway := statement_inStep Operand.full_inStep (Likeness.parsers_way p) trivial
  rcases hway.of_error h with ⟨e, r, -, hd, hq⟩ | ⟨c, hedge, -⟩
  · refine ⟨hq.cursors.2, ?_⟩
    cases hd with
    | current => exact .inl rfl
    | peek => exact .inr rfl
  · exact hedge.elim

/-- A statement covers the source from its first token to its last. -/
theorem statement_span {s : Stmt} (h : (statement operand).run p = .ok s q) :
    s.site.span = ⟨p.current.span.start, q.current.span.stop⟩ := by
  have h : (stmtRule operand p.current.kind.stmtRule?).run p = .ok s q := h
  match p.current.kind.stmtRule?, h with
  | some .binding, h =>
    obtain ⟨-, -, e, r, -, u, -, rfl⟩ := binding_eq_ok_iff.1 h
    rfl
  | some .result, h =>
    obtain ⟨e, r, -, u, -, rfl⟩ := result_eq_ok_iff.1 h
    rfl
  | none, h =>
    obtain ⟨e, r, -, u, -, rfl⟩ := expressionStatement_eq_ok_iff.1 h
    rfl

end Parse

/-! ## Segments -/

/-- What one round of a loop over statements takes and gives. -/
structure Segment where
  /-- The tokens it takes. -/
  tokens : List Token
  /-- The statement it gives, if it gives one. -/
  stmt? : Option Stmt
  /-- The diagnostics it records. -/
  diagnostics : List Diagnostic

namespace Segment

/-- Does a segment in front of the tokens `rest` give a statement that covers its tokens, or
blame one of them or the next? -/
def Sound (g : Segment) (rest : List Token) : Prop :=
  ∃ first last, g.tokens.head? = some first ∧ g.tokens.getLast? = some last ∧
    match g.stmt? with
    | some s => s.site.span = ⟨first.span.start, last.span.stop⟩
    | none => ∃ d, g.diagnostics.getLast? = some d ∧
        ∃ t ∈ g.tokens ++ rest.take 1, d.position = t.span.start

/-- Are all segments sound, one behind the other and in front of the token `stop`? -/
def AllSound : List Segment → (stop : Token) → Prop
  | [], _ => True
  | g :: gs, stop => g.Sound (gs.flatMap (·.tokens) ++ [stop]) ∧ AllSound gs stop

end Segment

/-! ## Rounds -/

namespace Parser

variable {p q r : Parser} {ts us : List Token} {ds es : List Diagnostic} {gs : List Segment}

/-- Between two parsers the tokens `ts` are taken and the diagnostics `ds` recorded. -/
structure Takes (p : Parser) (ts : List Token) (ds : List Diagnostic) (q : Parser) : Prop where
  /-- The tokens are those that are no longer to come. -/
  tokens_eq : p.cursor.tokens = ts ++ q.cursor.tokens
  /-- The diagnostics are the last ones. -/
  diagnostics_eq : q.diagnostics.toList = p.diagnostics.toList ++ ds

theorem Takes.refl (p : Parser) : p.Takes [] [] p := ⟨rfl, (List.append_nil _).symm⟩

theorem Takes.trans (h : p.Takes ts ds q) (k : q.Takes us es r) :
    p.Takes (ts ++ us) (ds ++ es) r :=
  ⟨by rw [h.tokens_eq, k.tokens_eq, List.append_assoc],
    by rw [k.diagnostics_eq, h.diagnostics_eq, List.append_assoc]⟩

theorem Leads.settled_advance (h : p.Leads q) (hs : p.cursor.Settled) :
    q.advance.cursor.Settled :=
  hs.of_reaches (h.trans (leads_advance q)).reaches

/-- Round by round, a loop over statements leads from one parser to another. -/
inductive Rounds : Parser → List Segment → Parser → Prop
  | nil (p : Parser) : Rounds p [] p
  /-- A statement is kept. -/
  | kept {p q r : Parser} {s : Stmt} {ts : List Token} {ds : List Diagnostic}
      {gs : List Segment} : p.current.kind ≠ .eof → (statement .full).run p = .ok s q →
      p.Takes ts ds q.advance → Rounds q.advance gs r → Rounds p (⟨ts, some s, ds⟩ :: gs) r
  /-- A statement fails, which is recorded. -/
  | dropped {p q r : Parser} {d : Diagnostic} {ts : List Token} {ds : List Diagnostic}
      {gs : List Segment} : p.current.kind ≠ .eof → (statement .full).run p = .error d q →
      p.Takes ts ds (q.record d).advance → Rounds (q.record d).advance gs r →
      Rounds p (⟨ts, none, ds⟩ :: gs) r

theorem Rounds.takes (h : Rounds p gs r) :
    p.Takes (gs.flatMap (·.tokens)) (gs.flatMap (·.diagnostics)) r := by
  induction h with
  | nil p => exact .refl p
  | kept _ _ h _ ih => exact h.trans ih
  | dropped _ _ h _ ih => exact h.trans ih

/-- Behind a token that is not the end token, what was passed and the token are taken. -/
theorem tokens_of_passes (h : p.cursor.Passes ts q.cursor) (hts : ∀ t ∈ ts, t.kind ≠ .eof)
    (hq : q.current.kind ≠ .eof) :
    p.cursor.tokens = (ts ++ [q.current]) ++ q.advance.cursor.tokens ∧
      (ts ++ [q.current]).head? = some p.current := by
  have hall : ∀ t ∈ ts ++ [q.current], t.kind ≠ .eof :=
    List.forall_mem_append.2 ⟨hts, List.forall_mem_singleton.2 hq⟩
  have hpasses : p.cursor.Passes (ts ++ [q.current]) q.advance.cursor := h.trans (.advance _)
  exact ⟨hpasses.tokens_eq hall, hpasses.head? (by simp)⟩

/-- A round that keeps its statement. -/
theorem exists_takes_of_ok {s : Stmt} (h : (statement .full).run p = .ok s q) :
    ∃ ts ds, p.Takes ts ds q.advance ∧ ∀ rest, Segment.Sound ⟨ts, some s, ds⟩ rest := by
  obtain ⟨⟨ts, hts, hp⟩, hk⟩ := statement_way_of_ok h
  obtain ⟨htokens, hhead⟩ := tokens_of_passes hp hts hk.ne_eof
  obtain ⟨ds, hds⟩ := ((steady_statement .full p).of_eq h).diagnostics
  exact ⟨_, ds, ⟨htokens, hds.symm⟩, fun rest =>
    ⟨p.current, q.current, hhead, List.getLast?_concat, statement_span h⟩⟩

/-- The tokens a failing statement has gone through, from its first to the one it has come to.
The end token is left for the next round, which finds it once more. -/
theorem exists_tokens_of_error (hs : p.cursor.Settled) (hk : p.current.kind ≠ .eof)
    {d : Diagnostic} (h : (statement .full).run p = .error d q) :
    ∃ ts, p.cursor.tokens = ts ++ q.advance.cursor.tokens ∧ ts.head? = some p.current ∧
      (q.current ∈ ts ∨ q.current = q.advance.current) := by
  obtain ⟨⟨ts, hts, hp⟩, -⟩ := statement_way_of_error h
  by_cases hq : q.current.kind = .eof
  · have hl : p.Leads q := (steady_statement .full p).of_eq h
    have hsettled : q.cursor.Settled := hs.of_reaches hl.reaches
    have hne : ts ≠ [] := by
      rintro rfl
      have hc : p.cursor = q.cursor := hp.eq_of_nil
      rw [current, hc] at hk
      exact hk hq
    refine ⟨ts, ?_, hp.head? hne, .inr (hsettled.peek_eq hq).symm⟩
    exact (hp.tokens_eq hts).trans (congrArg _ (hsettled.tokens_advance hq).symm)
  · obtain ⟨htokens, hhead⟩ := tokens_of_passes hp hts hq
    exact ⟨_, htokens, hhead, .inl (List.mem_append_right _ (List.mem_singleton_self _))⟩

/-- A round that records the diagnostic of its statement. -/
theorem exists_takes_of_error (hs : p.cursor.Settled) (hk : p.current.kind ≠ .eof)
    {d : Diagnostic} (h : (statement .full).run p = .error d q) :
    ∃ ts ds, p.Takes ts ds (q.record d).advance ∧
      ∀ rest, rest.head? = some q.advance.current → Segment.Sound ⟨ts, none, ds⟩ rest := by
  obtain ⟨ts, htokens, hhead, hcurrent⟩ := exists_tokens_of_error hs hk h
  have hl : p.Leads q := (steady_statement .full p).of_eq h
  obtain ⟨ds, hds⟩ := hl.diagnostics
  have hrecord : (q.record d).diagnostics.toList = p.diagnostics.toList ++ (ds ++ [d]) := by
    rw [record, Array.toList_push, ← hds, List.append_assoc]
  refine ⟨ts, ds ++ [d], ⟨htokens, hrecord⟩, fun rest hrest => ?_⟩
  have hne : ts ≠ [] := by
    rintro rfl
    cases hhead
  have hnext : q.advance.current ∈ ts ++ rest.take 1 := by
    obtain ⟨us, rfl⟩ := List.head?_eq_some_iff.1 hrest
    exact List.mem_append_right _ List.mem_cons_self
  have hblamed : ∃ t ∈ ts ++ rest.take 1, d.position = t.span.start := by
    rcases (statement_way_of_error h).2 with hd | hd
    · rcases hcurrent with hmem | heq
      · exact ⟨_, List.mem_append_left _ hmem, hd⟩
      · exact ⟨_, hnext, by rw [hd, heq]⟩
    · exact ⟨_, hnext, hd⟩
  exact ⟨p.current, ts.getLast hne, hhead, List.getLast?_eq_some_getLast hne, d,
    List.getLast?_concat, hblamed⟩

/-- What is taken between two parsers is fixed. -/
theorem Takes.unique (h : p.Takes ts ds q) (k : p.Takes us es q) : ts = us ∧ ds = es :=
  ⟨List.append_cancel_right (h.tokens_eq.symm.trans k.tokens_eq),
    List.append_cancel_left (h.diagnostics_eq.symm.trans k.diagnostics_eq)⟩

/-- A loop stands on the first token of its rounds, or on the one it stops on. -/
theorem Rounds.head? (h : Rounds p gs r) :
    (gs.flatMap (·.tokens) ++ [r.current]).head? = some p.current := by
  have htokens := congrArg List.head? h.takes.tokens_eq
  rw [Cursor.head?_tokens, List.head?_append, Cursor.head?_tokens] at htokens
  rw [List.head?_append]
  exact htokens.symm

/-- Every round is sound. -/
theorem Rounds.allSound (h : Rounds p gs r) (hs : p.cursor.Settled) :
    Segment.AllSound gs r.current := by
  induction h with
  | nil => trivial
  | @kept p q r s ts ds gs _ hstatement htakes _ ih =>
    obtain ⟨us, es, ht, hsound⟩ := exists_takes_of_ok hstatement
    obtain ⟨rfl, rfl⟩ := htakes.unique ht
    have hl : p.Leads q := (steady_statement .full p).of_eq hstatement
    exact ⟨hsound _, ih (hl.settled_advance hs)⟩
  | @dropped p q r d ts ds gs hk hstatement htakes hrounds ih =>
    obtain ⟨us, es, ht, hsound⟩ := exists_takes_of_error hs hk hstatement
    obtain ⟨rfl, rfl⟩ := htakes.unique ht
    have hl : p.Leads q := (steady_statement .full p).of_eq hstatement
    exact ⟨hsound _ hrounds.head?, ih (hl.settled_advance hs)⟩

/-- The loop of a program goes in rounds up to the end token. -/
theorem exists_rounds_topLevel (done : Array Stmt) (hs : p.cursor.Settled) :
    ∃ gs, Rounds p gs (topLevel done p).2 ∧ (topLevel done p).2.current.kind = .eof ∧
      (topLevel done p).1.toList = done.toList ++ gs.filterMap (·.stmt?) := by
  fun_induction topLevel done p with
  | case1 done p hk => exact ⟨[], .nil p, hk, (List.append_nil _).symm⟩
  | case2 done p hk s q h ih =>
    have hl : p.Leads q := (steady_statement .full p).of_eq h
    obtain ⟨ts, ds, ht, -⟩ := exists_takes_of_ok h
    obtain ⟨gs, hrounds, heof, hbody⟩ := ih (hl.settled_advance hs)
    refine ⟨_, .kept hk h ht hrounds, heof, ?_⟩
    rw [hbody, Array.toList_push, List.append_assoc]
    rfl
  | case3 done p hk d q h ih =>
    have hl : p.Leads q := (steady_statement .full p).of_eq h
    obtain ⟨ts, ds, ht, -⟩ := exists_takes_of_error hs hk h
    obtain ⟨gs, hrounds, heof, hbody⟩ := ih (hl.settled_advance hs)
    exact ⟨_, .dropped hk h ht hrounds, heof, hbody⟩

/-- So does the loop of a block up to the closing brace, if there is one. -/
theorem exists_rounds_moreStatements {done body : Array Stmt} (hs : p.cursor.Settled)
    (h : moreStatements .full done p = .ok body q) :
    ∃ gs, Rounds p gs q ∧ q.current.kind = .closeCurly ∧
      body.toList = done.toList ++ gs.filterMap (·.stmt?) := by
  fun_induction moreStatements .full done p with
  | case1 done p hk =>
    cases h
    exact ⟨[], .nil _, hk, (List.append_nil _).symm⟩
  | case2 done p hc he => cases h
  | case3 done p hc hk s r hr ih =>
    have hl : p.Leads r := (steady_statement .full p).of_eq hr
    obtain ⟨ts, ds, ht, -⟩ := exists_takes_of_ok hr
    obtain ⟨gs, hrounds, hclose, hbody⟩ := ih (hl.settled_advance hs) h
    refine ⟨_, .kept hk hr ht hrounds, hclose, ?_⟩
    rw [hbody, Array.toList_push, List.append_assoc]
    rfl
  | case4 done p hc hk d r hr he => cases h
  | case5 done p hc hk d r hr _ ih =>
    have hl : p.Leads r := (steady_statement .full p).of_eq hr
    obtain ⟨ts, ds, ht, -⟩ := exists_takes_of_error hs hk hr
    obtain ⟨gs, hrounds, hclose, hbody⟩ := ih (hl.settled_advance hs) h
    exact ⟨_, .dropped hk hr ht hrounds, hclose, hbody⟩

end Parser

end ExprLang
