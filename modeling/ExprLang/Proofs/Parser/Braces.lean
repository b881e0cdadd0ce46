import ExprLang.Proofs.Parser.Course

/-!
# Braces

A block is reported as open at the end of the source only if it is, save for one case
(`parse_closed`).  Where an expression was to start on a closing brace, recovering passes the
brace over with the failure, and the block that it was to close goes on to the end of the
source (`parse_closed_fails`).  Where a token ahead was missed instead, the brace is the next
token, and it closes the block.

Along a walk the moves over braces tell how many blocks are open.  Where a block is reported
as open it is one at least, and so the tokens open more blocks than they close, unless a
closing brace was passed over.
-/

namespace ExprLang

open Parse

namespace Parser

variable {start p q : Parser} {c : Cursor} {d : Diagnostic} {ms : List Move}

/-- What was not expected instead of another token is raised from the token that the cursor
stands on. -/
theorem Raises.position_eq (h : start.Raises c d) (hd : d.cause.isUnexpected = false) :
    d.position = c.current.span.start := by
  cases h with
  | expected => cases hd
  | unclosed => cases hd
  | noPrefixRule => rfl
  | badNumber => rfl
  | tooDeep => rfl

/-- Only at the end of the source is a closing brace missed. -/
theorem Raises.eof_of_closeCurly (h : start.Raises c d) {found : TokenKind} {literal : String}
    (hd : d.cause = .unexpectedToken .closeCurly found literal) : c.current.kind = .eof := by
  cases h with
  | expected _ hkind =>
    cases hd
    exact absurd rfl hkind
  | unclosed he => exact he
  | noPrefixRule => cases hd
  | badNumber => cases hd
  | tooDeep => cases hd

/-- A closing brace that is passed over is blamed by a failure. -/
theorem Walk.blames_of_swallows (h : start.Walk p ms q) : ∀ m ∈ ms, m.swallows →
    ∃ d ∈ Move.failures ms, d.position = m.token.span.start ∧ d.cause.isUnexpected = false := by
  intro m hm hs
  obtain ⟨r, hr, -, -, -, hmove⟩ := h.forall_mem m hm
  cases hfailure : m.failure? with
  | none => simp [Move.swallows, hfailure] at hs
  | some d =>
    rw [hfailure] at hmove
    have hcause : d.cause.isUnexpected = false := by
      simp only [Move.swallows, hfailure, Option.any_some, Bool.and_eq_true,
        Bool.not_eq_true'] at hs
      exact hs.2
    exact ⟨d, List.mem_filterMap.2 ⟨m, hm, hfailure⟩,
      hr ▸ hmove.raises.position_eq hcause, hcause⟩

end Parser

/-- If no closing brace is passed over, as many more blocks are open behind some moves as braces
were opened and not closed. -/
theorem Move.height_eq {ms : List Move} (h : ∀ m ∈ ms, ¬ m.swallows) :
    height ms = (ms.map (·.token)).countP (·.kind = .openCurly) -
      (ms.map (·.token)).countP (·.kind = .closeCurly) := by
  induction ms with
  | nil => rfl
  | cons m ms ih =>
    obtain ⟨hm, hms⟩ := List.forall_mem_cons.1 h
    have hrise : m.rise = m.token.kind.rise := if_neg hm
    rw [height_cons, ih hms, hrise, List.map_cons, List.countP_cons, List.countP_cons]
    cases hk : m.token.kind <;> simp [TokenKind.rise] <;> omega

/-- If a source closes as many braces as it opens, and only tokens that were missed are blamed
where one is closed, then no block is reported as open. -/
theorem parse_closed {source : String} {file? : Option String}
    (hbraces : (tokenize source file?).countP (·.kind = .openCurly) ≤
      (tokenize source file?).countP (·.kind = .closeCurly))
    (hblamed : ∀ t ∈ tokenize source file?, t.kind = .closeCurly →
      ∀ d ∈ (parse source file?).2.diagnostics.toList, d.position = t.span.start →
        d.cause.isUnexpected) :
    ∀ d ∈ (parse source file?).2.diagnostics.toList, ∀ found literal,
      d.cause ≠ .unexpectedToken .closeCurly found literal := by
  obtain ⟨ms, last?, stop, h⟩ := Parser.exists_course source file?
  rw [h.eq_failures rfl] at hblamed ⊢
  rw [h.tokenize_eq rfl] at hbraces hblamed
  intro d hd found literal hcause
  rcases List.mem_append.1 hd with hd | hd
  · obtain ⟨q, hq, -, hne, -⟩ := h.walk.failed d hd
    exact hne (hq.raises.eof_of_closeCurly hcause)
  · obtain ⟨-, hheight⟩ := h.last d (Option.mem_toList.1 hd)
    have hone : d.cause.height .eof = 1 := by rw [hcause]; rfl
    have hswallows : ∀ m ∈ ms, ¬ m.swallows := by
      intro m hm hs
      obtain ⟨e, he, hposition, hnot⟩ := h.walk.blames_of_swallows m hm hs
      have hclose : m.token.kind = .closeCurly := by
        simp only [Move.swallows, Bool.and_eq_true, decide_eq_true_eq] at hs
        exact hs.1
      have hmem : m.token ∈ ms.map (·.token) ++ [stop.current] :=
        List.mem_append_left _ (List.mem_map_of_mem hm)
      have hyes := hblamed _ hmem hclose e (List.mem_append_left _ he) hposition
      rw [hnot] at hyes
      cases hyes
    have hstop : stop.current.kind = .eof := h.eof
    rw [Move.height_eq hswallows, hone] at hheight
    simp only [List.countP_append, List.countP_singleton, hstop, reduceCtorEq, decide_false,
      Bool.false_eq_true, if_false, Nat.add_zero] at hbraces
    omega

theorem parse_closed_missed :
    (parse "fn()\x7b let x \x7d 1" none).2.diagnostics.toList =
        [⟨.unexpectedToken .assign .closeCurly "\x7d", .at "shell" 12⟩] ∧
      ∀ d ∈ (parse "fn()\x7b let x \x7d 1" none).2.diagnostics.toList, ∀ found literal,
        d.cause ≠ .unexpectedToken .closeCurly found literal :=
  ⟨by decide +kernel, parse_closed (by decide +kernel) (by decide +kernel)⟩

/-- Every brace of this source is closed, and yet its block is reported as open. -/
theorem parse_closed_fails :
    (tokenize "fn()\x7b 1 + \x7d" none).countP (·.kind = .openCurly) =
        (tokenize "fn()\x7b 1 + \x7d" none).countP (·.kind = .closeCurly) ∧
      (∀ n ≤ (tokenize "fn()\x7b 1 + \x7d" none).length,
        ((tokenize "fn()\x7b 1 + \x7d" none).take n).countP (·.kind = .closeCurly) ≤
          ((tokenize "fn()\x7b 1 + \x7d" none).take n).countP (·.kind = .openCurly)) ∧
      (parse "fn()\x7b 1 + \x7d" none).2.diagnostics.toList =
        [⟨.noPrefixRule .closeCurly "\x7d", .at "shell" 10⟩,
          ⟨.unexpectedToken .closeCurly .eof "\x00", .at "shell" 11⟩] := by
  decide +kernel

end ExprLang
