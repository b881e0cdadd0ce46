import ExprLang.Proofs.Parser.Consistency
import ExprLang.Proofs.Parser.Order
import ExprLang.Proofs.Tree.Agrees

/-!
# Illegal tokens

No illegal token is lost (`parse_illegal`).  Wherever it stands, one diagnostic reports it,
and no node of the program has it.

A walk passes only tokens of kinds that it knows, so it recovers at an illegal one.  What it
recovers from there was raised on that token, for a rule that misses a token ahead stands on one
it knows, and so no expression was found to start with it.
-/

namespace ExprLang

open Parse

/-- Does a cause report the illegal token `t`?  It says that the token starts no expression, or
that none may start there. -/
def Cause.reports (t : Token) : Cause → Bool
  | noPrefixRule kind literal => kind = .illegal && literal = t.literal
  | nestingTooDeep _ => true
  | _ => false

theorem Cause.looksAhead_of_reports {t : Token} {cause : Cause} (h : cause.reports t) :
    cause.looksAhead = false := by
  cases cause with
  | unexpectedToken => cases h
  | noPrefixRule => rfl
  | badNumber => rfl
  | nestingTooDeep => rfl

/-- Does a diagnostic report the illegal token `t`, where the token starts? -/
def Diagnostic.reports (t : Token) (d : Diagnostic) : Bool :=
  d.position.offset = t.span.start.offset && d.cause.reports t

namespace Parser

variable {start p q : Parser} {c : Cursor} {d : Diagnostic} {ms : List Move}
  {ds : List Diagnostic} {source : String} {file? : Option String}

/-- What is raised on an illegal token reports it. -/
theorem Raises.reports (h : start.Raises c d) (hc : c.current.kind = .illegal) :
    d.reports c.current := by
  cases h with
  | expected hk => exact absurd hc hk.2
  | unclosed he =>
    rw [hc] at he
    cases he
  | noPrefixRule => simp [Diagnostic.reports, Cause.reports, hc]
  | badNumber hk =>
    rw [hc] at hk
    cases hk
  | tooDeep => simp [Diagnostic.reports, Cause.reports]

/-- A walk recovers at every illegal token, from a failure that reports it. -/
theorem Walk.reports (h : start.Walk p ms q) :
    ∀ t ∈ ms.map (·.token), t.kind = .illegal → ∃ d ∈ Move.failures ms, d.reports t := by
  refine List.forall_mem_map.2 fun m hm hk => ?_
  obtain ⟨r, hr, -, -, -, hmove⟩ := h.forall_mem m hm
  cases hfailure : m.failure? with
  | none =>
    rw [hfailure] at hmove
    exact absurd hk hmove.2
  | some d =>
    rw [hfailure] at hmove
    rw [← hr] at hk ⊢
    exact ⟨d, List.mem_filterMap.2 ⟨m, hm, hfailure⟩, hmove.raises.reports hk⟩

/-- No two failures report one token, for the first one would look ahead to it. -/
theorem countP_reports_le_one (h : ds.Pairwise start.Before)
    (hstart : start.cursor = .ofScanner (.ofSource source file?))
    (hsize : source.utf8ByteSize < UInt32.size) (t : Token) :
    ds.countP (·.reports t) ≤ 1 := by
  refine countP_le_one (h.imp fun {d e} hbefore => ?_)
  rintro ⟨hd, he⟩
  simp only [Diagnostic.reports, Bool.and_eq_true, decide_eq_true_eq] at hd he
  obtain ⟨hahead, -⟩ := hbefore.shares hstart hsize (hd.1.trans he.1.symm)
  rw [Cause.looksAhead_of_reports hd.2] at hahead
  cases hahead

end Parser

/-- A node that agrees with its token has one of a kind that is known. -/
theorem Node.Agrees.known {T : Token → Prop} {n : Node} (h : n.Agrees T) :
    n.site.token.kind.Known := by
  have hof {k : TokenKind} (hk : n.site.token.kind = k) (hknown : k.Known) :
      n.site.token.kind.Known := hk ▸ hknown
  match n, h with
  | .expr (.identifier _), ⟨t, _, hk, hid⟩ =>
    subst hid
    exact hof hk (by decide)
  | .expr (.integer _ _), ⟨_, hk, _⟩ => exact hof hk (by decide)
  | .expr (.boolean _ _), ⟨_, hk, _⟩ => exact hk.elim (hof · (by decide)) (hof · (by decide))
  | .expr (.unary _ _ _), ⟨_, hk, _⟩ => exact (TokenKind.known_of_prefixRule hk).1
  | .expr (.binary _ _ _ _), ⟨_, hk, _⟩ => exact (TokenKind.known_of_infixRule hk).1
  | .expr (.conditional _ _ _ _), ⟨_, hk⟩ => exact hof hk (by decide)
  | .expr (.function _ _ _), ⟨_, hk⟩ => exact hof hk (by decide)
  | .expr (.call _ _ _), ⟨_, hk⟩ => exact hof hk (by decide)
  | .block (.mk _ _), ⟨_, hk⟩ => exact hof hk (by decide)
  | .stmt (.binding _ _ _), ⟨_, hk⟩ => exact hof hk (by decide)
  | .stmt (.result _ _), ⟨_, hk⟩ => exact hof hk (by decide)
  | .stmt (.expression _ _), ⟨_, hk⟩ =>
    obtain ⟨rule, hrule⟩ := Option.isSome_iff_exists.1 hk
    exact (TokenKind.known_of_prefixRule hrule).1

/-- Every illegal token of a source is reported once, and is in no node of the program. -/
theorem parse_illegal {source : String} {file? : Option String}
    (h : source.utf8ByteSize < UInt32.size) :
    (∀ t ∈ tokenize source file?, t.kind = .illegal →
      (parse source file?).2.diagnostics.toList.countP (·.reports t) = 1) ∧
    ∀ row ∈ (parse source file?).1.outline, row.node.site.token.kind ≠ .illegal := by
  obtain ⟨ms, last?, stop, hcourse⟩ := Parser.exists_course source file?
  refine ⟨fun t ht hk => ?_, fun row hrow => ?_⟩
  · have hle := Parser.countP_reports_le_one (hcourse.pairwise rfl) rfl h t
    refine Nat.le_antisymm hle (List.countP_pos_iff.2 ?_)
    rw [hcourse.tokenize_eq rfl] at ht
    rcases List.mem_append.1 ht with ht | ht
    · obtain ⟨d, hd, hreports⟩ := hcourse.walk.reports t ht hk
      rw [hcourse.eq_failures rfl]
      exact ⟨d, List.mem_append_left _ hd, hreports⟩
    · rw [List.mem_singleton.1 ht, hcourse.eof] at hk
      cases hk
  · have hagrees := (Program.each_iff_outline _).1 (parse_consistent source file?).each row hrow
    exact hagrees.known.2

theorem parse_illegal_twice :
    "let @ = f(1, @".utf8ByteSize < UInt32.size ∧
      ∃ t ∈ tokenize "let @ = f(1, @" none, t.kind = .illegal ∧ t.start = 4 ∧
        (parse "let @ = f(1, @" none).2.diagnostics.toList.countP (·.reports t) = 1 := by
  have h : "let @ = f(1, @".utf8ByteSize < UInt32.size := by decide
  have ht : ⟨.illegal, "@", .between "shell" 4 5⟩ ∈ tokenize "let @ = f(1, @" none := by
    decide +kernel
  exact ⟨h, _, ht, rfl, rfl, (parse_illegal h).1 _ ht rfl⟩

end ExprLang
