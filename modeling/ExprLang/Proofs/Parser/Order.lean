import ExprLang.Proofs.Parser.Course

/-!
# The order of diagnostics

Diagnostics are recorded in the order of the tokens that they blame (`parse_ordered`).  No
token is blamed more than twice, and where it is blamed twice it was first looked at from
the token before, where another one had to follow, and then a statement failed on it.

Of two failures the later one was raised further on (`Parser.Before`).  Only the one that
looks ahead (`Cause.looksAhead`) blames a token that the other one may stand on.
-/

namespace ExprLang

open Parse

/-- Does a parse that fails for it blame the token ahead?  The closing brace of a block is
missed where the parse stands. -/
def Cause.looksAhead : Cause → Bool
  | unexpectedToken expected _ _ => expected ≠ .closeCurly
  | _ => false

namespace Parser

variable {start : Parser} {c : Cursor} {d e : Diagnostic} {t : Token} {source : String}
  {file? : Option String}

/-- A statement has failed with `d` before the token `t`, which had to be another one. -/
def FailedBefore (start : Parser) (d : Diagnostic) (t : Token) : Prop :=
  ∃ p kind, start.Failed d p ∧ p.peek = t ∧ (expect kind).run p = .error d p ∧
    d = .unexpected kind t

/-- A statement has failed with `d` on the token `t`. -/
def FailedOn (start : Parser) (d : Diagnostic) (t : Token) : Prop :=
  ∃ p, start.Failed d p ∧ p.current = t ∧ d.position = t.span.start

/-- What is raised blames the token ahead, which had to be another one, or the token that the
cursor stands on. -/
theorem Raises.blames (h : start.Raises c d) :
    (d.cause.looksAhead ∧ c.current.kind ≠ .eof ∧
        ∃ kind, c.peek.kind ≠ kind ∧ d = .unexpected kind c.peek) ∨
      (d.cause.looksAhead = false ∧ d.position = c.current.span.start) := by
  cases h with
  | @expected kind hk hkind hne => exact .inl ⟨by simpa [Diagnostic.unexpected,
      Cause.looksAhead] using hkind, hk.1, kind, hne, rfl⟩
  | unclosed => exact .inr ⟨rfl, rfl⟩
  | noPrefixRule => exact .inr ⟨rfl, rfl⟩
  | badNumber => exact .inr ⟨rfl, rfl⟩
  | tooDeep => exact .inr ⟨rfl, rfl⟩

/-- Of two failures the first one blames an earlier token, or the one that the second one
stands on. -/
theorem Before.blames (h : start.Before d e)
    (hstart : start.cursor = .ofScanner (.ofSource source file?))
    (hsize : source.utf8ByteSize < UInt32.size) :
    d.position.offset < e.position.offset ∨
      d.cause.looksAhead ∧ e.cause.looksAhead = false ∧
        ∃ t ∈ tokenize source file?, start.FailedBefore d t ∧ start.FailedOn e t := by
  obtain ⟨p, q, hd, he, hreaches, hk, hbehind⟩ := h
  rw [hstart] at hreaches
  have hsettled : p.cursor.Settled := (Cursor.settled_ofSource source file?).of_reaches hreaches
  obtain ⟨k, -, hstream⟩ := hbehind.stream
  simp only [Cursor.stream_advance] at hstream
  have lt {i j : Nat} (hij : i < j) (hi : (p.cursor.stream i).kind ≠ .eof) :
      (p.cursor.stream i).span.start.offset < (p.cursor.stream j).span.start.offset :=
    UInt32.lt_iff_toNat_lt.2 (hreaches.start_lt hsize hij hi)
  have hcurrent : q.cursor.current = p.cursor.stream (k + 1) := hstream 0
  have hpeek : q.cursor.peek = p.cursor.stream (k + 2) := hstream 1
  rcases hd.raises.blames with ⟨hahead, -, kind, hne, hdeq⟩ | ⟨-, hdpos⟩
  · have hdpos : d.position = (p.cursor.stream 1).span.start := by rw [hdeq]; rfl
    rw [hdpos]
    rcases he.raises.blames with ⟨-, hq, kind', -, rfl⟩ | ⟨hhere, hepos⟩
    · left
      have hone : (p.cursor.stream 1).kind ≠ .eof := by
        intro heof
        rw [hcurrent, hsettled.stream_eq (by omega) heof] at hq
        exact hq heof
      show _ < q.cursor.peek.span.start.offset
      rw [hpeek]
      exact lt (by omega) hone
    · by_cases hsame : p.cursor.stream (k + 1) = p.cursor.stream 1
      · have hbefore : start.FailedBefore d (p.cursor.stream 1) :=
          ⟨p, kind, hd, rfl, hdeq ▸ if_neg hne, hdeq⟩
        exact .inr ⟨hahead, hhere, _, hreaches.mem_tokenize 1, hbefore, q, he,
          hcurrent.trans hsame, by rw [hepos, hcurrent, hsame]⟩
      · left
        have hone : (p.cursor.stream 1).kind ≠ .eof := fun heof =>
          hsame (hsettled.stream_eq (by omega) heof)
        have hk : k ≠ 0 := by
          rintro rfl
          exact hsame rfl
        rw [hepos, hcurrent]
        exact lt (by omega) hone
  · left
    rw [hdpos]
    rcases he.raises.blames with ⟨-, -, kind, -, rfl⟩ | ⟨-, hepos⟩
    · show _ < q.cursor.peek.span.start.offset
      rw [hpeek]
      exact lt (i := 0) (by omega) hk
    · rw [hepos, hcurrent]
      exact lt (i := 0) (by omega) hk

theorem Before.offset_le (h : start.Before d e)
    (hstart : start.cursor = .ofScanner (.ofSource source file?))
    (hsize : source.utf8ByteSize < UInt32.size) : d.position.offset ≤ e.position.offset := by
  rcases h.blames hstart hsize with hlt | ⟨-, -, t, -, ⟨p, kind, -, -, -, rfl⟩, q, -, -, he⟩
  · exact UInt32.le_of_lt hlt
  · rw [he]
    exact UInt32.le_refl _

/-- Of two failures that blame one token the first one has looked ahead to it, and the second
one stands on it. -/
theorem Before.shares (h : start.Before d e)
    (hstart : start.cursor = .ofScanner (.ofSource source file?))
    (hsize : source.utf8ByteSize < UInt32.size) (heq : d.position.offset = e.position.offset) :
    d.cause.looksAhead ∧ e.cause.looksAhead = false ∧
      ∃ t ∈ tokenize source file?, start.FailedBefore d t ∧ start.FailedOn e t :=
  (h.blames hstart hsize).resolve_left fun hlt => UInt32.ne_of_lt hlt heq

/-- At most one element of a list has a property that no two of them share. -/
theorem countP_le_one {α : Type} {P : α → Bool} {l : List α}
    (h : l.Pairwise fun a b => ¬ (P a ∧ P b)) : l.countP P ≤ 1 := by
  induction l with
  | nil => exact Nat.zero_le 1
  | cons a l ih =>
    obtain ⟨ha, hl⟩ := List.pairwise_cons.1 h
    by_cases hP : P a
    · have hnone : l.countP P = 0 := List.countP_eq_zero.2 fun b hb hPb => ha b hb ⟨hP, hPb⟩
      have hone : (a :: l).countP P = 1 := by rw [List.countP_cons_of_pos hP, hnone]
      exact Nat.le_of_eq hone
    · rw [List.countP_cons_of_neg hP]
      exact ih hl

/-- One token is blamed by at most one failure that looks ahead and one that does not. -/
theorem countP_offset_le_two {ds : List Diagnostic} (h : ds.Pairwise start.Before)
    (hstart : start.cursor = .ofScanner (.ofSource source file?))
    (hsize : source.utf8ByteSize < UInt32.size) (offset : UInt32) :
    ds.countP (·.position.offset = offset) ≤ 2 := by
  have hshares : (ds.filter (·.position.offset = offset)).Pairwise
      fun d e => d.cause.looksAhead ∧ e.cause.looksAhead = false := by
    refine (h.sublist List.filter_sublist).imp_of_mem fun hd he hbefore => ?_
    have hd := of_decide_eq_true (List.mem_filter.1 hd).2
    have he := of_decide_eq_true (List.mem_filter.1 he).2
    obtain ⟨hahead, hnot, -⟩ := hbefore.shares hstart hsize (hd.trans he.symm)
    exact ⟨hahead, hnot⟩
  have hahead := countP_le_one (P := (·.cause.looksAhead))
    (hshares.imp fun hde => by simp [hde.2])
  have hhere := countP_le_one (P := fun d => ¬ d.cause.looksAhead)
    (hshares.imp fun hde => by simp [hde.1])
  rw [List.countP_eq_length_filter, List.length_eq_countP_add_countP (·.cause.looksAhead)]
  omega

end Parser

/-- Diagnostics come in the order of the tokens that they blame. -/
theorem parse_ordered {source : String} {file? : Option String}
    (h : source.utf8ByteSize < UInt32.size) :
    let start := (Parser.ofScanner (.ofSource source file?)).reset
    let ds := (parse source file?).2.diagnostics.toList
    ds.Pairwise (fun d e => d.position.offset ≤ e.position.offset) ∧
    (∀ offset, ds.countP (·.position.offset = offset) ≤ 2) ∧
    (∀ d e, [d, e].Sublist ds → d.position.offset = e.position.offset →
      ∃ t ∈ tokenize source file?, start.FailedBefore d t ∧ start.FailedOn e t) ∧
    ds.length + (parse source file?).1.outline.countP (·.node.isStmt) ≤
      (tokenize source file?).countP (·.kind ≠ .eof) := by
  intro start ds
  obtain ⟨ms, last?, stop, hcourse⟩ := Parser.exists_course source file?
  have hbefore : ds.Pairwise start.Before := hcourse.pairwise rfl
  refine ⟨hbefore.imp fun hd => hd.offset_le rfl h, Parser.countP_offset_le_two hbefore rfl h,
    fun d e hde heq => ?_, ?_⟩
  · exact ((List.pairwise_iff_forall_sublist.1 hbefore hde).shares rfl h heq).2.2
  · rw [hcourse.countP_tokenize rfl, Program.countP_outline, Nat.add_comm,
      show ds = _ from hcourse.eq_failures rfl]
    exact hcourse.room

theorem parse_ordered_twice :
    "let é".utf8ByteSize < UInt32.size ∧
      ∃ d e, [d, e].Sublist (parse "let é" none).2.diagnostics.toList ∧
        d.position.offset = e.position.offset ∧
        ∃ t ∈ tokenize "let é" none,
          (Parser.ofScanner (.ofSource "let é" none)).reset.FailedBefore d t ∧
            (Parser.ofScanner (.ofSource "let é" none)).reset.FailedOn e t := by
  have h : "let é".utf8ByteSize < UInt32.size := by decide
  have hds : [⟨.unexpectedToken .identifier .illegal "é", .at "shell" 4⟩,
      ⟨.noPrefixRule .illegal "é", .at "shell" 4⟩].Sublist
        (parse "let é" none).2.diagnostics.toList := by decide +kernel
  exact ⟨h, _, _, hds, rfl, (parse_ordered h).2.2.1 _ _ hds rfl⟩

end ExprLang
