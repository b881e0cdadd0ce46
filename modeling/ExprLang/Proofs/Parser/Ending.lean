import ExprLang.Proofs.Parser.Braces
import ExprLang.Proofs.Parser.Order
import ExprLang.Proofs.Parser.Unwinding

/-!
# The end of the source

A source that ends too early is reported once, however many blocks, groups and calls are left
open (`parse_ending`).

What is recorded is the failures along one walk.  They blame tokens before the end token, up to
one that was raised just before it or on it (`Parser.Failed.blames_or`), and from there on the
failure comes up and nothing else is recorded but that a block is open.
-/

namespace ExprLang

open Parse

namespace Parser

/-- What a parse that began on `start` records is `front`, then what is missed ahead of the end
token `stop`, and then what fails on it. -/
structure Ending (start : Parser) (stop : Token) (front : List Diagnostic)
    (ahead? last? : Option Diagnostic) : Prop where
  /-- Most diagnostics blame an earlier token. -/
  blames : ∀ d ∈ front, d.position.offset < stop.span.start.offset
  /-- One may have missed another token than a closing brace just before the end token. -/
  ahead : ∀ d ∈ ahead?, start.FailedBefore d stop ∧ ∃ kind, kind ≠ .closeCurly ∧
    d = .unexpected kind stop
  /-- One may have been raised on the end token. -/
  last : ∀ d ∈ last?, start.FailedOn d stop
  /-- No other one was. -/
  only : ∀ d ∈ front ++ ahead?.toList, ¬ start.FailedOn d stop
  /-- Behind one that was raised ahead of it this is a block that is open. -/
  behind : ∀ d ∈ ahead?, ∀ e ∈ last?, e = .unexpected .closeCurly stop
  /-- No block is reported as open anywhere else. -/
  unclosed : ∀ d ∈ front ++ ahead?.toList ++ last?.toList, ∀ found literal,
    d.cause = .unexpectedToken .closeCurly found literal →
      d ∈ last? ∧ d = .unexpected .closeCurly stop

variable {start q : Parser} {cursor : Cursor} {d : Diagnostic} {front : List Diagnostic}
  {ahead? last? : Option Diagnostic} {stop : Token} {source : String} {file? : Option String}

/-- Where a closing brace is missed the diagnostic blames the end token. -/
theorem Raises.eq_unclosed (h : start.Raises cursor d) {found : TokenKind} {literal : String}
    (hd : d.cause = .unexpectedToken .closeCurly found literal) :
    d = .unexpected .closeCurly cursor.current := by
  cases h with
  | expected _ hkind =>
    cases hd
    exact absurd rfl hkind
  | unclosed he => rfl
  | noPrefixRule => cases hd
  | badNumber => cases hd
  | tooDeep => cases hd

/-- What fails on the end token does not look ahead. -/
theorem FailedOn.looksAhead (h : start.FailedOn d stop) (hstop : stop.kind = .eof) :
    d.cause.looksAhead = false := by
  obtain ⟨q, hd, rfl, -⟩ := h
  exact hd.raises.blames.elim (fun hahead => absurd hstop hahead.2.1) fun hhere => hhere.1

/-- What is raised on the end token blames it. -/
theorem Failed.on_stop (h : start.Failed d q) (hq : q.current = stop) (hstop : stop.kind = .eof) :
    start.FailedOn d stop := by
  subst hq
  refine ⟨q, h, rfl, ?_⟩
  exact h.raises.blames.elim (fun hahead => absurd hstop hahead.2.1) fun hhere => hhere.2

/-- Where everything was raised decides which of it was raised on the end token. -/
theorem Ending.of_failed (hstop : stop.kind = .eof)
    (hfailed : ∀ d ∈ front ++ ahead?.toList ++ last?.toList, ∃ q, start.Failed d q ∧
      (q.current.kind = .eof → q.current = stop))
    (blames : ∀ d ∈ front, d.position.offset < stop.span.start.offset)
    (ahead : ∀ d ∈ ahead?, start.FailedBefore d stop ∧ ∃ kind, kind ≠ .closeCurly ∧
      d = .unexpected kind stop)
    (last : ∀ d ∈ last?, start.FailedOn d stop)
    (behind : ∀ d ∈ ahead?, ∀ e ∈ last?, e = .unexpected .closeCurly stop) :
    start.Ending stop front ahead? last? := by
  have only : ∀ d ∈ front ++ ahead?.toList, ¬ start.FailedOn d stop := by
    intro d hd hon
    rcases List.mem_append.1 hd with hd | hd
    · obtain ⟨-, -, -, hposition⟩ := hon
      exact UInt32.ne_of_lt (blames d hd) (by rw [hposition])
    · obtain ⟨-, kind, hkind, rfl⟩ := ahead d (Option.mem_toList.1 hd)
      have hnot := hon.looksAhead hstop
      simp [Diagnostic.unexpected, Cause.looksAhead, hkind] at hnot
  refine ⟨blames, ahead, last, only, behind, fun d hd found literal hcause => ?_⟩
  obtain ⟨q, hq, hend⟩ := hfailed d hd
  have hcurrent := hend (hq.raises.eof_of_closeCurly hcause)
  have heq : d = .unexpected .closeCurly q.current := hq.raises.eq_unclosed hcause
  have hon : start.FailedOn d stop := hq.on_stop hcurrent hstop
  refine ⟨?_, by rw [heq, hcurrent]⟩
  rcases List.mem_append.1 hd with hd | hd
  · exact absurd hon (only d hd)
  · exact Option.mem_toList.1 hd

/-- A failure before the end token blames a token before it, or is the last one but for a block
that is open. -/
theorem Failed.blames_or (h : start.Failed d q)
    (hstart : start.cursor = .ofScanner (.ofSource source file?))
    (hsize : source.utf8ByteSize < UInt32.size) (hreaches : start.cursor.Reaches q.cursor)
    (hq : q.current.kind ≠ .eof) :
    let stop := Token.endOf (file?.getD unnamedFile) source.utf8ByteSize
    d.position.offset < stop.span.start.offset ∨
      (start.FailedBefore d stop ∧ ∃ kind, kind ≠ .closeCurly ∧ d = .unexpected kind stop) ∧
        ((topLevel #[] start).2.diagnostics = q.diagnostics.push d ∨
          (topLevel #[] start).2.diagnostics =
            (q.diagnostics.push d).push (.unexpected .closeCurly stop)) := by
  intro stop
  have hs : start.cursor.Settled := hstart ▸ Cursor.settled_ofSource source file?
  have hstop : stop.start = source.utf8ByteSize := Position.offset_at hsize
  have lt {t : Token} (ht : t.start < source.utf8ByteSize) :
      t.span.start.offset < stop.span.start.offset :=
    UInt32.lt_iff_toNat_lt.2 (by rw [← hstop] at ht; exact ht)
  have hmem (n : Nat) : q.cursor.stream n ∈ tokenize source file? :=
    (hstart ▸ hreaches : (Cursor.ofScanner _).Reaches q.cursor).mem_tokenize n
  rcases h.raises.blames with ⟨hahead, -, kind, hne, hd⟩ | ⟨-, hd⟩
  · rcases mem_tokenize hsize (hmem 1) with ⟨-, hlt⟩ | hpeek
    · left
      rw [hd]
      exact lt hlt
    · right
      have hpeek : q.peek = stop := hpeek
      have hd : d = .unexpected kind q.peek := hd
      have hkind : kind ≠ .closeCurly := by
        simpa [hd, Diagnostic.unexpected, Cause.looksAhead] using hahead
      obtain ⟨n, p, hactive, hrun⟩ := h.called
      have hends := hactive.unclosed hs hrun hq (by rw [hpeek]; rfl) #[]
      have hexpect : (expect kind).run q = .error d q := hd ▸ if_neg hne
      rw [hpeek] at hends hd
      exact ⟨⟨⟨q, kind, h, hpeek, hexpect, hd⟩, kind, hkind, hd⟩, hends⟩
  · left
    rw [hd]
    exact lt ((mem_tokenize hsize (hmem 0)).resolve_right fun hcurrent => hq (by
      rw [current, show q.cursor.current = stop from hcurrent]; rfl)).2

/-- A token other than a closing brace is missed ahead of the end token, and behind that at most
the report of a block that is open is recorded. -/
theorem Ending.of_missed {ds : List Diagnostic} {kind : TokenKind}
    (hstart : start.cursor = .ofScanner (.ofSource source file?))
    (hsize : source.utf8ByteSize < UInt32.size) (hstop : stop.kind = .eof)
    (hpair : ds.Pairwise start.Before)
    (hfailed : ∀ d ∈ ds, ∃ q, start.Failed d q ∧ (q.current.kind = .eof → q.current = stop))
    (hkind : kind ≠ .closeCurly) (hbefore : start.FailedBefore (.unexpected kind stop) stop)
    (hds : ds = front ++ [.unexpected kind stop] ∨
      ds = front ++ [.unexpected kind stop, .unexpected .closeCurly stop]) :
    ∃ last? : Option Diagnostic, ds = front ++ [.unexpected kind stop] ++ last?.toList ∧
      start.Ending stop front (some (.unexpected kind stop)) last? := by
  have hblames {rest : List Diagnostic} (hds : ds = front ++ .unexpected kind stop :: rest) :
      ∀ d ∈ front, d.position.offset < stop.span.start.offset := by
    intro d hd
    rw [hds] at hpair
    have hlt := (List.pairwise_append.1 hpair).2.2 d hd _ List.mem_cons_self
    refine (hlt.blames hstart hsize).resolve_right fun hnot => ?_
    simp [Diagnostic.unexpected, Cause.looksAhead, hkind] at hnot
  have hahead : ∀ d ∈ some (Diagnostic.unexpected kind stop), start.FailedBefore d stop ∧
      ∃ kind, kind ≠ .closeCurly ∧ d = .unexpected kind stop := by
    rintro _ ⟨⟩
    exact ⟨hbefore, kind, hkind, rfl⟩
  rcases hds with hds | hds
  · refine ⟨none, hds.trans (List.append_nil _).symm, .of_failed hstop ?_ (hblames hds) hahead
      (fun e he => absurd he (Option.not_mem_none e))
      fun _ _ e he => absurd he (Option.not_mem_none e)⟩
    rw [Option.toList_none, List.append_nil]
    exact hds ▸ hfailed
  · have hsplit : ds = front ++ [.unexpected kind stop] ++ [.unexpected .closeCurly stop] := by
      rw [List.append_assoc]
      exact hds
    refine ⟨some (.unexpected .closeCurly stop), hsplit, .of_failed hstop (hsplit ▸ hfailed)
      (hblames hds) hahead ?_ ?_⟩
    · rintro _ ⟨⟩
      have hmem := List.mem_append_right (front ++ [.unexpected kind stop])
        (List.mem_singleton_self (Diagnostic.unexpected .closeCurly stop))
      obtain ⟨q, hq, hend⟩ := hfailed _ (hsplit ▸ hmem)
      exact hq.on_stop (hend (hq.raises.eof_of_closeCurly rfl)) hstop
    · rintro _ ⟨⟩ _ ⟨⟩
      rfl

end Parser

/-- The end of the source is reported once.  At most one diagnostic is raised on the end token, and
it is the last one.  No block is reported as open by any other.  At most one other blames the end
token, for it missed another token than a closing brace ahead, and behind it there is at most the
report of a block that is open. -/
theorem parse_ending {source : String} {file? : Option String}
    (h : source.utf8ByteSize < UInt32.size) :
    let start := (Parser.ofScanner (.ofSource source file?)).reset
    let stop := Token.endOf (file?.getD unnamedFile) source.utf8ByteSize
    ∃ (front : List Diagnostic) (ahead? last? : Option Diagnostic),
      (parse source file?).2.diagnostics.toList = front ++ ahead?.toList ++ last?.toList ∧
        start.Ending stop front ahead? last? := by
  intro start stop
  obtain ⟨ms, last?, final, hcourse⟩ := Parser.exists_course source file?
  let ds := (Parser.topLevel #[] start).2.diagnostics.toList
  have hpair : ds.Pairwise start.Before := hcourse.pairwise rfl
  have hfailed : ∀ d ∈ ds, ∃ q, start.Failed d q ∧
      (q.current.kind = .eof → q.current = stop) := by
    intro d hd
    obtain ⟨q, hq, hreaches⟩ := hcourse.failed rfl d hd
    exact ⟨q, hq, eq_endOf_of_mem (hreaches.mem_tokenize 0)⟩
  have hfinal : final.current = stop :=
    eq_endOf_of_mem (hcourse.walk.passes.reaches.mem_tokenize 0) hcourse.eof
  by_cases hall : ∀ d ∈ Move.failures ms, d.position.offset < stop.span.start.offset
  · -- Nothing blames the end token before the parse stands on it.
    have hds : ds = Move.failures ms ++ (none : Option Diagnostic).toList ++ last?.toList := by
      rw [Option.toList_none, List.append_nil]
      exact hcourse.eq_failures rfl
    refine ⟨_, none, last?, hds, .of_failed rfl (hds ▸ hfailed) hall ?_ ?_ ?_⟩
    · exact fun d hd => absurd hd (Option.not_mem_none d)
    · exact fun d hd => (hcourse.last d hd).1.on_stop hfinal rfl
    · exact fun d hd => absurd hd (Option.not_mem_none d)
  · -- A statement failed just before the end token, and what is recorded behind it is known.
    obtain ⟨d, hd⟩ := Classical.not_forall.1 hall
    obtain ⟨hd, hnot⟩ := Classical.not_forall.1 hd
    obtain ⟨q, hq, hreaches, hk, -⟩ := hcourse.walk.failed d hd
    obtain ⟨⟨hbefore, kind, hkind, rfl⟩, hends⟩ :=
      (hq.blames_or rfl h hreaches hk).resolve_left hnot
    have hds : ds = q.diagnostics.toList ++ [.unexpected kind stop] ∨
        ds = q.diagnostics.toList ++ [.unexpected kind stop, .unexpected .closeCurly stop] := by
      refine hends.imp (fun hends => ?_) fun hends => ?_
      · show (Parser.topLevel #[] start).2.diagnostics.toList = _
        rw [hends, Array.toList_push]
      · show (Parser.topLevel #[] start).2.diagnostics.toList = _
        rw [hends, Array.toList_push, Array.toList_push, List.append_assoc]
        rfl
    obtain ⟨last?, hlast, hending⟩ :=
      Parser.Ending.of_missed rfl h rfl hpair hfailed hkind hbefore hds
    exact ⟨_, some _, last?, hlast, hending⟩

theorem parse_ending_nested :
    "f((fn()\x7b if (a) \x7b let".utf8ByteSize < UInt32.size ∧
      ∃ (front : List Diagnostic) (ahead? last? : Option Diagnostic),
        [.unexpected .identifier (.endOf "shell" 21), .unexpected .closeCurly (.endOf "shell" 21)] =
            front ++ ahead?.toList ++ last?.toList ∧
          (Parser.ofScanner (.ofSource "f((fn()\x7b if (a) \x7b let" none)).reset.Ending
            (.endOf "shell" 21) front ahead? last? := by
  have h : "f((fn()\x7b if (a) \x7b let".utf8ByteSize < UInt32.size := by decide
  have hds : (parse "f((fn()\x7b if (a) \x7b let" none).2.diagnostics.toList =
      [.unexpected .identifier (.endOf "shell" 21),
        .unexpected .closeCurly (.endOf "shell" 21)] := by
    decide +kernel
  refine ⟨h, ?_⟩
  rw [← hds]
  exact parse_ending h

end ExprLang
