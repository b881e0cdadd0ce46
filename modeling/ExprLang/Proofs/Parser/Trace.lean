import ExprLang.Proofs.Parser.Course

/-!
# The log of a parse

The log of a parse tells which illegal tokens were pulled and which diagnostics recorded, in
the order in which that was done (`parse_trace`).  Every illegal token is logged once, and so
is every diagnostic, and the two are put together in the one way that the lookahead gives: a
parser that stands on a token has pulled the next one as well, and nothing behind it.

What the log tells is said of the events one by one (`Events.Tell`).  It is kept by pulling a
token, and by recording a diagnostic if just the tokens have been pulled that its cause asks for.
Nothing is advanced over between raising a diagnostic and recording it, so how many these are
can be told from the token that is blamed (`Parser.Raises.exists_blames`), and so the log of a
walk is kept (`Parser.Walk.traced`).
-/

namespace ExprLang

/-! ## Events of tokens -/

/-- Does the event tell of an illegal token? -/
def Event.isIllegal : Event → Bool
  | illegalToken .. => true
  | _ => false

/-- What is logged of a token, where it starts. -/
def Token.event? (t : Token) : Option Event :=
  if t.kind = .illegal then some (.illegalToken t.literal t.start) else none

/-- What is logged of some tokens. -/
def Token.events (ts : List Token) : List Event := ts.filterMap Token.event?

/-- How many tokens have been pulled where a diagnostic with this cause is recorded that blames
the `n`th token.  Where another token is found than the one expected it is the last one pulled. -/
def Cause.pulled (cause : Cause) (n : Nat) : Nat := if cause.isUnexpected then n + 1 else n + 2

variable {source : String} {file? : Option String}

theorem Token.event?_of_eof {t : Token} (h : t.kind = .eof) : t.event? = none := by
  rw [event?, if_neg]
  rw [h]
  decide

theorem Token.eq_of_event? {t : Token} {e : Event} (h : t.event? = some e) :
    e = .illegalToken t.literal t.start := by
  unfold event? at h
  split at h
  · exact (Option.some.inj h).symm
  · cases h

theorem Token.events_append (ts us : List Token) : events (ts ++ us) = events ts ++ events us :=
  List.filterMap_append

theorem Token.events_take_add_one (ts : List Token) (n : Nat) :
    events (ts.take (n + 1)) = events (ts.take n) ++ (ts[n]?.bind event?).toList := by
  rw [List.take_add_one, events_append]
  cases ts[n]? with
  | none => rfl
  | some t => cases ht : t.event? <;> simp [events, ht]

/-- A scanner in a source that 32-bit offsets can address logs a token where it starts. -/
theorem Scanner.Splits.ofToken?_next {s : Scanner} {before after : List Char}
    (h : s.Splits source before after) (hsize : source.utf8ByteSize < UInt32.size) :
    Event.ofToken? s s.next.1 = s.next.1.event? := by
  obtain ⟨start, text, rest, hstart, -, -⟩ := h.next
  have hle : s.skipLayout.offset ≤ source.utf8ByteSize := by
    rw [hstart.offset_eq]
    exact Utf8.width_le_of_append hstart.toList_eq
  have hoffset : s.next.1.start = s.skipLayout.offset := by
    rw [Token.start, s.start_next]
    exact Position.offset_at (Nat.lt_of_le_of_lt hle hsize)
  rw [Event.ofToken?, Token.event?, hoffset]

/-- The `n`th token that is pulled from a source is logged as the `n`th one of its tokens.  Behind
them there is nothing to log. -/
theorem Scanner.ofToken?_later (file? : Option String) (hsize : source.utf8ByteSize < UInt32.size)
    (n : Nat) :
    Event.ofToken? ((ofSource source file?).later n) ((ofSource source file?).later n).next.1 =
      (tokenize source file?)[n]?.bind Token.event? := by
  obtain ⟨before, after, h⟩ := splits_later source file? n
  have hstart := Cursor.Reaches.refl (.ofScanner (ofSource source file?))
  have htoken := hstart.getElem?_tokenize n
  have heof := hstart.kind_stream_eq_eof_iff n
  rw [Cursor.stream_ofScanner] at htoken heof
  change (tokenize source file?)[min (0 + n) _]? = _ at htoken
  change _ ↔ _ ≤ 0 + n + 1 at heof
  rw [h.ofToken?_next hsize]
  rcases Nat.lt_or_ge n (tokenize source file?).length with hlt | hge
  · rw [Nat.min_eq_left (by omega), Nat.zero_add] at htoken
    rw [htoken]
    rfl
  · rw [Token.event?_of_eof (heof.2 (by omega)), List.getElem?_eq_none hge]
    rfl

/-! ## What events tell -/

/-- Events tell of the first `n` of the tokens `ts` and of the diagnostics `ds`. -/
structure Events.Tell (ts : List Token) (n : Nat) (ds : List Diagnostic) (events : List Event) :
    Prop where
  /-- Every illegal token is told of. -/
  illegal : events.filter (·.isIllegal) = Token.events (ts.take n)
  /-- So is every diagnostic. -/
  recorded : events.filter (!·.isIllegal) = ds.map .recorded
  /-- A diagnostic comes behind the tokens that have been pulled there. -/
  behind : ∀ before d, before ++ [.recorded d] <+: events → ∃ b, d.Blames ts b ∧
    before.filter (·.isIllegal) = Token.events (ts.take (d.cause.pulled b))

namespace Events.Tell

variable {ts : List Token} {n : Nat} {ds : List Diagnostic} {events : List Event}

theorem nil (ts : List Token) : Tell ts 0 [] [] :=
  ⟨rfl, rfl, fun _ _ h => absurd (List.prefix_nil.1 h) (by simp)⟩

theorem pull (h : Tell ts n ds events) :
    Tell ts (n + 1) ds (events ++ (ts[n]?.bind Token.event?).toList) := by
  have hillegal := Token.events_take_add_one ts n
  rw [← h.illegal] at hillegal
  cases he : ts[n]?.bind Token.event? with
  | none =>
    rw [he] at hillegal
    simp only [Option.toList_none, List.append_nil] at hillegal ⊢
    exact ⟨hillegal.symm, h.recorded, h.behind⟩
  | some e =>
    obtain ⟨t, -, ht⟩ := Option.bind_eq_some_iff.1 he
    obtain rfl := Token.eq_of_event? ht
    rw [he] at hillegal
    refine ⟨?_, ?_, fun before d hprefix => ?_⟩
    · rw [hillegal, List.filter_append]
      rfl
    · rw [List.filter_append, h.recorded]
      exact List.append_nil _
    · rw [Option.toList_some, List.prefix_concat_iff] at hprefix
      rcases hprefix with hlast | hprefix
      · have hevent := (List.append_inj' hlast rfl).2
        cases hevent
      · exact h.behind before d hprefix

theorem record {d : Diagnostic} {b : Nat} (h : Tell ts n ds events) (hb : d.Blames ts b)
    (hn : ts.take n = ts.take (d.cause.pulled b)) :
    Tell ts n (ds ++ [d]) (events ++ [.recorded d]) := by
  refine ⟨?_, ?_, fun before e hprefix => ?_⟩
  · rw [List.filter_append, ← h.illegal]
    exact List.append_nil _
  · rw [List.filter_append, h.recorded, List.map_append]
    rfl
  · rw [List.prefix_concat_iff] at hprefix
    rcases hprefix with hlast | hprefix
    · obtain ⟨rfl, hevent⟩ := List.append_inj' hlast rfl
      cases hevent
      exact ⟨b, hb, by rw [h.illegal, hn]⟩
    · exact h.behind before e hprefix

/-- What comes behind a diagnostic tells of the tokens that had not been pulled. -/
theorem ahead (h : Tell ts n ds events) (hn : ts.take n = ts) {before after : List Event}
    {d : Diagnostic} (he : events = before ++ .recorded d :: after) :
    ∃ b, d.Blames ts b ∧
      before.filter (·.isIllegal) = Token.events (ts.take (d.cause.pulled b)) ∧
      after.filter (·.isIllegal) = Token.events (ts.drop (d.cause.pulled b)) := by
  have hprefix : before ++ [.recorded d] <+: events := ⟨after, by rw [he]; simp⟩
  obtain ⟨b, hb, hbefore⟩ := h.behind before d hprefix
  refine ⟨b, hb, hbefore, ?_⟩
  have hall := h.illegal
  rw [hn, ← List.take_append_drop (d.cause.pulled b) ts, Token.events_append, he,
    List.filter_append, hbefore] at hall
  exact List.append_cancel_left hall

end Events.Tell

namespace Parser

variable {start p q : Parser} {c : Cursor} {d : Diagnostic} {ms : List Move}

/-! ## How far the log is -/

/-- What is raised where a cursor is blames a token of the source, by which can be told how many
tokens have been pulled. -/
theorem Raises.exists_blames (h : start.Raises c d)
    (hc : (Cursor.ofScanner (.ofSource source file?)).Reaches c)
    (hsize : source.utf8ByteSize < UInt32.size) :
    ∃ b, d.Blames (tokenize source file?) b ∧
      (tokenize source file?).take (c.index + 2) =
        (tokenize source file?).take (d.cause.pulled b) := by
  have hblames {e : Diagnostic} (k : Nat) (he : e.position = (c.stream k).span.start) :=
    Diagnostic.blames_of_getElem? hsize (hc.getElem?_tokenize k) he
  have here {e : Diagnostic} (he : e.position = c.current.span.start)
      (hcause : e.cause.isUnexpected = false) :
      ∃ b, e.Blames (tokenize source file?) b ∧
        (tokenize source file?).take (c.index + 2) =
          (tokenize source file?).take (e.cause.pulled b) := by
    refine ⟨_, hblames 0 he, List.take_eq_take_iff.2 ?_⟩
    rw [Cause.pulled, hcause, if_neg Bool.false_ne_true]
    omega
  cases h with
  | expected =>
    refine ⟨_, hblames 1 rfl, List.take_eq_take_iff.2 ?_⟩
    show _ = min (min (c.index + 1) _ + 1) _
    omega
  | unclosed he =>
    -- The source ends there, so no token has been pulled but those that it has.
    have hlength := (hc.kind_stream_eq_eof_iff 0).1 he
    refine ⟨_, hblames 0 rfl, List.take_eq_take_iff.2 ?_⟩
    show _ = min (min (c.index + 0) _ + 1) _
    omega
  | noPrefixRule => exact here rfl rfl
  | badNumber => exact here rfl rfl
  | tooDeep => exact here rfl rfl

/-- The log of a parser on a source tells of the tokens up to the one ahead and of what is
recorded. -/
structure Traced (source : String) (file? : Option String) (p : Parser) : Prop where
  /-- It stands in the source. -/
  reaches : (Cursor.ofScanner (.ofSource source file?)).Reaches p.cursor
  /-- The log tells of all that has happened. -/
  tell : Events.Tell (tokenize source file?) (p.cursor.index + 2) p.diagnostics.toList p.log.toList

theorem traced_ofSource (file? : Option String) (hsize : source.utf8ByteSize < UInt32.size) :
    Traced source file? (ofScanner (.ofSource source file?)).reset := by
  refine ⟨.refl _, ?_⟩
  have h := (Events.Tell.nil (tokenize source file?)).pull.pull
  rw [← Scanner.ofToken?_later file? hsize, ← Scanner.ofToken?_later file? hsize] at h
  show Events.Tell _ _ _ (note (note #[] _ _) _ _).toList
  rw [toList_note, toList_note]
  exact h

theorem Traced.advance (h : p.Traced source file?) (hsize : source.utf8ByteSize < UInt32.size) :
    p.advance.Traced source file? := by
  refine ⟨h.reaches.trans (.advance _), ?_⟩
  show Events.Tell _ _ _ (note _ _ _).toList
  rw [toList_note, h.reaches.scanner_eq (s := .ofSource source file?) rfl,
    Scanner.ofToken?_later file? hsize]
  exact h.tell.pull

theorem Traced.record (h : p.Traced source file?) (hd : start.Raises p.cursor d)
    (hsize : source.utf8ByteSize < UInt32.size) : (p.record d).Traced source file? := by
  obtain ⟨b, hb, hpulled⟩ := hd.exists_blames h.reaches hsize
  refine ⟨h.reaches, ?_⟩
  show Events.Tell _ _ (p.diagnostics.push d).toList (p.log.push (.recorded d)).toList
  rw [Array.toList_push, Array.toList_push]
  exact h.tell.record hb hpulled

theorem Walk.traced (h : start.Walk p ms q) (hp : p.Traced source file?)
    (hsize : source.utf8ByteSize < UInt32.size) : q.Traced source file? := by
  induction h with
  | nil p => exact hp
  | pass _ _ ih => exact ih (hp.advance hsize)
  | recover _ hd _ ih => exact ih ((hp.record hd.raises hsize).advance hsize)
  | enter _ ih => exact ih ⟨hp.reaches, hp.tell⟩
  | leave _ ih => exact ih ⟨hp.reaches, hp.tell⟩

theorem Traced.settle {last? : Option Diagnostic} (h : p.Traced source file?)
    (hlast : ∀ d ∈ last?, start.Failed d p) (hsize : source.utf8ByteSize < UInt32.size) :
    (p.settle last?).Traced source file? := by
  cases last? with
  | none => exact h
  | some d => exact (h.record (hlast d rfl).raises hsize).advance hsize

theorem index_settle (p : Parser) (last? : Option Diagnostic) :
    p.cursor.index ≤ (p.settle last?).cursor.index := by
  cases last? with
  | none => exact Nat.le_refl _
  | some d => exact Nat.le_succ _

end Parser

/-- The events of a parse are those of the illegal tokens of its source, in their order, and those
of the diagnostics that it records, in theirs, and behind them all the end of the program with
their numbers.  A diagnostic comes behind the illegal tokens up to the one that it blames, or but
for an unexpected token up to the one behind that, and before all others. -/
theorem parse_trace {source : String} {file? : Option String}
    (hsize : source.utf8ByteSize < UInt32.size) :
    ∃ events : List Event,
      (parse source file?).2.log.toList = events ++
        [.finished (parse source file?).1.body.length (parse source file?).2.diagnostics.size] ∧
      events.filter (·.isIllegal) = Token.events (tokenize source file?) ∧
      events.filter (!·.isIllegal) =
        (parse source file?).2.diagnostics.toList.map .recorded ∧
      ∀ before d after, events = before ++ .recorded d :: after →
        ∃ b, d.Blames (tokenize source file?) b ∧
          before.filter (·.isIllegal) =
            Token.events ((tokenize source file?).take (d.cause.pulled b)) ∧
          after.filter (·.isIllegal) =
            Token.events ((tokenize source file?).drop (d.cause.pulled b)) := by
  obtain ⟨ms, last?, stop, hcourse, hend⟩ := Parser.exists_course_settle source file?
  have hstop := hcourse.walk.traced (Parser.traced_ofSource file? hsize) hsize
  have htell := (hstop.settle (fun d hd => (hcourse.last d hd).1) hsize).tell
  -- The walk ends on the end token, and so all tokens have been pulled.
  have hall : (tokenize source file?).take ((stop.settle last?).cursor.index + 2) =
      tokenize source file? := by
    have hlength := (hstop.reaches.kind_stream_eq_eof_iff 0).1 hcourse.eof
    have hle := stop.index_settle last?
    exact List.take_of_length_le (by omega)
  rw [hend]
  refine ⟨(stop.settle last?).log.toList, Array.toList_push, ?_, htell.recorded,
    fun before d after he => htell.ahead hall he⟩
  rw [htell.illegal, hall]

/-- A name is missed at the first of two illegal tokens, before the second one is pulled. -/
theorem parse_trace_unexpected :
    "let é @".utf8ByteSize < UInt32.size ∧
      ∃ before d after, (parse "let é @" none).2.log.toList =
          (before ++ .recorded d :: after) ++ [.finished 0 3] ∧
        d.Blames (tokenize "let é @" none) 1 ∧ d.cause.isUnexpected ∧
        before.filter (·.isIllegal) = [.illegalToken "é" 4] ∧
        after.filter (·.isIllegal) = [.illegalToken "@" 7] := by
  have hsize : "let é @".utf8ByteSize < UInt32.size := by decide
  obtain ⟨events, hlog, -, -, hbehind⟩ := @parse_trace "let é @" none hsize
  let missed : Diagnostic := ⟨.unexpectedToken .identifier .illegal "é", .at "shell" 4⟩
  have hevents : events = [.illegalToken "é" 4] ++ .recorded missed :: events.drop 2 := by
    have hdrop : events = (parse "let é @" none).2.log.toList.dropLast := by
      rw [hlog, List.dropLast_concat]
    rw [hdrop]
    decide +kernel
  obtain ⟨b, hb, hbefore, hafter⟩ := hbehind _ _ _ hevents
  obtain rfl : 1 = b := (hb 1).1 (by decide +kernel)
  refine ⟨hsize, _, missed, _, ?_, hb, rfl, hbefore.trans ?_, hafter.trans ?_⟩
  · rw [← hevents, hlog]
    exact congrArg (events ++ [·]) (by decide +kernel)
  · decide +kernel
  · decide +kernel

end ExprLang
