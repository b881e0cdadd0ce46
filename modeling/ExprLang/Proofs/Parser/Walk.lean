import ExprLang.Proofs.Parser.Calls
import ExprLang.Proofs.Parser.Stream

/-!
# Walks

A parse goes over the tokens of its source one by one.  It either passes a token, which
then is of a kind that it knows, or it recovers there from the failure of a statement, which
it records.  A `Move` is one of these steps, and `start.Walk p ms q` says that the moves `ms`
lead from `p` to `q` in a parse that began on `start`.

Every failure is raised where a rule cannot go on (`Raises`), by a statement that was
called (`Failed`).  The token that such a parser stands on is not left by anything but the
recovery, and so no token is lost without a word.

Two things are counted along a walk.  Every statement that is kept and every failure has a
token of its own.  And the moves over braces say how many blocks are open: `Move.height` is
as high where a failure is raised as the failure tells (`Cause.height`), provided that
recovering never takes a closing brace for the start of an expression (`Move.swallows`).
-/

namespace ExprLang

open Parse

/-! ## Kinds -/

namespace TokenKind

/-- Is it a kind other than those of the end token and of illegal tokens? -/
def Known (k : TokenKind) : Prop := k ≠ .eof ∧ k ≠ .illegal

instance (k : TokenKind) : Decidable k.Known := inferInstanceAs (Decidable (_ ∧ _))

/-- How many more blocks are open behind a token than before it, if it is a brace of one. -/
def rise : TokenKind → Int
  | openCurly => 1
  | closeCurly => -1
  | _ => 0

/-- How many blocks are open, at the least, where a parse has come to a token. -/
def height (k : TokenKind) : Int := if k = closeCurly then 1 else 0

theorem height_of_ne {k : TokenKind} (h : k ≠ .closeCurly) : k.height = 0 := if_neg h

theorem height_nonneg (k : TokenKind) : 0 ≤ k.height := by unfold height; split <;> decide

/-- A closing brace closes a block that is open. -/
theorem height_add_rise_nonneg (k : TokenKind) : 0 ≤ k.height + k.rise := by cases k <;> decide

theorem known_of_prefixRule {k : TokenKind} {rule : PrefixRule} (h : k.prefixRule? = some rule) :
    k.Known ∧ k ≠ .closeCurly := by
  cases k <;> first | decide | cases h

theorem known_of_infixRule {k : TokenKind} {rule : InfixRule} (h : k.infixRule? = some rule) :
    k.Known ∧ k ≠ .closeCurly := by
  cases k <;> first | decide | cases h

end TokenKind

/-- Was one token expected and another one found? -/
def Cause.isUnexpected : Cause → Bool
  | unexpectedToken .. => true
  | _ => false

/-- How many blocks are open, at the least, where a parse fails on a token of the kind `k`. -/
def Cause.height (k : TokenKind) : Cause → Int
  | unexpectedToken .closeCurly _ _ => 1
  | unexpectedToken .. => k.height
  | _ => 0

namespace Parser

/-! ## Failures -/

/-- A rule cannot go on where the cursor is, and fails with a diagnostic. -/
inductive Raises (start : Parser) (c : Cursor) : Diagnostic → Prop
  /-- The token ahead is not the one that has to follow. -/
  | expected {kind : TokenKind} : c.current.kind.Known → kind ≠ .closeCurly →
      c.peek.kind ≠ kind → Raises start c (.unexpected kind c.peek)
  /-- A block is open at the end of the source. -/
  | unclosed : c.current.kind = .eof → Raises start c (.unexpected .closeCurly c.current)
  | noPrefixRule : c.current.kind.prefixRule? = none →
      Raises start c
        ⟨.noPrefixRule c.current.kind c.current.literal, c.current.span.start⟩
  | badNumber : c.current.kind = .int → Text.integer? c.current.literal = none →
      Raises start c ⟨.badNumber c.current.literal, c.current.span.start⟩
  /-- An expression is called at the limit. -/
  | tooDeep {n : Nat} {power : Power} {p : Parser} : p.cursor = c →
      start.Active n (.expression power) p → depthLimit ≤ p.depth →
      Raises start c ⟨.nestingTooDeep depthLimit, c.current.span.start⟩

/-- A statement that was called has failed with a diagnostic, and stands where that was
raised. -/
structure Failed (start : Parser) (d : Diagnostic) (q : Parser) : Prop where
  /-- The diagnostic was raised there. -/
  raises : start.Raises q.cursor d
  /-- The statement has failed with it. -/
  called : ∃ n p, start.Active n .statement p ∧ (Parse.statement .full).run p = .error d q

end Parser

/-! ## Moves -/

/-- A step over one token. -/
structure Move where
  /-- The token. -/
  token : Token
  /-- The failure that the parse recovers from with it, if it does. -/
  failure? : Option Diagnostic

namespace Move

/-- Is the token a closing brace where an expression was to start? -/
def swallows (m : Move) : Bool :=
  m.token.kind = .closeCurly && m.failure?.any fun d => !d.cause.isUnexpected

/-- How many more blocks are open behind the token. -/
def rise (m : Move) : Int := if m.swallows then 0 else m.token.kind.rise

/-- The failures of some moves. -/
def failures (ms : List Move) : List Diagnostic := ms.filterMap (·.failure?)

/-- How many more blocks are open behind some moves. -/
def height : List Move → Int
  | [] => 0
  | m :: ms => m.rise + height ms

@[simp] theorem failures_nil : failures [] = [] := rfl

@[simp] theorem failures_pass (t : Token) (ms : List Move) :
    failures (⟨t, none⟩ :: ms) = failures ms := rfl

@[simp] theorem failures_recover (t : Token) (d : Diagnostic) (ms : List Move) :
    failures (⟨t, some d⟩ :: ms) = d :: failures ms := rfl

@[simp] theorem height_nil : height [] = 0 := rfl

@[simp] theorem height_cons (m : Move) (ms : List Move) :
    height (m :: ms) = m.rise + height ms := rfl

@[simp] theorem rise_pass (t : Token) : rise ⟨t, none⟩ = t.kind.rise := by simp [rise, swallows]

@[simp] theorem failures_append (ms ns : List Move) :
    failures (ms ++ ns) = failures ms ++ failures ns :=
  List.filterMap_append

@[simp] theorem height_append (ms ns : List Move) :
    height (ms ++ ns) = height ms + height ns := by
  induction ms with
  | nil => exact (Int.zero_add _).symm
  | cons m ms ih => rw [List.cons_append, height_cons, height_cons, ih, Int.add_assoc]

/-- A failure leaves no more blocks open than it tells. -/
theorem height_add_rise_nonneg (t : Token) (d : Diagnostic) :
    0 ≤ d.cause.height t.kind + rise ⟨t, some d⟩ := by
  obtain ⟨cause, position⟩ := d
  have hk := t.kind.height_add_rise_nonneg
  cases cause with
  | unexpectedToken expected found literal =>
    have hs : swallows ⟨t, some ⟨.unexpectedToken expected found literal, position⟩⟩ = false := by
      simp [swallows, Cause.isUnexpected]
    have h1 : t.kind.height ≤ 1 := by unfold TokenKind.height; split <;> decide
    have hheight :
        t.kind.height ≤ Cause.height t.kind (.unexpectedToken expected found literal) := by
      cases expected <;> first | exact h1 | exact Int.le_refl _
    rw [rise, hs, if_neg Bool.false_ne_true]
    exact Int.le_trans hk (Int.add_le_add_right hheight _)
  | _ =>
    by_cases hc : t.kind = .closeCurly
    · simp [rise, swallows, hc, Cause.isUnexpected, Cause.height]
    · rw [t.kind.height_of_ne hc] at hk
      simpa [rise, swallows, hc, Cause.height] using hk

end Move

/-! ## Walks -/

namespace Parser

/-- Moves lead from one parser to another in a parse that began on `start`.  Entering and
leaving expressions is no move. -/
inductive Walk (start : Parser) : Parser → List Move → Parser → Prop
  | nil (p : Parser) : Walk start p [] p
  /-- A token is passed. -/
  | pass {p q : Parser} {ms : List Move} : p.current.kind.Known → Walk start p.advance ms q →
      Walk start p (⟨p.current, none⟩ :: ms) q
  /-- A failure is recorded, and the parse goes on behind the next token. -/
  | recover {p q : Parser} {d : Diagnostic} {ms : List Move} : p.current.kind ≠ .eof →
      start.Failed d p → Walk start (p.record d).advance ms q →
      Walk start p (⟨p.current, some d⟩ :: ms) q
  | enter {p q : Parser} {ms : List Move} : Walk start p.enter ms q → Walk start p ms q
  | leave {p q : Parser} {ms : List Move} : Walk start p.leave ms q → Walk start p ms q

variable {start p q r : Parser} {ms ns : List Move}

theorem Walk.trans (h : start.Walk p ms q) (k : start.Walk q ns r) : start.Walk p (ms ++ ns) r := by
  induction h with
  | nil p => exact k
  | pass hp _ ih => exact .pass hp (ih k)
  | recover hp hd _ ih => exact .recover hp hd (ih k)
  | enter _ ih => exact .enter (ih k)
  | leave _ ih => exact .leave (ih k)

/-- The tokens of the moves are passed one by one. -/
theorem Walk.passes (h : start.Walk p ms q) : p.cursor.Passes (ms.map (·.token)) q.cursor := by
  induction h with
  | nil p => exact .nil _
  | pass _ _ ih => exact .cons ih
  | recover _ _ _ ih => exact .cons ih
  | enter _ ih => exact ih
  | leave _ ih => exact ih

/-- At each move the parse stands on its token, which is not the end token.  It knows the kind
of it, or a statement has failed there. -/
theorem Walk.forall_mem (h : start.Walk p ms q) : ∀ m ∈ ms, ∃ r : Parser,
    r.current = m.token ∧ r.current.kind ≠ .eof ∧ p.cursor.Reaches r.cursor ∧
      r.cursor.advance.Reaches q.cursor ∧
        match m.failure? with
        | none => m.token.kind.Known
        | some d => start.Failed d r := by
  induction h with
  | nil p => exact List.forall_mem_nil _
  | @pass p q ms hp hms ih =>
    refine List.forall_mem_cons.2 ⟨⟨p, rfl, hp.1, .refl _, hms.passes.reaches, hp⟩, ?_⟩
    intro m hm
    obtain ⟨r, hr, hk, hreaches, hrest⟩ := ih m hm
    exact ⟨r, hr, hk, .step hreaches, hrest⟩
  | @recover p q d ms hk hd hms ih =>
    refine List.forall_mem_cons.2 ⟨⟨p, rfl, hk, .refl _, hms.passes.reaches, hd⟩, ?_⟩
    intro m hm
    obtain ⟨r, hr, hk, hreaches, hrest⟩ := ih m hm
    exact ⟨r, hr, hk, .step hreaches, hrest⟩
  | enter _ ih => exact ih
  | leave _ ih => exact ih

/-- The end token is not among the tokens of the moves. -/
theorem Walk.ne_eof (h : start.Walk p ms q) : ∀ t ∈ ms.map (·.token), t.kind ≠ .eof := by
  refine List.forall_mem_map.2 fun m hm => ?_
  obtain ⟨r, hr, hk, -⟩ := h.forall_mem m hm
  rwa [hr] at hk

/-- The failures of the moves are what is recorded. -/
theorem Walk.diagnostics_eq (h : start.Walk p ms q) :
    q.diagnostics.toList = p.diagnostics.toList ++ Move.failures ms := by
  induction h with
  | nil p => exact (List.append_nil _).symm
  | pass _ _ ih => exact ih
  | @recover p q d ms _ _ _ ih =>
    have hrecord : (p.record d).advance.diagnostics.toList = p.diagnostics.toList ++ [d] :=
      Array.toList_push
    rw [ih, hrecord, List.append_assoc]
    rfl
  | enter _ ih => exact ih
  | leave _ ih => exact ih

/-! ## What is counted along a walk -/

variable {m n : Nat} {h k : Int}

/-- From `p` to `q` the parse has read nodes with `n` statements inside, of which each, like
each failure, has a token before the last of its own, and `h` more blocks are open. -/
def Way (start p : Parser) (n : Nat) (h : Int) (q : Parser) : Prop :=
  ∃ ms, start.Walk p ms q ∧ n + (Move.failures ms).length ≤ ms.length - 1 ∧ h ≤ Move.height ms

theorem Way.refl (start p : Parser) : start.Way p 0 0 p :=
  ⟨[], .nil p, Nat.le_refl _, Int.le_refl _⟩

theorem Way.trans (hp : start.Way p m h q) (hq : start.Way q n k r) :
    start.Way p (m + n) (h + k) r := by
  obtain ⟨ms, hms, hm, hh⟩ := hp
  obtain ⟨ns, hns, hn, hk⟩ := hq
  refine ⟨ms ++ ns, hms.trans hns, ?_, ?_⟩
  · simp only [Move.failures_append, List.length_append]
    omega
  · rw [Move.height_append]
    exact Int.add_le_add hh hk

theorem Way.mono (hp : start.Way p m h q) (hn : n ≤ m) (hk : k ≤ h) : start.Way p n k q := by
  obtain ⟨ms, hms, hm, hh⟩ := hp
  exact ⟨ms, hms, Nat.le_trans (Nat.add_le_add_right hn _) hm, Int.le_trans hk hh⟩

theorem Way.pass (hp : p.current.kind.Known) : start.Way p 0 p.current.kind.rise p.advance := by
  refine ⟨[⟨p.current, none⟩], .pass hp (.nil _), Nat.le_refl _, ?_⟩
  simp

theorem Way.enter (hp : start.Way p.enter n h q) : start.Way p n h q := by
  obtain ⟨ms, hms, hn⟩ := hp
  exact ⟨ms, .enter hms, hn⟩

theorem Way.leave (hp : start.Way p n h q) : start.Way p n h q.leave := by
  obtain ⟨ms, hms, hn⟩ := hp
  have hleave := hms.trans (.leave (.nil q.leave))
  rw [List.append_nil] at hleave
  exact ⟨ms, hleave, hn⟩

/-- From `p` to `q` a loop has kept statements, `n` with those inside, of which each, like each
failure, has a token of its own, and `h` more blocks are open. -/
def Laps (start p : Parser) (n : Nat) (h : Int) (q : Parser) : Prop :=
  ∃ ms, start.Walk p ms q ∧ n + (Move.failures ms).length ≤ ms.length ∧ h ≤ Move.height ms

theorem Laps.refl (start p : Parser) : start.Laps p 0 0 p :=
  ⟨[], .nil p, Nat.le_refl _, Int.le_refl _⟩

/-- The token in front of a loop leaves room for what comes behind. -/
theorem Laps.way (hq : start.Laps p.advance n h q) (hp : p.current.kind.Known) :
    start.Way p n (p.current.kind.rise + h) q := by
  obtain ⟨ms, hms, hn, hh⟩ := hq
  exact ⟨⟨p.current, none⟩ :: ms, .pass hp hms, hn, by simpa using hh⟩

/-! ## What a parse does -/

/-- From `p` a parse has come to `q` and stands on the last token of what it has read, which
has `n` statements inside. -/
structure Stands (start p : Parser) (n : Nat) (q : Parser) : Prop where
  /-- The token is of a kind that is known. -/
  known : q.current.kind.Known
  /-- The parse has gone there. -/
  way : start.Way p n q.current.kind.height q

/-- From `p` a parse has come to `q` and fails there. -/
structure Fails (start p : Parser) (d : Diagnostic) (q : Parser) : Prop where
  /-- The diagnostic was raised there. -/
  raises : start.Raises q.cursor d
  /-- The parse has gone there. -/
  way : start.Way p 0 (d.cause.height q.current.kind) q

/-- A parse that began on `p` stands on the last token of what it gives, in which `inner`
counts the statements, or fails. -/
def Walked {α : Type} (start p : Parser) (inner : α → Nat) : Parsed α → Prop
  | .ok a q => start.Stands p (inner a) q
  | .error d q => start.Fails p d q

theorem Stands.behind (hq : start.Stands q n r) (hp : start.Way p m 0 q) :
    start.Stands p (m + n) r :=
  ⟨hq.known, (hp.trans hq.way).mono (Nat.le_refl _) (Int.le_of_eq (Int.zero_add _).symm)⟩

theorem Fails.behind {d : Diagnostic} (hq : start.Fails q d r) (hp : start.Way p m 0 q) :
    start.Fails p d r :=
  ⟨hq.raises, (hp.trans hq.way).mono (Nat.zero_le _) (Int.le_of_eq (Int.zero_add _).symm)⟩

/-- Where an expression or what follows in it starts. -/
theorem Stands.here (hp : p.current.kind.Known ∧ p.current.kind ≠ .closeCurly) :
    start.Stands p 0 p :=
  ⟨hp.1, (Way.refl start p).mono (Nat.le_refl 0) (Int.le_of_eq (TokenKind.height_of_ne hp.2))⟩

theorem Stands.advance (hp : start.Stands p n q) : start.Way p n 0 q.advance :=
  (hp.way.trans (.pass hp.known)).mono (Nat.le_refl n) (TokenKind.height_add_rise_nonneg _)

/-- A block starts on the brace that was read last. -/
theorem Stands.block (hp : start.Stands p n q) : start.Way p n 0 q :=
  hp.way.mono (Nat.le_refl n) (TokenKind.height_nonneg _)

/-- The token ahead is the next one that is read. -/
theorem Stands.ahead (hp : start.Stands p n q)
    (hq : q.peek.kind.Known ∧ q.peek.kind ≠ .closeCurly) : start.Stands p n q.advance :=
  ⟨hq.1, hp.advance.mono (Nat.le_refl n) (Int.le_of_eq (TokenKind.height_of_ne hq.2))⟩

/-- The token ahead is not the one that has to follow. -/
theorem Stands.unexpected {kind : TokenKind} (hp : start.Stands p n q)
    (hkind : kind ≠ .closeCurly) (hq : q.peek.kind ≠ kind) :
    start.Fails p (.unexpected kind q.peek) q := by
  refine ⟨.expected hp.known hkind hq, hp.way.mono (Nat.zero_le n) ?_⟩
  show Cause.height _ (.unexpectedToken kind _ _) ≤ _
  cases kind <;> first | exact absurd rfl hkind | exact Int.le_refl _

/-! ### Round by round -/

/-- A statement is kept, and the token it ends on is its own. -/
theorem Laps.keep (hp : start.Laps p m 0 q) (hq : start.Stands q n r) :
    start.Laps p (m + (n + 1)) 0 r.advance := by
  obtain ⟨ms, hms, hm, hh⟩ := hp
  obtain ⟨ns, hns, hn, hk⟩ := hq.way
  have hrise := r.current.kind.height_add_rise_nonneg
  refine ⟨_, hms.trans (hns.trans (.pass hq.known (.nil _))), ?_, ?_⟩
  · simp only [Move.failures_append, Move.failures_pass, Move.failures_nil, List.length_append,
      List.length_cons, List.length_nil]
    omega
  · simp only [Move.height_append, Move.height_cons, Move.height_nil, Move.rise_pass]
    omega

/-- A statement fails and is recorded, and the token it fails on is its own. -/
theorem Laps.drop {d : Diagnostic} (hp : start.Laps p m 0 q) (hq : start.Fails q d r)
    (hr : r.current.kind ≠ .eof) (hd : start.Failed d r) :
    start.Laps p m 0 (r.record d).advance := by
  obtain ⟨ms, hms, hm, hh⟩ := hp
  obtain ⟨ns, hns, hn, hk⟩ := hq.way
  have hrise := Move.height_add_rise_nonneg r.current d
  refine ⟨_, hms.trans (hns.trans (.recover hr hd (.nil _))), ?_, ?_⟩
  · simp only [Move.failures_append, Move.failures_recover, Move.failures_nil, List.length_append,
      List.length_cons, List.length_nil]
    omega
  · simp only [Move.height_append, Move.height_cons, Move.height_nil]
    omega

/-- The failure of a statement at the end of the source ends the loop.  It has a token of its
own as well, for the statement began on one. -/
theorem Laps.fail {d : Diagnostic} (hp : start.Laps p m 0 q) (hq : start.Fails q d r)
    (hstart : q.current.kind ≠ .eof) (hend : r.current.kind = .eof) :
    start.Laps p (m + 1) (d.cause.height r.current.kind) r := by
  obtain ⟨ms, hms, hm, hh⟩ := hp
  obtain ⟨ns, hns, hn, hk⟩ := hq.way
  have hne : ns ≠ [] := by
    rintro rfl
    have hcursor : q.cursor = r.cursor := hns.passes.eq_of_nil
    rw [current, hcursor] at hstart
    exact hstart hend
  have hpos := List.length_pos_iff.2 hne
  refine ⟨_, hms.trans hns, ?_, ?_⟩
  · simp only [Move.failures_append, List.length_append]
    omega
  · rw [Move.height_append]
    omega

end Parser

end ExprLang
