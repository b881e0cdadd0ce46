import ExprLang.Grammar.Rule
import ExprLang.Parser.Step
import ExprLang.Proofs.Tree.Move

/-!
# Comparing two parses

Two runs of one parse are compared step by step.  A `Likeness` says what the two have to
agree in: which tokens correspond, which cursors, and how each side sees the positions in a
tree.  It has to last while both cursors advance over a token that a statement goes on
behind (`Likeness.advance`).  Over a semicolon it may end, and then the first cursor is at
the end of its source (`Likeness.pass`).

`L.InStep K V K' x y` says of two parses that, from parsers that correspond and stand on a
token of a kind in `K`, they do the same.  Both give values that are related by `V` and end
on a token of a kind in `K'`, or both fail for one cause and blame tokens that correspond
(`Likeness.Blames`).  Or the first one has come to the end of its source, and has failed
there.

A parse may be compared with itself, and then a likeness is an invariant of the way that
the cursor takes.
-/

namespace ExprLang

open Parse

/-! ## Kinds of token a parse stands on -/

namespace TokenKind

/-- Does a statement go on behind a token of this kind, wherever in it the token stands? -/
def Inner (k : TokenKind) : Prop := k ≠ .eof ∧ k ≠ .semicolon

instance (k : TokenKind) : Decidable k.Inner := inferInstanceAs (Decidable (_ ∧ _))

/-- Can an expression end with a token of this kind? -/
def Ends : TokenKind → Prop
  | identifier | int | kwTrue | kwFalse | closeParen | closeCurly => True
  | _ => False

/-- Can a statement end with a token of this kind? -/
def Closes (k : TokenKind) : Prop := k.Ends ∨ k = .semicolon

theorem Ends.inner {k : TokenKind} (h : k.Ends) : k.Inner := by
  cases k <;> first | decide | cases h

theorem Closes.ne_eof {k : TokenKind} (h : k.Closes) : k ≠ .eof := by
  rcases h with h | rfl
  · exact h.inner.1
  · decide

theorem inner_of_prefixRule {k : TokenKind} {rule : PrefixRule} (h : k.prefixRule? = some rule) :
    k.Inner := by
  cases k <;> first | decide | cases h

theorem inner_of_infixRule {k : TokenKind} {rule : InfixRule} (h : k.infixRule? = some rule) :
    k.Inner := by
  cases k <;> first | decide | cases h

theorem inner_of_stmtRule {k : TokenKind} {rule : StmtRule} (h : k.stmtRule? = some rule) :
    k.Inner := by
  cases k <;> first | decide | cases h

theorem inner_or_semicolon {k : TokenKind} (h : k ≠ .eof) : k.Inner ∨ k = .semicolon := by
  by_cases hk : k = .semicolon
  · exact .inr hk
  · exact .inl ⟨h, hk⟩

end TokenKind

/-! ## Likeness -/

/-- What two parses have to agree in to be compared. -/
structure Likeness where
  /-- How the first side sees the positions in a tree. -/
  left : Position → Position
  /-- How the second side sees them. -/
  right : Position → Position
  /-- Which tokens correspond. -/
  Tokens : Token → Token → Prop
  /-- Which cursors correspond. -/
  Cursors : Cursor → Cursor → Prop
  /-- Where the first cursor has come to the end of its source and the second one has not. -/
  Edge : Cursor → Cursor → Prop
  /-- Which diagnostics are recorded on both sides. -/
  Recorded : List Diagnostic → List Diagnostic → Prop
  move_eq {t u : Token} : Tokens t u → t.move left = u.move right
  current {c d : Cursor} : Cursors c d → Tokens c.current d.current
  peek {c d : Cursor} : Cursors c d → c.current.kind.Inner → Tokens c.peek d.peek
  advance {c d : Cursor} : Cursors c d → c.current.kind.Inner → Cursors c.advance d.advance
  pass {c d : Cursor} : Cursors c d → c.current.kind = .semicolon →
    Cursors c.advance d.advance ∨ Edge c.advance d.advance
  eof_of_edge {c d : Cursor} : Edge c d → c.current.kind = .eof
  record {ds es : List Diagnostic} {t u : Token} (cause : Cause) : Recorded ds es → Tokens t u →
    Recorded (ds ++ [⟨cause, t.span.start⟩]) (es ++ [⟨cause, u.span.start⟩])

namespace Likeness

/-- Equal tokens are seen the same where they stand. -/
theorem move_id_eq {t u : Token} (h : t = u) : t.move id = u.move id := congrArg _ h

/-- The edge of a likeness in which no source ends before the other. -/
def NoEdge (_ _ : Cursor) : Prop := False

theorem NoEdge.eof {c d : Cursor} (h : NoEdge c d) : c.current.kind = .eof := h.elim

variable {L : Likeness} {α β : Type}

/-! ## Tokens that correspond -/

variable {t u : Token}

theorem kind_eq (h : L.Tokens t u) : t.kind = u.kind := by
  show (t.move L.left).kind = (u.move L.right).kind
  rw [L.move_eq h]

theorem literal_eq (h : L.Tokens t u) : t.literal = u.literal := by
  show (t.move L.left).literal = (u.move L.right).literal
  rw [L.move_eq h]

theorem start_eq (h : L.Tokens t u) : L.left t.span.start = L.right u.span.start :=
  congrArg (·.span.start) (L.move_eq h)

theorem stop_eq (h : L.Tokens t u) : L.left t.span.stop = L.right u.span.stop :=
  congrArg (·.span.stop) (L.move_eq h)

/-- Do both sides see the same, where `move` tells how a side sees it? -/
def Same (L : Likeness) (move : (Position → Position) → α → α) (a b : α) : Prop :=
  move L.left a = move L.right b

theorem same_ofToken (h : L.Tokens t u) : L.Same Identifier.move (.ofToken t) (.ofToken u) := by
  show (⟨⟨t.move L.left, (t.move L.left).span⟩, t.literal⟩ : Identifier) =
    ⟨⟨u.move L.right, (u.move L.right).span⟩, u.literal⟩
  rw [L.move_eq h, literal_eq h]

/-- A token is seen the same as the site of a node that is no more than the token. -/
theorem same_site (h : L.Tokens t u) : L.Same Site.move ⟨t, t.span⟩ ⟨u, u.span⟩ := by
  show (⟨t.move L.left, (t.move L.left).span⟩ : Site) = ⟨u.move L.right, (u.move L.right).span⟩
  rw [L.move_eq h]

/-! ## Parsers that correspond -/

/-- Do two parsers agree in all that is compared? -/
structure Parsers (L : Likeness) (p q : Parser) : Prop where
  /-- Their cursors correspond. -/
  cursors : L.Cursors p.cursor q.cursor
  /-- They are inside of as many expressions. -/
  depth_eq : p.depth = q.depth
  /-- What they have recorded corresponds. -/
  recorded : L.Recorded p.diagnostics.toList q.diagnostics.toList

/-- Do two diagnostics give one cause and blame tokens that correspond, either those that the
parsers stand on or those ahead? -/
inductive Blames (L : Likeness) (p q : Parser) : Diagnostic → Diagnostic → Prop
  | current (cause : Cause) : L.Tokens p.current q.current →
      Blames L p q ⟨cause, p.position⟩ ⟨cause, q.position⟩
  | peek (cause : Cause) : L.Tokens p.peek q.peek →
      Blames L p q ⟨cause, p.peek.span.start⟩ ⟨cause, q.peek.span.start⟩

/-- Do two outcomes correspond? -/
inductive Outcomes (L : Likeness) (V : α → β → Prop) (K : TokenKind → Prop) :
    Parsed α → Parsed β → Prop
  | ok {a : α} {b : β} {p q : Parser} : V a b → L.Parsers p q → K p.current.kind →
      Outcomes L V K (.ok a p) (.ok b q)
  | error {d e : Diagnostic} {p q : Parser} : L.Blames p q d e → L.Parsers p q →
      Outcomes L V K (.error d p) (.error e q)
  | lost {d : Diagnostic} {p : Parser} {c : Cursor} {r : Parsed β} : L.Edge p.cursor c →
      d.position = p.position → Outcomes L V K (.error d p) r

/-- What corresponds to a success is one. -/
theorem Outcomes.of_ok {V : α → β → Prop} {K : TokenKind → Prop} {r : Parsed α} {s : Parsed β}
    {a : α} {p : Parser} (h : L.Outcomes V K r s) (hr : r = .ok a p) :
    ∃ b q, s = .ok b q ∧ V a b ∧ L.Parsers p q ∧ K p.current.kind := by
  subst hr
  cases h with
  | ok hv hp hk => exact ⟨_, _, rfl, hv, hp, hk⟩

/-- What corresponds to a failure is one, unless the first source is at its end. -/
theorem Outcomes.of_error {V : α → β → Prop} {K : TokenKind → Prop} {r : Parsed α} {s : Parsed β}
    {d : Diagnostic} {p : Parser} (h : L.Outcomes V K r s) (hr : r = .error d p) :
    (∃ e q, s = .error e q ∧ L.Blames p q d e ∧ L.Parsers p q) ∨
      ∃ c, L.Edge p.cursor c ∧ d.position = p.position := by
  subst hr
  cases h with
  | error hd hp => exact .inl ⟨_, _, rfl, hd, hp⟩
  | lost hedge hd => exact .inr ⟨_, hedge, hd⟩

/-- Do two parses do the same, from parsers that correspond and stand on a token of a kind in
`K`? -/
def InStep (L : Likeness) (K : TokenKind → Prop) (V : α → β → Prop) (K' : TokenKind → Prop)
    (x : Parse α) (y : Parse β) : Prop :=
  ∀ ⦃p q : Parser⦄, L.Parsers p q → K p.current.kind → L.Outcomes V K' (x.run p) (y.run q)

variable {p q : Parser} {K K' K₁ : TokenKind → Prop} {V : α → β → Prop}

theorem Parsers.current (h : L.Parsers p q) : L.Tokens p.current q.current := L.current h.cursors

theorem Parsers.peek (h : L.Parsers p q) (hk : p.current.kind.Inner) : L.Tokens p.peek q.peek :=
  L.peek h.cursors hk

theorem Parsers.advance (h : L.Parsers p q) (hk : p.current.kind.Inner) :
    L.Parsers p.advance q.advance := ⟨L.advance h.cursors hk, h.depth_eq, h.recorded⟩

theorem Parsers.enter (h : L.Parsers p q) : L.Parsers p.enter q.enter :=
  ⟨h.cursors, congrArg (· + 1) h.depth_eq, h.recorded⟩

theorem Parsers.leave (h : L.Parsers p q) : L.Parsers p.leave q.leave :=
  ⟨h.cursors, congrArg (· - 1) h.depth_eq, h.recorded⟩

/-- Diagnostics that correspond are recorded on both sides. -/
theorem Parsers.record (h : L.Parsers p q) {d e : Diagnostic} (hd : L.Blames p q d e) :
    L.Parsers (p.record d) (q.record e) := by
  refine ⟨h.cursors, h.depth_eq, ?_⟩
  rw [Parser.record, Parser.record, Array.toList_push, Array.toList_push]
  cases hd with
  | current cause ht => exact L.record cause h.recorded ht
  | peek cause ht => exact L.record cause h.recorded ht

/-- Behind any token but the end token both sides go on, unless the first one is at its end. -/
theorem Parsers.pass (h : L.Parsers p q) (hk : p.current.kind ≠ .eof) :
    L.Parsers p.advance q.advance ∨ L.Edge p.advance.cursor q.advance.cursor := by
  rcases TokenKind.inner_or_semicolon hk with hk | hk
  · exact .inl (h.advance hk)
  · exact (L.pass h.cursors hk).imp_left fun hc => ⟨hc, h.depth_eq, h.recorded⟩

/-! ## Parses one after the other -/

theorem Outcomes.mono {r : Parsed α} {s : Parsed β} (h : L.Outcomes V K r s)
    (hK : ∀ k, K k → K' k) : L.Outcomes V K' r s := by
  cases h with
  | ok hv hp hk => exact .ok hv hp (hK _ hk)
  | error hd hp => exact .error hd hp
  | lost he hd => exact .lost he hd

theorem InStep.weaken {x : Parse α} {y : Parse β} (h : L.InStep K V K' x y)
    (hK : ∀ k, K₁ k → K k) : L.InStep K₁ V K' x y := fun _ _ hp hk => h hp (hK _ hk)

theorem InStep.strengthen {x : Parse α} {y : Parse β} (h : L.InStep K V K₁ x y)
    (hK : ∀ k, K₁ k → K' k) : L.InStep K V K' x y := fun _ _ hp hk => (h hp hk).mono hK

theorem InStep.pure {a : α} {b : β} (h : V a b) : L.InStep K V K (pure a) (pure b) :=
  fun _ _ hp hk => .ok h hp hk

theorem InStep.bind {α' β' : Type} {W : α' → β' → Prop} {x : Parse α} {y : Parse β}
    {f : α → Parse α'} {g : β → Parse β'} (hx : L.InStep K V K₁ x y)
    (hf : ∀ a b, V a b → L.InStep K₁ W K' (f a) (g b)) :
    L.InStep K W K' (x >>= f) (y >>= g) := by
  intro p q hp hk
  have h := hx hp hk
  rw [EStateM.run_bind, EStateM.run_bind]
  generalize x.run p = r at h
  generalize y.run q = s at h
  cases h with
  | ok hv hp hk => exact hf _ _ hv hp hk
  | error hd hp => exact .error hd hp
  | lost he hd => exact .lost he hd

/-! ## Steps -/

/-- What comes behind looking at the current token may depend on its kind. -/
theorem InStep.current {f : Token → Parse α} {g : Token → Parse β}
    (h : ∀ t u, L.Tokens t u → K t.kind → L.InStep (· = t.kind) V K' (f t) (g u)) :
    L.InStep K V K' (Parse.current >>= f) (Parse.current >>= g) :=
  fun p q hp hk => h p.current q.current hp.current hk hp rfl

theorem inStep_advance (hK : ∀ k, K k → k.Inner) :
    L.InStep K L.Tokens (fun _ => True) Parse.advance Parse.advance :=
  fun _ _ hp hk => .ok hp.current (hp.advance (hK _ hk)) trivial

theorem inStep_expect (hK : ∀ k, K k → k.Inner) (kind : TokenKind) :
    L.InStep K L.Tokens (· = kind) (expect kind) (expect kind) := by
  intro p q hp hk
  have hpeek := hp.peek (hK _ hk)
  rw [run_expect, run_expect, ← kind_eq hpeek]
  split
  · next h => exact .ok hpeek (hp.advance (hK _ hk)) h
  · rw [Diagnostic.unexpected, Diagnostic.unexpected, ← kind_eq hpeek, ← literal_eq hpeek]
    exact .error (.peek _ hpeek) hp

/-- Behind an expression there may be a semicolon. -/
theorem inStep_skipSemicolon :
    L.InStep TokenKind.Ends (fun _ _ => True) TokenKind.Closes skipSemicolon skipSemicolon := by
  intro p q hp hk
  rw [run_skipSemicolon, run_skipSemicolon, ← kind_eq (hp.peek hk.inner)]
  split
  · next h => exact .ok trivial (hp.advance hk.inner) (.inr h)
  · exact .ok trivial hp (.inl hk)

/-- A token ahead of one kind is passed, and another one is left where it is. -/
theorem InStep.ifPeek {kind : TokenKind} {x x' : Parse α} {y y' : Parse β}
    (hK : ∀ k, K k → k.Inner) (hx : L.InStep (· = kind) V K' x y) (hx' : L.InStep K V K' x' y') :
    L.InStep K V K' (peekKind >>= fun k => if k = kind then Parse.advance >>= fun _ => x else x')
      (peekKind >>= fun k => if k = kind then Parse.advance >>= fun _ => y else y') := by
  intro p q hp hk
  rw [EStateM.run_bind, EStateM.run_bind, run_peekKind, run_peekKind]
  dsimp only
  rw [← kind_eq (hp.peek (hK _ hk))]
  by_cases h : p.peek.kind = kind
  · rw [if_pos h, if_pos h]
    exact hx (hp.advance (hK _ hk)) h
  · rw [if_neg h, if_neg h]
    exact hx' hp hk

theorem inStep_siteSince {start start' : Position} (hs : L.left start = L.right start')
    (h : L.Tokens t u) :
    L.InStep K (L.Same Site.move) K (siteSince start t) (siteSince start' u) := by
  intro p q hp hk
  refine .ok ?_ hp hk
  show (⟨t.move L.left, ⟨L.left start, L.left p.current.span.stop⟩⟩ : Site) =
    ⟨u.move L.right, ⟨L.right start', L.right q.current.span.stop⟩⟩
  rw [L.move_eq h, hs, stop_eq hp.current]

theorem inStep_siteFrom (h : L.Tokens t u) :
    L.InStep K (L.Same Site.move) K (siteFrom t) (siteFrom u) := inStep_siteSince (start_eq h) h

theorem inStep_failHere (cause : Cause) : L.InStep K V K' (failHere cause) (failHere cause) :=
  fun _ _ hp _ => .error (.current cause hp.current) hp

/-- Parses that do the same one level in do the same when they are nested. -/
theorem InStep.nested {x : Parse α} {y : Parse β} (h : L.InStep K V K' x y) :
    L.InStep K V K' (Parse.nested x) (Parse.nested y) := by
  intro p q hp hk
  by_cases hl : p.depth < Parser.depthLimit
  · have h := h hp.enter hk
    rw [run_nested hl, run_nested (hp.depth_eq ▸ hl)]
    generalize x.run p.enter = r at h
    generalize y.run q.enter = s at h
    cases h with
    | ok hv hp hk => exact .ok hv hp.leave hk
    | error hd hp =>
      refine .error ?_ hp.leave
      cases hd with
      | current cause ht => exact .current cause ht
      | peek cause ht => exact .peek cause ht
    | lost he hd => exact .lost he hd
  · rw [run_nested_of_le (Nat.not_lt.1 hl), run_nested_of_le (hp.depth_eq ▸ Nat.not_lt.1 hl)]
    exact .error (.current _ hp.current) hp

end Likeness

end ExprLang
