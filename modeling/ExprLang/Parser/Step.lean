import ExprLang.Parser.Basic
import ExprLang.Tree.Basic

/-!
# Parses and their primitive steps

A `Parse` runs on a parser.  It gives a value or fails with a diagnostic, and in
both cases leaves a parser behind.  A diagnostic that a `Parse` fails with is not
recorded by that.

A parse is `Steady` if the parser it starts on always leads to the one it leaves.
Every primitive step but `enter` and `leave` is steady, `nested` pairs those two,
and steady parses compose (`Steady.bind`).
-/

namespace ExprLang

/-- A parse gives a value or fails, and moves a parser. -/
abbrev Parse := EStateM Diagnostic Parser

/-- The outcome of a parse and the parser it leaves. -/
abbrev Parsed := EStateM.Result Diagnostic Parser

/-- The parser that is left. -/
def Parsed.parser {α : Type} : Parsed α → Parser
  | .ok _ p => p
  | .error _ p => p

namespace Parse

/-- Does a parse keep what every parse has to keep? -/
def Steady {α : Type} (x : Parse α) : Prop := ∀ p : Parser, p.Leads (Parsed.parser (x.run p))

theorem steady_pure {α : Type} (a : α) : Steady (pure a) := fun p => .refl p

theorem Steady.bind {α β : Type} {x : Parse α} {f : α → Parse β} (hx : Steady x)
    (hf : ∀ a, Steady (f a)) : Steady (x >>= f) := by
  intro p
  have h := hx p
  rw [EStateM.run_bind]
  split
  · next a q heq =>
    rw [heq] at h
    exact h.trans (hf a q)
  · next d q heq =>
    rw [heq] at h
    exact h

theorem Steady.ite {α : Type} {c : Prop} [Decidable c] {x y : Parse α} (hx : Steady x)
    (hy : Steady y) : Steady (if c then x else y) := by
  split
  · exact hx
  · exact hy

/-! ## Primitive steps -/

/-- The token the parser stands on. -/
def current : Parse Token := fun p => .ok p.current p

/-- The kind of the token after it. -/
def peekKind : Parse TokenKind := fun p => .ok p.peek.kind p

/-- Moves one token on and gives the token left behind. -/
def advance : Parse Token := fun p => .ok p.current p.advance

/-- Moves on to a token of the given kind and gives it.  Before a token of another
kind it stays where it is and fails. -/
def expect (kind : TokenKind) : Parse Token := fun p =>
  if p.peek.kind = kind then .ok p.peek p.advance else .error (.unexpected kind p.peek) p

/-- Moves on to a semicolon if there is one. -/
def skipSemicolon : Parse Unit := fun p =>
  .ok () (if p.peek.kind = .semicolon then p.advance else p)

/-- The site of a node with the given token that began at `start` and ends here. -/
def siteSince (start : Position) (token : Token) : Parse Site := fun p =>
  .ok ⟨token, p.spanFrom start⟩ p

/-- The site of a node that began with the given token and ends here. -/
def siteFrom (token : Token) : Parse Site := siteSince token.span.start token

/-- Fails at the token the parser stands on. -/
def failHere {α : Type} (cause : Cause) : Parse α := fun p => .error ⟨cause, p.position⟩ p

/-- Goes inside one more expression, if the limit allows. -/
def enter : Parse Unit := fun p =>
  if p.depth < Parser.depthLimit then .ok () p.enter
  else .error ⟨.nestingTooDeep Parser.depthLimit, p.position⟩ p

/-- Leaves the innermost expression. -/
def leave : Parse Unit := fun p => .ok () p.leave

/-- Runs a parse inside one more expression, and leaves it whether the parse
succeeds or fails. -/
def nested {α : Type} (x : Parse α) : Parse α := fun p =>
  match enter.run p with
  | .error d q => .error d q
  | .ok _ q =>
    match x.run q with
    | .ok a r => .ok a r.leave
    | .error d r => .error d r.leave

/-! ## What a primitive step does -/

@[simp] theorem run_current (p : Parser) : current.run p = .ok p.current p := rfl

@[simp] theorem run_peekKind (p : Parser) : peekKind.run p = .ok p.peek.kind p := rfl

@[simp] theorem run_advance (p : Parser) : advance.run p = .ok p.current p.advance := rfl

theorem run_expect (kind : TokenKind) (p : Parser) :
    (expect kind).run p =
      if p.peek.kind = kind then .ok p.peek p.advance else .error (.unexpected kind p.peek) p := rfl

@[simp] theorem run_skipSemicolon (p : Parser) :
    skipSemicolon.run p = .ok () (if p.peek.kind = .semicolon then p.advance else p) := rfl

@[simp] theorem run_siteSince (start : Position) (token : Token) (p : Parser) :
    (siteSince start token).run p = .ok ⟨token, p.spanFrom start⟩ p := rfl

@[simp] theorem run_siteFrom (token : Token) (p : Parser) :
    (siteFrom token).run p = .ok ⟨token, p.spanFrom token.span.start⟩ p := rfl

@[simp] theorem run_failHere {α : Type} (cause : Cause) (p : Parser) :
    (failHere cause : Parse α).run p = .error ⟨cause, p.position⟩ p := rfl

theorem run_enter (p : Parser) :
    enter.run p =
      if p.depth < Parser.depthLimit then .ok () p.enter
      else .error ⟨.nestingTooDeep Parser.depthLimit, p.position⟩ p := rfl

@[simp] theorem run_leave (p : Parser) : leave.run p = .ok () p.leave := rfl

/-- Below the limit a nested parse runs one deeper. -/
theorem run_nested {α : Type} {x : Parse α} {p : Parser} (h : p.depth < Parser.depthLimit) :
    (nested x).run p =
      match x.run p.enter with
      | .ok a r => .ok a r.leave
      | .error d r => .error d r.leave := by
  show (match enter.run p with
    | .error d q => _
    | .ok _ q => _) = _
  rw [run_enter, if_pos h]

/-- At the limit a nested parse fails where it starts. -/
theorem run_nested_of_le {α : Type} {x : Parse α} {p : Parser} (h : Parser.depthLimit ≤ p.depth) :
    (nested x).run p = .error ⟨.nestingTooDeep Parser.depthLimit, p.position⟩ p := by
  show (match enter.run p with
    | .error d q => _
    | .ok _ q => _) = _
  rw [run_enter, if_neg (Nat.not_lt.2 h)]

/-! ## Steady steps -/

theorem steady_current : Steady current := fun p => .refl p

theorem steady_peekKind : Steady peekKind := fun p => .refl p

theorem steady_advance : Steady advance := fun p => p.leads_advance

theorem steady_expect (kind : TokenKind) : Steady (expect kind) := by
  intro p
  rw [run_expect]
  split
  · exact p.leads_advance
  · exact .refl p

theorem steady_skipSemicolon : Steady skipSemicolon := by
  intro p
  rw [run_skipSemicolon]
  split
  · exact p.leads_advance
  · exact .refl p

theorem steady_siteSince (start : Position) (token : Token) : Steady (siteSince start token) :=
  fun p => .refl p

theorem steady_siteFrom (token : Token) : Steady (siteFrom token) := fun p => .refl p

theorem steady_failHere {α : Type} (cause : Cause) : Steady (failHere cause : Parse α) :=
  fun p => .refl p

theorem steady_nested {α : Type} {x : Parse α} (hx : Steady x) : Steady (nested x) := by
  intro p
  by_cases hp : p.depth < Parser.depthLimit
  · have h := hx p.enter
    rw [run_nested hp]
    split
    · next a r heq =>
      rw [heq] at h
      exact h.leave
    · next d r heq =>
      rw [heq] at h
      exact h.leave
  · rw [run_nested_of_le (Nat.not_lt.1 hp)]
    exact .refl p

/-- A token that is expected and found is the one ahead. -/
theorem expect_eq_ok {kind : TokenKind} {p q : Parser} {t : Token}
    (h : (expect kind).run p = .ok t q) : p.peek.kind = kind ∧ t = p.peek ∧ q = p.advance := by
  rw [run_expect] at h
  split at h
  · next hk =>
    injection h with ht hq
    exact ⟨hk, ht.symm, hq.symm⟩
  · cases h

end Parse

end ExprLang
