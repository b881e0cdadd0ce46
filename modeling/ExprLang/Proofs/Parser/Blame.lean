import ExprLang.Proofs.Parser.Consistency
import ExprLang.Proofs.Parser.Course

/-!
# What diagnostics say

A diagnostic blames a token, and what it says of the token is true (`parse_blames`).  It says
where the token starts, of what kind it is and what its text is, and why the parse cannot go
on there (`Cause.TrueOf`).

A failure is raised from the token that the cursor stands on or from the one ahead, and
handed on as it is.  So all that has to be known of the way to where it is recorded is that
it was raised somewhere (`Parser.Course.failed`).
-/

namespace ExprLang

open Parse

/-! ## Numbers -/

namespace Text

/-- Leading zeros do not matter. -/
theorem digitsValue_dropWhile_zero (cs : List Char) :
    digitsValue (cs.dropWhile (· = '0')) = digitsValue cs := by
  induction cs with
  | nil => rfl
  | cons c cs ih =>
    by_cases hc : c = '0'
    · subst hc
      exact ih
    · rw [List.dropWhile_cons_of_neg (by simpa using hc)]

/-- A run of digits is an integer unless its value is too large. -/
theorem integer?_eq_none_iff {s : String} (hne : s.toList ≠ [])
    (hdigits : s.toList.all Char.isDigit) :
    integer? s = none ↔ maxInteger < digitsValue s.toList := by
  simp [integer?, hne, hdigits]

end Text

/-- A number is a run of digits. -/
theorem Munch.Longest.digits {c : Char} {cs text : List Char} {kind : TokenKind}
    (h : Longest c cs kind text) (hk : kind = .int) : text.all Char.isDigit := by
  cases h with
  | sign hc => simp [signs, hk] at hc
  | word _ => exact absurd hk (ne_of_mem_of_not_mem (wordKind_mem _) (by decide))
  | number hc => simp [hc]
  | equals | assign | notEquals | bang | illegal => cases hk

theorem Token.Scanned.digits {t : Token} (h : t.Scanned) (hk : t.kind = .int) :
    t.literal.toList ≠ [] ∧ t.literal.toList.all Char.isDigit := by
  rcases h with ⟨he, -⟩ | ⟨c, text, ht, -, hl⟩
  · rw [he] at hk
    cases hk
  · rw [ht]
    exact ⟨List.cons_ne_nil c text, (Munch.lexeme_eq_iff.1 hl).digits hk⟩

/-! ## The tokens of a source -/

namespace Scanner

theorem file_next (s : Scanner) :
    s.next.2.file = s.file ∧ s.next.1.span.start.file = s.file := by
  unfold next
  cases hr : s.skipLayout.rest with
  | nil => simp only [hr]; exact ⟨rfl, rfl⟩
  | cons lead rest => simp only [hr]; exact ⟨rfl, rfl⟩

theorem file_later (s : Scanner) (n : Nat) : (s.later n).file = s.file := by
  induction n with
  | zero => rfl
  | succ n ih => exact (s.later n).file_next.1.trans ih

end Scanner

/-- Whatever a source holds, its tokens are scanned and stand in it. -/
theorem Cursor.sees_ofSource (source : String) (file? : Option String) :
    (ofScanner (.ofSource source file?)).Sees
      fun t => t.Scanned ∧ t.span.start.file = file?.getD unnamedFile := by
  refine sees_ofScanner fun n => ?_
  obtain ⟨before, after, h⟩ := Scanner.splits_later source file? n
  exact ⟨h.scanned, (Scanner.file_next _).2.trans (Scanner.file_later _ n)⟩

/-! ## What is said of a token -/

/-- Is it true of the token `t` what a cause says, in a parse that began on `start`? -/
def Cause.TrueOf (start : Parser) (t : Token) : Cause → Prop
  | unexpectedToken expected found literal =>
      found = t.kind ∧ literal = t.literal ∧ expected ≠ t.kind
  | noPrefixRule kind literal =>
      kind = t.kind ∧ literal = t.literal ∧ t.kind.prefixRule? = none
  | badNumber literal =>
      t.kind = .int ∧ literal = t.literal ∧ literal.toList.all Char.isDigit ∧
        Text.maxInteger < Text.digitsValue literal.toList ∧
        Text.maxInteger < Text.digitsValue (literal.toList.dropWhile (· = '0'))
  | nestingTooDeep limit =>
      limit = 64 ∧ ∃ power p, start.Active 64 (.expression power) p ∧ p.current = t

/-- What a failure says is true of the token it was raised from. -/
theorem Parser.Raises.trueOf {start : Parser} {c : Cursor} {d : Diagnostic}
    (h : start.Raises c d) (hstart : start.depth = 0) (hc : c.current.Scanned) :
    ∃ t, (t = c.current ∨ t = c.peek) ∧ d.position = t.span.start ∧ d.cause.TrueOf start t := by
  cases h with
  | expected hk _ hne => exact ⟨c.peek, .inr rfl, rfl, rfl, rfl, Ne.symm hne⟩
  | unclosed he => exact ⟨c.current, .inl rfl, rfl, rfl, rfl, by rw [he]; decide⟩
  | noPrefixRule hk => exact ⟨c.current, .inl rfl, rfl, rfl, rfl, hk⟩
  | badNumber hk hv =>
    obtain ⟨hne, hdigits⟩ := hc.digits hk
    have hlarge := (Text.integer?_eq_none_iff hne hdigits).1 hv
    exact ⟨c.current, .inl rfl, rfl, hk, rfl, hdigits, hlarge,
      by rwa [Text.digitsValue_dropWhile_zero]⟩
  | @tooDeep n power p hp hactive hlimit =>
    subst hp
    have hdepth := hactive.depth_eq
    have hle := hactive.depth_le (by rw [hstart]; exact Nat.zero_le _)
    have hn : n = 64 := by
      unfold depthLimit at hlimit hle
      omega
    subst hn
    exact ⟨p.current, .inl rfl, rfl, rfl, power, p, hactive, rfl⟩

/-- Every diagnostic tells the truth of a token of the source, and stands at its start. -/
theorem parse_blames (source : String) (file? : Option String) :
    ∀ d ∈ (parse source file?).2.diagnostics.toList, ∃ t ∈ tokenize source file?,
      d.position = t.span.start ∧ d.position.file = file?.getD unnamedFile ∧
        d.cause.TrueOf (Parser.ofScanner (.ofSource source file?)).reset t := by
  obtain ⟨ms, last?, stop, h⟩ := Parser.exists_course source file?
  intro d hd
  obtain ⟨q, hq, hreaches⟩ := h.failed rfl d hd
  have hsees := (Cursor.sees_ofSource source file?).of_reaches hreaches
  obtain ⟨t, ht, hposition, htrue⟩ := hq.raises.trueOf rfl hsees.current.1
  refine ⟨t, ?_, hposition, ?_, htrue⟩
  · rcases ht with rfl | rfl
    · exact hreaches.mem_tokenize 0
    · exact hreaches.mem_tokenize 1
  · rw [hposition]
    rcases ht with rfl | rfl
    · exact hsees.current.2
    · exact hsees.peek.2

theorem parse_blames_number :
    ∃ d ∈ (parse "f(1 + 09223372036854775808)" none).2.diagnostics.toList,
      ∃ t ∈ tokenize "f(1 + 09223372036854775808)" none, d.position = t.span.start ∧
        t.kind = .int ∧ Text.maxInteger < Text.digitsValue t.literal.toList := by
  have hd : ⟨.badNumber "09223372036854775808", .at "shell" 6⟩ ∈
      (parse "f(1 + 09223372036854775808)" none).2.diagnostics.toList := by decide +kernel
  obtain ⟨t, ht, hposition, -, hkind, hliteral, -, hlarge, -⟩ := parse_blames _ none _ hd
  exact ⟨_, hd, t, ht, hposition, hkind, hliteral ▸ hlarge⟩

end ExprLang
