import ExprLang.Proofs.Parser.Building
import ExprLang.Proofs.Parser.Consistency
import ExprLang.Proofs.Tree.Agrees

/-!
# Nodes that are true to their tokens

Every node of a program has a token of its source, and is what that token says
(`parse_faithful`): it is of a kind that the token calls for, and the name, value or operator in
it is what the token spells.  The token of an expression statement is the one that the parse of
the statement starts on.

All but that is what it means that a program is consistent, and that is how the statement is
built.
-/

namespace ExprLang

open Parse

/-- What a text spells is the value of its digits, which is not too large. -/
theorem Text.toInt_of_integer? {s : String} {v : Int64} (h : integer? s = some v) :
    v.toInt = digitsValue s.toList ∧ 0 ≤ v.toInt ∧ v.toInt ≤ Int64.maxValue.toInt := by
  have hmax : (maxInteger : Int) = Int64.maxValue.toInt := by decide
  rw [integer?] at h
  split at h
  · next hs =>
    cases h
    simp only [Bool.and_eq_true, decide_eq_true_eq] at hs
    have hv : (Int64.ofNat (digitsValue s.toList)).toInt = digitsValue s.toList := by
      refine Int64.toInt_ofNat_of_lt ?_
      have : maxInteger < 2 ^ 63 := by decide
      omega
    rw [hv]
    omega
  · cases h

/-- Is the node what its token says?  The cursor `c₀` stands on the first token of the source. -/
def Node.Faithful (c₀ : Cursor) : Node → Prop
  | .expr (.identifier id) => id.site.token.kind = .identifier ∧ id.name = id.site.token.literal
  | .expr (.integer site value) =>
      site.token.kind = .int ∧ value.toInt = Text.digitsValue site.token.literal.toList ∧
        0 ≤ value.toInt ∧ value.toInt ≤ Int64.maxValue.toInt
  | .expr (.boolean site value) =>
      (site.token.kind = .kwTrue ∨ site.token.kind = .kwFalse) ∧
        (value = true ↔ site.token.kind = .kwTrue)
  | .expr (.unary site operator _) =>
      (site.token.kind = .minus ∨ site.token.kind = .bang) ∧ operator = site.token.literal
  | .expr (.binary site operator _ _) =>
      site.token.kind ∈ [.plus, .minus, .asterisk, .slash, .less, .greater, .equals, .notEquals] ∧
        operator = site.token.literal
  | .expr (.conditional site _ _ _) => site.token.kind = .kwIf
  | .expr (.function site _ _) => site.token.kind = .kwFn
  | .expr (.call site _ _) => site.token.kind = .openParen
  | .block (.mk site _) => site.token.kind = .openCurly
  | .stmt (.binding site _ _) => site.token.kind = .kwLet
  | .stmt (.result site _) => site.token.kind = .kwReturn
  | .stmt (.expression site value) => site.token.kind.prefixRule?.isSome ∧
      ∃ p q : Parser, c₀.Reaches p.cursor ∧ p.current = site.token ∧
        (statement .full).run p = .ok (.expression site value) q

theorem TokenKind.mem_of_infixRule {k : TokenKind} (h : k.infixRule? = some .binary) :
    k ∈ [plus, minus, asterisk, slash, less, greater, equals, notEquals] := by
  cases k <;> first | decide | cases h

/-- A node that agrees with its token and is built is what its token says. -/
theorem Node.Agrees.faithful {T : Token → Prop} {c₀ : Cursor} {n : Node} (h : n.Agrees T)
    (hbuilt : n.Built c₀) : T n.site.token ∧ n.Faithful c₀ := by
  match n, h with
  | .expr (.identifier _), ⟨t, ht, hk, hid⟩ =>
    subst hid
    exact ⟨ht, hk, rfl⟩
  | .expr (.integer _ _), ⟨ht, hk, hv⟩ => exact ⟨ht, hk, Text.toInt_of_integer? hv⟩
  | .expr (.boolean _ _), ⟨ht, hk, hv⟩ => exact ⟨ht, hk, by simp [hv]⟩
  | .expr (.unary _ _ _), ⟨ht, hk, ho⟩ =>
    have hk := TokenKind.prefixRule?_eq_some_iff.1 hk
    exact ⟨ht, by simpa [TokenKind.ofPrefixRule] using hk, ho⟩
  | .expr (.binary _ _ _ _), ⟨ht, hk, ho⟩ => exact ⟨ht, TokenKind.mem_of_infixRule hk, ho⟩
  | .expr (.conditional _ _ _ _), h => exact h
  | .expr (.function _ _ _), h => exact h
  | .expr (.call _ _ _), h => exact h
  | .block (.mk _ _), h => exact h
  | .stmt (.binding _ _ _), h => exact h
  | .stmt (.result _ _), h => exact h
  | .stmt (.expression site _), ⟨ht, hk⟩ =>
    obtain ⟨p, q, hreaches, hrun, hs⟩ := hbuilt
    have hp : p.current = site.token := by
      cases hs with
      | expression => rfl
    exact ⟨ht, hk, p, q, hreaches, hp, hrun⟩

/-- Every node of a program has a token of the source and is what that token says. -/
theorem parse_faithful (source : String) (file? : Option String) :
    ∀ row ∈ (parse source file?).1.outline, row.node.site.token ∈ tokenize source file? ∧
      row.node.Faithful (.ofScanner (.ofSource source file?)) := by
  intro row hrow
  have hconsistent : (parse source file?).1.Consistent (· ∈ tokenize source file?) := by
    refine parse_consistent_of_tokens fun n => ?_
    exact List.mem_of_getElem? ((Scanner.splits_ofSource source file?).getElem?_tokens n)
  have hagrees := (Program.each_iff_outline _).1 hconsistent.each row hrow
  exact hagrees.faithful ((Program.each_iff_outline _).1 (parse_each_built source file?) row hrow)

theorem parse_faithful_operand :
    ∃ row ∈ (parse "a + -2 )" none).1.outline, row.role = .right ∧
      row.node.site.token ∈ tokenize "a + -2 )" none ∧
      row.node.Faithful (.ofScanner (.ofSource "a + -2 )" none)) := by
  have hright : ∃ row ∈ (parse "a + -2 )" none).1.outline, row.role = .right := by decide +kernel
  obtain ⟨row, hrow, hrole⟩ := hright
  exact ⟨row, hrow, hrole, parse_faithful "a + -2 )" none row hrow⟩

end ExprLang
