import ExprLang.Proofs.Grammar.Precedence
import ExprLang.Proofs.Grammar.Replaced
import ExprLang.Proofs.Parser.Completeness
import ExprLang.Proofs.Token.Spelled
import ExprLang.Tree.Render

/-!
# Parsing formulas

A source that lays out a formula is parsed to the tree that the formula stands for
(`parse_formula`).  The parser goes over the operators one by one and compares each with the power
it was called with.  It gives the tree that is cut at the rightmost of the loosest operators, all
the same, because the tokens of the formula write that tree and are parsed to what they write.
-/

namespace ExprLang

open Formula

/-! ## The texts of formulas -/

namespace Munch

/-- Letters are one lexeme. -/
theorem lexeme_letters {c : Char} {cs : List Char} (h : ∀ d ∈ c :: cs, isLetter d) :
    isLayout c = false ∧ lexeme c cs = (wordKind (.ofList (c :: cs)), c :: cs) := by
  obtain ⟨hc, hcs⟩ := List.forall_mem_cons.1 h
  have htake : cs.takeWhile isLetter = cs := by
    simpa using @List.takeWhile_append_of_pos _ isLetter cs [] hcs
  have hword : Longest c cs _ _ := .word hc
  rw [htake] at hword
  exact ⟨isLayout_eq_false (by decide) hc, hword.lexeme_eq⟩

/-- Digits are one lexeme. -/
theorem lexeme_digits {c : Char} {cs : List Char} (h : ∀ d ∈ c :: cs, d.isDigit) :
    isLayout c = false ∧ lexeme c cs = (.int, c :: cs) := by
  obtain ⟨hc, hcs⟩ := List.forall_mem_cons.1 h
  have htake : cs.takeWhile Char.isDigit = cs := by
    simpa using @List.takeWhile_append_of_pos _ Char.isDigit cs [] hcs
  have hnumber : Longest c cs _ _ := .number hc
  rw [htake] at hnumber
  exact ⟨isLayout_eq_false (by decide) hc, hnumber.lexeme_eq⟩

end Munch

namespace Formula

theorem Operator.spelled (o : Operator) : o.token.Spelled := by
  cases o <;> exact ⟨_, _, rfl, rfl, rfl⟩

theorem Sign.spelled (s : Sign) : s.token.Spelled := by
  cases s <;> exact ⟨_, _, rfl, rfl, rfl⟩

theorem Word.spelled (w : Word) : w.token.Spelled := by
  cases w with
  | name text hne hletters hkeyword =>
    obtain ⟨c, cs, htext⟩ := List.exists_cons_of_ne_nil hne
    obtain ⟨hc, hl⟩ := Munch.lexeme_letters (List.all_eq_true.1 (htext ▸ hletters))
    rw [← htext, String.ofList_toList, ← Munch.ofWord_eq_wordKind,
      (TokenKind.ofWord_eq_identifier_iff text).2 hkeyword] at hl
    exact ⟨c, cs, htext, hc, hl.trans (by rw [htext]; rfl)⟩
  | number text hne hdigits hle =>
    obtain ⟨c, cs, htext⟩ := List.exists_cons_of_ne_nil hne
    obtain ⟨hc, hl⟩ := Munch.lexeme_digits (List.all_eq_true.1 (htext ▸ hdigits))
    exact ⟨c, cs, htext, hc, hl⟩
  | truth value => cases value <;> exact ⟨_, _, rfl, rfl, rfl⟩

theorem Signed.spelled (x : Signed) : ∀ t ∈ x.tokens, t.Spelled := by
  refine List.forall_mem_append.2 ⟨?_, List.forall_mem_singleton.2 x.word.spelled⟩
  intro t ht
  obtain ⟨s, -, rfl⟩ := List.mem_map.1 ht
  exact s.spelled

theorem spelled (f : Formula) : ∀ t ∈ f.tokens, t.Spelled := by
  refine List.forall_mem_append.2 ⟨f.first.spelled, ?_⟩
  intro t ht
  obtain ⟨l, -, ht⟩ := List.mem_flatMap.1 ht
  exact List.forall_mem_cons.2 ⟨l.operator.spelled, l.operand.spelled⟩ t ht

/-- The statement that a formula is by itself. -/
def statement (f : Formula) : Stmt := .expression (Site.ofTokens f.tokens).unplaced f.tree

end Formula

/-! ## Parsing them -/

/-- A source that lays out operands with operators between them is parsed without a diagnostic to
one statement, however many operators there are.  Its tree is the one that is cut at the rightmost
of the operators that bind loosest, with the trees of the two sides below it. -/
theorem parse_formula (f : Formula) {source : String} (h : Token.LaidOut f.tokens source.toList)
    (file? : Option String) :
    (parse source file?).2.diagnostics = #[] ∧
      (parse source file?).1.body.map Stmt.unplaced = [f.statement] := by
  obtain ⟨e, top, need, hwritten, htree, hbound⟩ := f.exists_written
  obtain ⟨-, hneed⟩ := hbound 0 (Nat.zero_le 4) fun _ _ => Nat.zero_le _
  let last : Token := .ofText .eof "\x00"
  have hlast : last.kind = .eof := rfl
  have hstmt := @Stmt.Written.expression _ _ _ _ none hwritten (by simp)
  have hprogram := Program.Written.mk (.cons hstmt (by simp) .nil) hlast
  have hagree : Token.Agree (f.tokens ++ [] ++ [] ++ [last]) (tokenize source file?) := by
    rw [List.append_nil, List.append_nil, Token.Agree, Munch.tokenize_unplaced,
      Munch.lexed_laidOut h f.spelled, List.map_append]
    rfl
  obtain ⟨Q, hQ, hplaces⟩ := hprogram.replaced hagree
  have hfits : max need 0 ≤ Parser.depthLimit :=
    Nat.max_le.2 ⟨Nat.le_trans hneed (by decide), by decide⟩
  obtain ⟨rfl, hquiet⟩ := hQ.parse_meets.1 hfits
  refine ⟨hquiet, ?_⟩
  rw [Program.unplaced_inj.1 hplaces, List.map_singleton, Stmt.unplaced_expression, htree,
    Option.toList_none, List.append_nil, Formula.statement]

/-- An equation of a name and a product whose first factor has a sign. -/
def Formula.mixed : Formula :=
  ⟨⟨none, .name "a" (by decide) (by decide) (by decide)⟩,
    [⟨.equals, ⟨some .minus, .number "2" (by decide) (by decide) (by decide)⟩⟩,
      ⟨.asterisk, ⟨none, .name "b" (by decide) (by decide) (by decide)⟩⟩]⟩

/-- Its operators are on two lines, and its sign is next to the number. -/
theorem parse_formula_mixed :
    Token.LaidOut mixed.tokens "a ==\n-2 * b".toList ∧
      mixed.tree.render = "(a == ((-2) * b))" ∧
      (parse "a ==\n-2 * b" none).2.diagnostics = #[] ∧
      (parse "a ==\n-2 * b" none).1.body.map Stmt.unplaced = [mixed.statement] := by
  have hlaidOut : Token.LaidOut mixed.tokens "a ==\n-2 * b".toList := by
    refine Eq.subst (motive := Token.LaidOut mixed.tokens) ?_ <|
      @Token.LaidOut.apart (.ofText .identifier "a") _ [] _ ' ' nofun rfl <|
      @Token.LaidOut.apart (.ofText .equals "==") _ [] _ '\n' nofun rfl <|
      @Token.LaidOut.cons (.ofText .minus "-") _ [] _ nofun (fun _ _ => rfl) <|
      @Token.LaidOut.apart (.ofText .int "2") _ [] _ ' ' nofun rfl <|
      @Token.LaidOut.apart (.ofText .asterisk "*") _ [] _ ' ' nofun rfl <|
      @Token.LaidOut.cons (.ofText .identifier "b") _ [] [] nofun nofun (.nil nofun)
    decide +kernel
  have htree : mixed.tree.render = "(a == ((-2) * b))" := by
    simp [mixed, tree, split?, Operator.level, Signed.tree, Word.tree]
    decide +kernel
  exact ⟨hlaidOut, htree, parse_formula mixed hlaidOut none⟩

end ExprLang
