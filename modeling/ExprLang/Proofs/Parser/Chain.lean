import ExprLang.Proofs.Grammar.Replaced
import ExprLang.Proofs.Parser.Completeness
import ExprLang.Proofs.Parser.Depth

/-!
# How high programs are

The limit on the depth of a parser does not bound the height of what it gives.  A left operand is
read by the loop over the operators and not inside of anything, and so an operator may stand
behind any number of others: `sumOf n` has `n` operators and needs room for two expressions
(`sumOf_written`), and there is a source for each of them (`exists_parse_height`).

What the limit does bound is the height that chains of left operands and callees leave: a
statement is lower than three edges and the longest of its chains, once for each level
(`parse_height_lt`).
-/

namespace ExprLang

open Parse

/-! ## Sums -/

/-- A token that names an operand. -/
def Token.operand : Token := ⟨.identifier, "a", default⟩

/-- A sign between operands. -/
def Token.plus : Token := ⟨.plus, "+", default⟩

/-- A sum with `n` signs, grouped to the left. -/
def sumOf : Nat → Expr
  | 0 => .identifier (.ofToken .operand)
  | n + 1 =>
    .binary ⟨.plus, ⟨(sumOf n).site.span.start, stopOf [.operand]⟩⟩ Token.plus.literal (sumOf n)
      (.identifier (.ofToken .operand))

/-- The tokens of the sum. -/
def sumTokens : Nat → List Token
  | 0 => [.operand]
  | n + 1 => sumTokens n ++ [.plus, .operand]

theorem height_sumOf (n : Nat) : (sumOf n).height = n := by
  induction n with
  | zero => rfl
  | succ n ih =>
    show max (sumOf n).height 0 + 1 = n + 1
    rw [ih, Nat.max_zero]

/-- No more than two expressions are inside each other, however many signs there are. -/
theorem sumOf_written (n : Nat) :
    ∃ top need, (sumOf n).Written (sumTokens n) top need ∧ .sum ≤ top ∧ need ≤ 2 := by
  have hoperand : (sumOf 0).Written [.operand] .call 1 := .identifier rfl
  induction n with
  | zero => exact ⟨.call, 1, hoperand, by decide, by decide⟩
  | succ n ih =>
    obtain ⟨top, need, hleft, htop, hneed⟩ := ih
    have hsum := hleft.binary (o := .plus) rfl hoperand htop (by decide)
    exact ⟨.sum, max need 2, hsum, by decide, Nat.max_le.2 ⟨hneed, Nat.le_refl 2⟩⟩

theorem scanned_of_mem_sumTokens (n : Nat) : ∀ t ∈ sumTokens n, t.Scanned := by
  have hoperand : Token.operand.Scanned := .inr ⟨'a', [], rfl, rfl, rfl⟩
  have hplus : Token.plus.Scanned := .inr ⟨'+', [], rfl, rfl, rfl⟩
  induction n with
  | zero => exact List.forall_mem_singleton.2 hoperand
  | succ n ih =>
    have hback := List.forall_mem_cons.2 ⟨hplus, List.forall_mem_singleton.2 hoperand⟩
    exact List.forall_mem_append.2 ⟨ih, hback⟩

/-- There is a source for each sum.  It is parsed without a diagnostic to one statement, which is
one higher than the sum has signs. -/
theorem exists_parse_height (n : Nat) : ∃ source, ∀ file?,
    (parse source file?).2.diagnostics = #[] ∧
      (parse source file?).1.body.map (·.height) = [n + 1] := by
  obtain ⟨top, need, hsum, -, hneed⟩ := sumOf_written n
  let last : Token := ⟨.eof, "\x00", default⟩
  have hlast : last.kind = .eof := rfl
  have hstmt := @Stmt.Written.expression _ _ _ _ none hsum (by simp)
  have hprogram := Program.Written.mk (.cons hstmt (by simp) .nil) hlast
  have hscanned : ∀ t ∈ sumTokens n ++ [] ++ [] ++ [last], t.Scanned := by
    rw [List.append_nil, List.append_nil]
    exact List.forall_mem_append.2 ⟨scanned_of_mem_sumTokens n,
      List.forall_mem_singleton.2 (.inl ⟨rfl, rfl⟩)⟩
  obtain ⟨source, hsource⟩ := hprogram.exists_source hscanned
  refine ⟨source, fun file? => ?_⟩
  obtain ⟨Q, hQ, hplaces⟩ := hprogram.replaced (hsource file?)
  have hfits : max need 0 ≤ Parser.depthLimit :=
    Nat.max_le.2 ⟨Nat.le_trans hneed (by decide), by decide⟩
  obtain ⟨rfl, hquiet⟩ := hQ.parse_meets.1 hfits
  refine ⟨hquiet, ?_⟩
  -- The program is that of the sum at other places, and these do not matter for the height.
  have hunplaced : ∀ s : Stmt, s.unplaced.height = s.height := fun s => s.height_move _
  have hheights := congrArg (List.map Stmt.height) (Program.unplaced_inj.1 hplaces)
  simp only [List.map_map, Function.comp_def, hunplaced] at hheights
  rw [hheights, List.map_singleton, Stmt.height, height_sumOf]

/-! ## The height -/

/-- A statement of a source is lower than three edges and the longest chain of left operands and
callees in it, once for each level that the limit allows.  So wherever the chains of a program are
no longer than `k` none of its nodes is further down than that. -/
theorem parse_height_lt (source : String) (file? : Option String) :
    (∀ s ∈ (parse source file?).1.body, s.height < Parser.depthLimit * (s.chain + 3)) ∧
      ∀ k, (∀ s ∈ (parse source file?).1.body, s.chain ≤ k) →
        ∀ row ∈ (parse source file?).1.outline, row.depth ≤ Parser.depthLimit * (k + 3) := by
  have hlevels := Parser.program_levels (.ofScanner (.ofSource source file?))
  refine ⟨fun s hs => s.height_le (Nat.le_refl _) (hlevels s hs), fun k hk => ?_⟩
  refine Row.deepest_le_iff.1 ?_
  rw [Program.deepest_outline]
  exact Stmt.heightAll_le_iff.2 fun s hs => s.height_le (hk s hs) (hlevels s hs)

/-- The chain of two signs is part of the height of its statement. -/
theorem parse_height_lt_sum :
    ∃ s ∈ (parse "a + b + c" none).1.body, s.height = 3 ∧ s.chain = 2 ∧
      s.height < Parser.depthLimit * (s.chain + 3) := by
  have hbody : (parse "a + b + c" none).1.body.map (fun s => (s.height, s.chain)) = [(3, 2)] := by
    decide +kernel
  obtain ⟨s, hs, hpair⟩ := List.mem_map.1 (hbody ▸ List.mem_singleton_self (3, 2))
  injection hpair with hheight hchain
  exact ⟨s, hs, hheight, hchain, (parse_height_lt "a + b + c" none).1 s hs⟩

/-- No number bounds the heights of all programs. -/
theorem parse_height_unbounded :
    ¬ ∃ bound, ∀ source file?, ∀ s ∈ (parse source file?).1.body, s.height ≤ bound := by
  rintro ⟨bound, hbound⟩
  obtain ⟨source, hsource⟩ := exists_parse_height bound
  have hheights := (hsource none).2
  obtain ⟨s, hs, hheight⟩ := List.mem_map.1 (hheights ▸ List.mem_singleton_self (bound + 1))
  have := hbound source none s hs
  omega

end ExprLang
