import ExprLang.Proofs.Parser.Completeness
import ExprLang.Proofs.Parser.Consistency
import ExprLang.Proofs.Tree.Plain

/-!
# Parsing the text of a program

The text of a plain program is parsed to the program again, up to places, if the limit
leaves room for the groups that the text has around every operator.  So two plain programs
with one text differ in their places only.
-/

namespace ExprLang

/-- Statements that are equal without their places are equal without the token of an
expression as well. -/
theorem Stmt.bare_eq {s s' : Stmt} (h : s.unplaced = s'.unplaced) : s.bare = s'.bare := by
  cases s with
  | expression site value =>
    cases s' with
    | expression site' value' =>
      rw [Stmt.unplaced_expression, Stmt.unplaced_expression, Stmt.expression.injEq] at h
      rw [Stmt.bare, Stmt.bare, h.2]
    | _ => cases h
  | _ =>
    cases s' with
    | expression site' value' => cases h
    | _ => exact h

theorem Program.map_bare_eq {P Q : Program} (h : P.unplaced = Q.unplaced) :
    P.body.map Stmt.bare = Q.body.map Stmt.bare := by
  have h := Program.unplaced_inj.1 h
  generalize P.body = ss at h ⊢
  generalize Q.body = us at h ⊢
  induction ss generalizing us with
  | nil => rw [List.map_eq_nil_iff.1 h.symm]
  | cons s ss ih =>
    obtain ⟨u, us, rfl, hu, hus⟩ := List.map_eq_cons_iff.1 h.symm
    rw [List.map_cons, List.map_cons, Stmt.bare_eq hu, ih us hus.symm]

/-- The text of a plain program is parsed without a diagnostic if the limit allows, and
else the first diagnostic is that of too deep a nesting. -/
theorem Program.Plain.parse_render {P : Program} (h : P.Plain) (file? : Option String) :
    (Stmt.listRenderNeed P.body ≤ Parser.depthLimit →
        (parse P.render file?).2.diagnostics = #[] ∧
        (parse P.render file?).1.body.map Stmt.bare = P.body.map Stmt.bare) ∧
      (Parser.depthLimit < Stmt.listRenderNeed P.body →
        ∃ position, (parse P.render file?).2.diagnostics[0]? =
          some ⟨.nestingTooDeep Parser.depthLimit, position⟩) := by
  obtain ⟨ts, Q, hw, hbody, htokens⟩ := h.renders file?
  obtain ⟨R, hR, hRQ⟩ := hw.replaced htokens
  obtain ⟨hfits, hover⟩ := hR.parse_meets
  refine ⟨fun hn => ?_, fun hn => (hover hn).getElem?_zero⟩
  obtain ⟨rfl, hd⟩ := hfits hn
  exact ⟨hd, (Program.map_bare_eq hRQ).trans hbody⟩

/-- The text of a plain program is parsed to the same statements, up to places and the token
of an expression statement, if the text of each nests no deeper than the limit, and else
the first diagnostic is that of too deep a nesting.  Within the limit no other plain
program has the same text.  What parsing gives agrees with its tokens, and so is plain if
it has the shape of a plain program. -/
theorem render_parse :
    (∀ source file?, (parse source file?).1.Consistent Token.Scanned) ∧
      ∀ P : Program, P.Plain →
        ((∀ s ∈ P.body, s.value.renderNeed ≤ Parser.depthLimit) →
          (∀ file?, (parse P.render file?).2.diagnostics = #[] ∧
            (parse P.render file?).1.body.map Stmt.bare = P.body.map Stmt.bare) ∧
          ∀ Q : Program, Q.Plain → Q.render = P.render →
            Q.body.map Stmt.bare = P.body.map Stmt.bare) ∧
        ((∃ s ∈ P.body, Parser.depthLimit < s.value.renderNeed) →
          ∀ file?, ∃ position, (parse P.render file?).2.diagnostics[0]? =
            some ⟨.nestingTooDeep Parser.depthLimit, position⟩) := by
  refine ⟨parse_consistent, fun P hP => ⟨fun hn => ?_, fun hn file? => ?_⟩⟩
  · have hneed := Stmt.listRenderNeed_le_iff.2 hn
    refine ⟨fun file? => (hP.parse_render file?).1 hneed, fun Q hQ hrender => ?_⟩
    obtain ⟨hd, hbody⟩ := (hP.parse_render none).1 hneed
    obtain ⟨hfits, hover⟩ := hQ.parse_render none
    rw [hrender] at hfits hover
    by_cases hQneed : Stmt.listRenderNeed Q.body ≤ Parser.depthLimit
    · exact (hfits hQneed).2.symm.trans hbody
    · obtain ⟨position, hfirst⟩ := hover (Nat.not_le.1 hQneed)
      rw [hd] at hfirst
      cases hfirst
  · refine (hP.parse_render file?).2 (Nat.lt_of_not_le fun hle => ?_)
    obtain ⟨s, hs, hlt⟩ := hn
    exact absurd (Stmt.listRenderNeed_le_iff.1 hle s hs) (Nat.not_le.2 hlt)

theorem render_parse_operators :
    ∃ P : Program, P.Plain ∧ P.render = "let a = (!b);(f(1, (-2)) * 3)" ∧
      (parse P.render none).2.diagnostics = #[] ∧
      (parse P.render none).1.body.map Stmt.bare = P.body.map Stmt.bare := by
  have hP : (parse "let a = !b; f(1, -2) * 3" none).1.Plain :=
    ⟨render_parse.1 _ _, by decide +kernel, by decide +kernel⟩
  exact ⟨_, hP, by decide +kernel, ((render_parse.2 _ hP).1 (by decide +kernel)).1 none⟩

end ExprLang
