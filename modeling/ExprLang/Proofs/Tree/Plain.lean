import ExprLang.Proofs.Grammar.Written
import ExprLang.Proofs.Token.Spelled
import ExprLang.Proofs.Tree.Consistent
import ExprLang.Tree.Render

/-!
# The text of a plain program

A program is *plain* if its nodes agree with their tokens, no expression in it has a
block, and only its last statement may be an expression.  Its text is then a writing of
it, with a group around every operator (`Stmt.ListRenders`).

An operator in its group is two expressions further in than what is around it.  So the
text of a tree needs more room than some other writing of the tree would
(`Expr.renderNeed`).
-/

namespace ExprLang

open Munch (lexed)

/-! ## Plain programs -/

mutual

/-- Is there no block in the expression? -/
def Expr.isBraceFree : Expr → Bool
  | .identifier _ | .integer _ _ | .boolean _ _ => true
  | .unary _ _ right => right.isBraceFree
  | .binary _ _ left right => left.isBraceFree && right.isBraceFree
  | .conditional .. | .function .. => false
  | .call _ callee arguments => callee.isBraceFree && Expr.allBraceFree arguments

/-- Is there no block in the expressions? -/
def Expr.allBraceFree : List Expr → Bool
  | [] => true
  | e :: es => e.isBraceFree && Expr.allBraceFree es

end

mutual

/-- How many expressions are inside each other in the text of an expression without
blocks. -/
def Expr.renderNeed : Expr → Nat
  | .identifier _ | .integer _ _ | .boolean _ _ => 1
  | .unary _ _ right => right.renderNeed + 2
  | .binary _ _ left right => max left.renderNeed (right.renderNeed + 1) + 1
  | .conditional .. | .function .. => 0
  | .call _ callee arguments => max callee.renderNeed (Expr.listRenderNeed arguments)

/-- How many expressions are inside each other in the text of some arguments, the call
included. -/
def Expr.listRenderNeed : List Expr → Nat
  | [] => 0
  | e :: es => max (e.renderNeed + 1) (Expr.listRenderNeed es)

end

/-- The expression in a statement. -/
def Stmt.value : Stmt → Expr
  | .binding _ _ value | .result _ value | .expression _ value => value

/-- Is it an expression by itself? -/
def Stmt.isExpression : Stmt → Bool
  | .expression _ _ => true
  | _ => false

/-- Has the program no blocks, and no expression statement but the last? -/
structure Program.Plain (P : Program) : Prop where
  /-- Every node agrees with its token. -/
  consistent : P.Consistent Token.Scanned
  /-- No expression has a block. -/
  braceFree : ∀ s ∈ P.body, s.value.isBraceFree
  /-- Only the last statement may be an expression. -/
  expression_last : ∀ s ∈ P.body.dropLast, s.isExpression = false

/-- The statement without its places, and without the token if it is an expression. -/
def Stmt.bare : Stmt → Stmt
  | .expression _ value => .expression default value.unplaced
  | s => s.unplaced

/-! ## Texts that are scanned -/

namespace Munch

/-- No token goes on with what stands here. -/
def Stops (cs : List Char) : Prop := ∀ c ∈ cs.head?, ∀ k : TokenKind, k.goesOn c = false

theorem stops_nil : Stops [] := nofun

theorem stops_cons {c : Char} (h : ∀ k ∈ TokenKind.all, k.goesOn c = false) (cs : List Char) :
    Stops (c :: cs) := by
  intro d hd k
  cases hd
  exact h k k.mem_all

end Munch

/-- A sign between the parts of a node, as a token. -/
def Token.sign (kind : TokenKind) (c : Char) : Token :=
  ⟨kind, .ofList [c], ⟨.nowhere, .nowhere⟩⟩

theorem Token.lexed_sign {kind : TokenKind} {c : Char} (h : Munch.signs.lookup c = some kind)
    (hc : Munch.isLayout c = false) (after : List Char) :
    lexed (c :: after) = (Token.sign kind c).unplaced :: lexed after := by
  have hlongest : Munch.Longest c after kind [c] := .sign (Munch.lookup_signs_eq_some_iff.1 h)
  exact Munch.lexed_of_lexeme hc hlongest.lexeme_eq rfl

theorem Token.lexed_assign (after : List Char) :
    lexed ('=' :: ' ' :: after) = (Token.sign .assign '=').unplaced :: lexed after := by
  have hl : Munch.lexeme '=' (' ' :: after) = (.assign, ['=']) := rfl
  rw [Munch.lexed_of_lexeme rfl hl (List.singleton_append).symm, Munch.lexed_layout rfl]
  rfl

theorem Token.Scanned.spelled {t : Token} (h : t.Scanned) (hk : t.kind ≠ .eof) : t.Spelled := by
  rcases h with ⟨heof, -⟩ | h
  · exact absurd heof hk
  · exact h

/-- A lexeme that an expression starts with does not start with a `=`. -/
theorem Munch.Longest.head_ne {c : Char} {cs text : List Char} {kind : TokenKind}
    (h : Munch.Longest c cs kind text) (hk : kind.prefixRule?.isSome) : c ≠ '=' := by
  cases h with
  | sign hc =>
    rintro rfl
    simp [Munch.signs] at hc
  | equals | assign => cases hk
  | notEquals | bang => decide
  | word hc | number hc =>
    rintro rfl
    cases hc
  | illegal _ hequals _ _ _ => exact hequals

/-- Only one lexeme is an opening parenthesis. -/
theorem Munch.Longest.openParen {c : Char} {cs text : List Char} {kind : TokenKind}
    (h : Munch.Longest c cs kind text) (hk : kind = .openParen) : text = ['('] := by
  cases h with
  | sign hc => simpa [Munch.signs, hk] using hc
  | word _ => exact absurd hk (ne_of_mem_of_not_mem (Munch.wordKind_mem _) (by decide))
  | equals | assign | notEquals | bang | number | illegal => cases hk

theorem Token.Spelled.head_ne {t : Token} (h : t.Spelled) (hk : t.kind.prefixRule?.isSome) :
    ∃ c cs, t.literal.toList = c :: cs ∧ c ≠ '=' := by
  obtain ⟨c, cs, ht, -, hl⟩ := h
  exact ⟨c, cs, ht, (Munch.lexeme_eq_iff.1 hl).head_ne hk⟩

theorem Token.Spelled.unplaced_openParen {t : Token} (h : t.Spelled) (hk : t.kind = .openParen) :
    t.unplaced = (Token.sign .openParen '(').unplaced := by
  obtain ⟨c, cs, ht, -, hl⟩ := h
  rw [Token.unplaced_inj, hk, ← String.ofList_toList (s := t.literal), ht,
    (Munch.lexeme_eq_iff.1 hl).openParen hk]
  exact ⟨rfl, rfl⟩

/-! ## Expressions -/

/-- The text of the expression is a writing of it, and no operator in front joins it. -/
def Expr.Renders (e : Expr) : Prop :=
  ∃ ts e', Expr.Written e' ts .call e.renderNeed ∧ e'.unplaced = e.unplaced ∧
    (∃ c cs, e.render.toList = c :: cs ∧ c ≠ '=') ∧
    ∀ after, Munch.Stops after →
      lexed (e.render.toList ++ after) = ts.map Token.unplaced ++ lexed after

/-- The text of the arguments, each behind a comma, is a writing of them. -/
def Expr.MoreRenders (es : List Expr) : Prop :=
  ∃ ts es', Expr.MoreWritten es' ts (Expr.listRenderNeed es) ∧
    es'.map Expr.unplaced = es.map Expr.unplaced ∧
    ∀ after, Munch.Stops after →
      lexed ((Expr.renderMore es).toList ++ after) = ts.map Token.unplaced ++ lexed after

/-- The text of the arguments is a writing of them. -/
def Expr.ListRenders (es : List Expr) : Prop :=
  ∃ ts es', Expr.ListWritten es' ts (Expr.listRenderNeed es) ∧
    es'.map Expr.unplaced = es.map Expr.unplaced ∧
    ∀ after, Munch.Stops after →
      lexed ((Expr.renderArguments es).toList ++ after) = ts.map Token.unplaced ++ lexed after

/-- A single token is a writing of what it spells. -/
theorem Token.Scanned.renders {t : Token} {e e' : Expr} (h : t.Scanned)
    (hk : t.kind.prefixRule?.isSome) (hrender : e.render = t.literal) (hneed : e.renderNeed = 1)
    (hw : e'.Written [t] .call 1) (he : e'.unplaced = e.unplaced) : e.Renders := by
  have hs := h.spelled (by rintro heof; rw [heof] at hk; cases hk)
  refine ⟨[t], e', hneed ▸ hw, he, hrender ▸ hs.head_ne hk, fun after hstop => ?_⟩
  rw [hrender]
  exact hs.lexed fun d hd => hstop d hd t.kind

theorem Expr.Renders.identifier {t : Token} (ht : t.Scanned) (hk : t.kind = .identifier) :
    Expr.Renders (.identifier (.ofToken t)) :=
  ht.renders (by rw [hk]; rfl) rfl rfl (.identifier hk) rfl

theorem Expr.Renders.integer {site : Site} {value : Int64} (ht : site.token.Scanned)
    (hk : site.token.kind = .int) (hv : Text.integer? site.token.literal = some value) :
    Expr.Renders (.integer site value) :=
  ht.renders (by rw [hk]; rfl) rfl rfl (.integer hk hv) (by simp [Site.unplaced_inj])

theorem Expr.Renders.boolean {site : Site} (ht : site.token.Scanned)
    (hk : site.token.kind = .kwTrue ∨ site.token.kind = .kwFalse) :
    Expr.Renders (.boolean site (site.token.kind = .kwTrue)) := by
  refine ht.renders ?_ rfl rfl (.boolean hk) (by simp [Site.unplaced_inj])
  rcases hk with hk | hk <;> rw [hk] <;> rfl

theorem Expr.Renders.unary {site : Site} {right : Expr} (ht : site.token.Scanned)
    (hk : site.token.kind.prefixRule? = some .unary) (hr : right.Renders) :
    (Expr.unary site site.token.literal right).Renders := by
  obtain ⟨ts, right', hw, hright, ⟨c, cs, hcs, hc⟩, hlex⟩ := hr
  have hs := ht.spelled (by rintro heof; rw [heof] at hk; cases hk)
  have htext : (Expr.unary site site.token.literal right).render.toList =
      '(' :: (site.token.literal.toList ++ (right.render.toList ++ [')'])) := by
    simp [Expr.render]
  refine ⟨_, _, .group (o := .sign .openParen '(') (c := .sign .closeParen ')') rfl
    (.unary hk hw (by decide)) rfl, ?_, ⟨_, _, htext, by decide⟩, fun after _ => ?_⟩
  · simp [hright, Site.unplaced_inj, Site.ofTokens]
  · have hjoin : ∀ d ∈ (right.render.toList ++ ')' :: after).head?,
        site.token.kind.goesOn d = false := by
      intro d hd
      rw [hcs] at hd
      cases hd
      have hmem := TokenKind.prefixRule?_eq_some_iff.1 hk
      simp only [TokenKind.ofPrefixRule, List.mem_cons, List.not_mem_nil, or_false] at hmem
      rcases hmem with hmem | hmem <;> rw [hmem] <;> simp [TokenKind.goesOn, hc]
    calc lexed ((Expr.unary site site.token.literal right).render.toList ++ after)
        = lexed ('(' :: (site.token.literal.toList ++ (right.render.toList ++ ')' :: after))) := by
          rw [htext]
          simp
      _ = _ := by
          rw [Token.lexed_sign rfl rfl, hs.lexed hjoin, hlex _ (Munch.stops_cons (by decide) _),
            Token.lexed_sign rfl rfl]
          simp

theorem Expr.Renders.binary {site : Site} {left right : Expr} (ht : site.token.Scanned)
    (hk : site.token.kind.infixRule? = some .binary) (hl : left.Renders) (hr : right.Renders) :
    (Expr.binary site site.token.literal left right).Renders := by
  obtain ⟨ts, left', hwl, hleft, -, hlexl⟩ := hl
  obtain ⟨us, right', hwr, hright, -, hlexr⟩ := hr
  have hs := ht.spelled (by rintro heof; rw [heof] at hk; cases hk)
  have htext : (Expr.binary site site.token.literal left right).render.toList =
      '(' :: (left.render.toList ++ ' ' :: (site.token.literal.toList ++ ' ' ::
        (right.render.toList ++ [')']))) := by
    simp [Expr.render]
  refine ⟨_, _, .group (o := .sign .openParen '(') (c := .sign .closeParen ')') rfl
    (.binary hwl hk hwr (Power.le_call _)
      (Power.lt_of_lt_of_le (TokenKind.power_lt_unary hk) (Power.le_call _))) rfl, ?_,
    ⟨_, _, htext, by decide⟩, fun after _ => ?_⟩
  · simp [hleft, hright, Site.unplaced_inj]
  · calc lexed ((Expr.binary site site.token.literal left right).render.toList ++ after)
        = lexed ('(' :: (left.render.toList ++ ' ' :: (site.token.literal.toList ++ ' ' ::
            (right.render.toList ++ ')' :: after)))) := by
          rw [htext]
          simp
      _ = _ := by
          rw [Token.lexed_sign rfl rfl, hlexl _ (Munch.stops_cons (by decide) _),
            Munch.lexed_layout rfl, hs.lexed_blank, hlexr _ (Munch.stops_cons (by decide) _), Token.lexed_sign rfl rfl]
          simp

theorem Expr.Renders.call {site : Site} {callee : Expr} {es : List Expr}
    (ht : site.token.Scanned) (hk : site.token.kind = .openParen) (hf : callee.Renders)
    (hes : Expr.ListRenders es) : (Expr.call site callee es).Renders := by
  obtain ⟨ts, callee', hwf, hcallee, ⟨c, cs, hcs, hc⟩, hlexf⟩ := hf
  obtain ⟨us, es', hwes, hes, hlexes⟩ := hes
  have hs := ht.spelled (by rw [hk]; decide)
  have htext : (Expr.call site callee es).render.toList =
      callee.render.toList ++ '(' :: ((Expr.renderArguments es).toList ++ [')']) := by
    simp [Expr.render]
  refine ⟨_, _, .call (o := site.token) (c := .sign .closeParen ')') hwf hk hwes rfl, ?_,
    ⟨c, _, by rw [htext, hcs, List.cons_append], hc⟩, fun after _ => ?_⟩
  · simp [hcallee, hes, Site.unplaced_inj]
  · calc lexed ((Expr.call site callee es).render.toList ++ after)
        = lexed (callee.render.toList ++ '(' :: ((Expr.renderArguments es).toList ++
            ')' :: after)) := by
          rw [htext]
          simp
      _ = _ := by
          rw [hlexf _ (Munch.stops_cons (by decide) _), Token.lexed_sign rfl rfl,
            hlexes _ (Munch.stops_cons (by decide) _), Token.lexed_sign rfl rfl,
            ← hs.unplaced_openParen hk]
          simp

theorem Expr.MoreRenders.nil : Expr.MoreRenders [] :=
  ⟨[], [], .nil, rfl, fun after _ => by simp [Expr.renderMore]⟩

/-- No token goes on with a comma, and none with what comes behind the last argument. -/
theorem Expr.stops_renderMore (es : List Expr) {after : List Char} (h : Munch.Stops after) :
    Munch.Stops ((Expr.renderMore es).toList ++ after) := by
  cases es with
  | nil => simpa [Expr.renderMore] using h
  | cons e es =>
    simp only [Expr.renderMore, String.toList_append, List.append_assoc]
    exact Munch.stops_cons (by decide) _

theorem Expr.MoreRenders.cons {e : Expr} {es : List Expr} (he : e.Renders)
    (hes : Expr.MoreRenders es) : Expr.MoreRenders (e :: es) := by
  obtain ⟨ts, e', hw, he', -, hlex⟩ := he
  obtain ⟨us, es', hws, hes', hlexs⟩ := hes
  have hcomma : (Token.sign .comma ',').kind = .comma := rfl
  refine ⟨_, e' :: es', .cons hcomma hw hws, by simp [he', hes'], fun after hstop => ?_⟩
  calc lexed ((Expr.renderMore (e :: es)).toList ++ after)
      = lexed (',' :: ' ' :: (e.render.toList ++ ((Expr.renderMore es).toList ++ after))) := by
        simp [Expr.renderMore]
    _ = _ := by
        rw [Token.lexed_sign rfl rfl, Munch.lexed_layout rfl,
          hlex _ (Expr.stops_renderMore es hstop), hlexs _ hstop]
        simp

theorem Expr.ListRenders.nil : Expr.ListRenders [] :=
  ⟨[], [], .nil, rfl, fun after _ => by simp [Expr.renderArguments]⟩

theorem Expr.ListRenders.cons {e : Expr} {es : List Expr} (he : e.Renders)
    (hes : Expr.MoreRenders es) : Expr.ListRenders (e :: es) := by
  obtain ⟨ts, e', hw, he', -, hlex⟩ := he
  obtain ⟨us, es', hws, hes', hlexs⟩ := hes
  refine ⟨_, e' :: es', .cons hw hws, by simp [he', hes'], fun after hstop => ?_⟩
  calc lexed ((Expr.renderArguments (e :: es)).toList ++ after)
      = lexed (e.render.toList ++ ((Expr.renderMore es).toList ++ after)) := by
        simp [Expr.renderArguments]
    _ = _ := by
        rw [hlex _ (Expr.stops_renderMore es hstop), hlexs _ hstop]
        simp

mutual

/-- The text of an expression that agrees with its tokens and has no block is a writing of
the expression. -/
theorem Expr.renders : ∀ {e : Expr}, e.Consistent Token.Scanned → e.isBraceFree → e.Renders
  | .identifier id, h, _ => by
      obtain ⟨t, ht, hk, rfl⟩ := h
      exact Expr.Renders.identifier ht hk
  | .integer site value, h, _ => by
      obtain ⟨ht, hk, hv⟩ := h
      exact Expr.Renders.integer ht hk hv
  | .boolean site value, h, _ => by
      obtain ⟨ht, hk, rfl⟩ := h
      exact Expr.Renders.boolean ht hk
  | .unary site operator right, h, hb => by
      obtain ⟨ht, hk, rfl, hr⟩ := h
      exact Expr.Renders.unary ht hk (Expr.renders hr hb)
  | .binary site operator left right, h, hb => by
      obtain ⟨ht, hk, rfl, hl, hr⟩ := h
      have hb := Bool.and_eq_true_iff.1 hb
      exact Expr.Renders.binary ht hk (Expr.renders hl hb.1) (Expr.renders hr hb.2)
  | .conditional site condition consequence alternative, _, hb => by cases hb
  | .function site parameters body, _, hb => by cases hb
  | .call site callee es, h, hb => by
      obtain ⟨ht, hk, hf, hes⟩ := h
      have hb := Bool.and_eq_true_iff.1 hb
      exact Expr.Renders.call ht hk (Expr.renders hf hb.1) (Expr.listRenders hes hb.2)

theorem Expr.listRenders :
    ∀ {es : List Expr}, Expr.ListConsistent Token.Scanned es → Expr.allBraceFree es →
      Expr.ListRenders es
  | [], _, _ => .nil
  | _ :: _, h, hb => by
      have hb := Bool.and_eq_true_iff.1 hb
      exact .cons (Expr.renders h.1 hb.1) (Expr.moreRenders h.2 hb.2)

theorem Expr.moreRenders :
    ∀ {es : List Expr}, Expr.ListConsistent Token.Scanned es → Expr.allBraceFree es →
      Expr.MoreRenders es
  | [], _, _ => .nil
  | _ :: _, h, hb => by
      have hb := Bool.and_eq_true_iff.1 hb
      exact .cons (Expr.renders h.1 hb.1) (Expr.moreRenders h.2 hb.2)

end

/-! ## Statements -/

/-- The text of the statement, in front of a text that no token goes on with, is a writing
of it.  Only an expression has no semicolon. -/
def Stmt.Renders (s : Stmt) : Prop :=
  ∃ ts s' semicolon?, Stmt.Written s' ts s.value.renderNeed semicolon? ∧ s'.bare = s.bare ∧
    (semicolon? = none → s.isExpression) ∧
    ∀ after, (s.isExpression → after = []) →
      lexed (s.render.toList ++ after) = ts.map Token.unplaced ++ lexed after

theorem Stmt.Renders.binding {site : Site} {t : Token} {value : Expr} (hs : site.token.Scanned)
    (hk : site.token.kind = .kwLet) (ht : t.Scanned) (hkt : t.kind = .identifier)
    (hv : value.Renders) : (Stmt.binding site (.ofToken t) value).Renders := by
  obtain ⟨ts, e', hw, he, -, hlex⟩ := hv
  have hs := hs.spelled (by rw [hk]; decide)
  have ht := ht.spelled (by rw [hkt]; decide)
  have hassign : (Token.sign .assign '=').kind = .assign := rfl
  refine ⟨_, _, some (.sign .semicolon ';'), .binding hk hkt hassign hw (by simp [Token.sign]), ?_,
    by simp, fun after _ => ?_⟩
  · simp [Stmt.bare, he, Site.unplaced_inj, Site.ofTokens]
  · calc lexed ((Stmt.binding site (.ofToken t) value).render.toList ++ after)
        = lexed (site.token.literal.toList ++ ' ' :: (t.literal.toList ++ ' ' :: '=' :: ' ' ::
            (value.render.toList ++ ';' :: after))) := by
          simp [Stmt.render, Identifier.ofToken]
      _ = _ := by
          rw [hs.lexed_blank, ht.lexed_blank, Token.lexed_assign,
            hlex _ (Munch.stops_cons (by decide) _), Token.lexed_sign rfl rfl]
          simp

theorem Stmt.Renders.result {site : Site} {value : Expr} (hs : site.token.Scanned)
    (hk : site.token.kind = .kwReturn) (hv : value.Renders) : (Stmt.result site value).Renders := by
  obtain ⟨ts, e', hw, he, -, hlex⟩ := hv
  have hs := hs.spelled (by rw [hk]; decide)
  refine ⟨_, _, some (.sign .semicolon ';'), .result hk hw (by simp [Token.sign]), ?_, by simp,
    fun after _ => ?_⟩
  · simp [Stmt.bare, he, Site.unplaced_inj, Site.ofTokens]
  · calc lexed ((Stmt.result site value).render.toList ++ after)
        = lexed (site.token.literal.toList ++ ' ' :: (value.render.toList ++ ';' :: after)) := by
          simp [Stmt.render]
      _ = _ := by
          rw [hs.lexed_blank, hlex _ (Munch.stops_cons (by decide) _), Token.lexed_sign rfl rfl]
          simp

theorem Stmt.Renders.expression {site : Site} {value : Expr} (hv : value.Renders) :
    (Stmt.expression site value).Renders := by
  obtain ⟨ts, e', hw, he, -, hlex⟩ := hv
  refine ⟨_, _, none, .expression hw (by simp), by simp [Stmt.bare, he], by simp [isExpression],
    fun after hafter => ?_⟩
  obtain rfl := hafter rfl
  simpa [Stmt.render] using hlex [] Munch.stops_nil

theorem Stmt.renders {s : Stmt} (h : s.Consistent Token.Scanned) (hb : s.value.isBraceFree) :
    s.Renders := by
  cases s with
  | binding site name value =>
    obtain ⟨hs, hk, ⟨t, ht, hkt, rfl⟩, hv⟩ := h
    exact Stmt.Renders.binding hs hk ht hkt (Expr.renders hv hb)
  | result site value =>
    obtain ⟨hs, hk, hv⟩ := h
    exact Stmt.Renders.result hs hk (Expr.renders hv hb)
  | expression site value =>
    obtain ⟨-, -, hv⟩ := h
    exact Stmt.Renders.expression (Expr.renders hv hb)

/-- The most expressions inside each other in the text of a statement. -/
def Stmt.listRenderNeed (ss : List Stmt) : Nat :=
  ss.foldr (fun s n => max s.value.renderNeed n) 0

theorem Stmt.ListWritten.eq_nil {ts : List Token} {n : Nat} (h : Stmt.ListWritten [] ts n) :
    ts = [] := by
  cases h
  rfl

theorem Stmt.listRenders {ss : List Stmt} (h : Stmt.ListConsistent Token.Scanned ss)
    (hb : ∀ s ∈ ss, s.value.isBraceFree) (hlast : ∀ s ∈ ss.dropLast, s.isExpression = false) :
    ∃ ts ss', Stmt.ListWritten ss' ts (Stmt.listRenderNeed ss) ∧
      ss'.map Stmt.bare = ss.map Stmt.bare ∧
      lexed (Stmt.renderAll ss).toList = ts.map Token.unplaced := by
  induction ss with
  | nil => exact ⟨[], [], .nil, rfl, by simp [Stmt.renderAll, Munch.lexed_nil]⟩
  | cons s ss ih =>
    obtain ⟨ts, s', semicolon?, hw, hs, hsemi, hlex⟩ := Stmt.renders h.1 (hb s List.mem_cons_self)
    have htail : ∀ u ∈ ss.dropLast, u.isExpression = false := by
      intro u hu
      cases ss with
      | nil => cases hu
      | cons v ss => exact hlast u (.tail _ hu)
    obtain ⟨us, ss', hws, hss, hlexs⟩ := ih h.2 (fun u hu => hb u (.tail _ hu)) htail
    have hend : s.isExpression → ss = [] := by
      intro he
      cases ss with
      | nil => rfl
      | cons u ss =>
        rw [hlast s (by simp)] at he
        cases he
    refine ⟨ts ++ us, s' :: ss', .cons hw ?_ hws, by simp [hs, hss], ?_⟩
    · intro hnone
      rw [hend (hsemi hnone)] at hss
      obtain rfl := List.map_eq_nil_iff.1 hss
      rw [hws.eq_nil]
      exact nofun
    · rw [Stmt.renderAll, String.toList_append, hlex _ ?_, hlexs, List.map_append]
      intro he
      rw [hend he]
      rfl

theorem Stmt.listRenderNeed_le_iff {ss : List Stmt} {n : Nat} :
    Stmt.listRenderNeed ss ≤ n ↔ ∀ s ∈ ss, s.value.renderNeed ≤ n := by
  induction ss with
  | nil => simp [Stmt.listRenderNeed]
  | cons s ss ih =>
    rw [List.forall_mem_cons, ← ih]
    exact Nat.max_le

/-- The text of a plain program is scanned as a writing of it. -/
theorem Program.Plain.renders {P : Program} (h : P.Plain) (file? : Option String) :
    ∃ ts Q, Program.Written Q ts (Stmt.listRenderNeed P.body) ∧
      Q.body.map Stmt.bare = P.body.map Stmt.bare ∧
      (tokenize P.render file?).map Token.unplaced = ts.map Token.unplaced := by
  obtain ⟨ts, ss, hw, hss, hlex⟩ := Stmt.listRenders h.consistent h.braceFree h.expression_last
  refine ⟨ts ++ [⟨.eof, "\x00", ⟨.nowhere, .nowhere⟩⟩], _, .mk hw rfl, hss, ?_⟩
  rw [Munch.tokenize_unplaced, Program.render, hlex, List.map_append]
  rfl

end ExprLang
