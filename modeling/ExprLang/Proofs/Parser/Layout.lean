import ExprLang.Proofs.Grammar.Replaced
import ExprLang.Proofs.Parser.InStep
import ExprLang.Proofs.Parser.Stream
import ExprLang.Tree.Render
import Mathlib.Data.List.Forall2

/-!
# Layout and file names

How a source is laid out and what its file is called has no influence on its parse.  Two
sources whose tokens agree in their kinds and texts give programs that differ in their places
only, and diagnostics that differ in their places only, each for the same token
(`parse_replaced`).

The parses are compared token by token.  Their cursors have advanced equally often
(`Cursor.Abreast`), and so they stand on tokens of one index (`Token.AtOneIndex`), which are
the same but for their places.
-/

namespace ExprLang

/-! ## The text of a tree -/

theorem renderParameters_move (h : Position → Position) (ids : List Identifier) :
    renderParameters (ids.map (·.move h)) = renderParameters ids := by
  rw [renderParameters, renderParameters, List.map_map]
  rfl

mutual

/-- A tree has the same text at every place. -/
theorem Expr.render_move (h : Position → Position) : ∀ e : Expr, (e.move h).render = e.render
  | .identifier _ => rfl
  | .integer _ _ => rfl
  | .boolean _ _ => rfl
  | .unary _ operator right => by
    show "(" ++ operator ++ (right.move h).render ++ ")" = "(" ++ operator ++ right.render ++ ")"
    rw [right.render_move h]
  | .binary _ operator left right => by
    show "(" ++ (left.move h).render ++ " " ++ operator ++ " " ++ (right.move h).render ++ ")" =
      "(" ++ left.render ++ " " ++ operator ++ " " ++ right.render ++ ")"
    rw [left.render_move h, right.render_move h]
  | .conditional _ condition consequence alternative => by
    show "if" ++ (condition.move h).render ++ " " ++ (consequence.move h).render ++
        Block.renderElse (Block.moveOption h alternative) =
      "if" ++ condition.render ++ " " ++ consequence.render ++ Block.renderElse alternative
    rw [condition.render_move h, consequence.render_move h, Block.renderElse_move h alternative]
  | .function site parameters body => by
    show site.token.literal ++ "(" ++ renderParameters (parameters.map (·.move h)) ++ ") " ++
        (body.move h).render =
      site.token.literal ++ "(" ++ renderParameters parameters ++ ") " ++ body.render
    rw [renderParameters_move h parameters, body.render_move h]
  | .call _ callee arguments => by
    show (callee.move h).render ++ "(" ++ Expr.renderArguments (Expr.moveList h arguments) ++ ")" =
      callee.render ++ "(" ++ Expr.renderArguments arguments ++ ")"
    rw [callee.render_move h, Expr.renderArguments_move h arguments]

theorem Expr.renderArguments_move (h : Position → Position) :
    ∀ es : List Expr, Expr.renderArguments (Expr.moveList h es) = Expr.renderArguments es
  | [] => rfl
  | e :: es => congrArg₂ (· ++ ·) (e.render_move h) (Expr.renderMore_move h es)

theorem Expr.renderMore_move (h : Position → Position) :
    ∀ es : List Expr, Expr.renderMore (Expr.moveList h es) = Expr.renderMore es
  | [] => rfl
  | e :: es => by
    show ", " ++ (e.move h).render ++ Expr.renderMore (Expr.moveList h es) =
      ", " ++ e.render ++ Expr.renderMore es
    rw [e.render_move h, Expr.renderMore_move h es]

theorem Block.render_move (h : Position → Position) : ∀ b : Block, (b.move h).render = b.render
  | .mk _ body => Stmt.renderAll_move h body

theorem Block.renderElse_move (h : Position → Position) :
    ∀ a : Option Block, Block.renderElse (Block.moveOption h a) = Block.renderElse a
  | none => rfl
  | some b => congrArg ("else " ++ ·) (b.render_move h)

theorem Stmt.render_move (h : Position → Position) : ∀ s : Stmt, (s.move h).render = s.render
  | .binding site name value => by
    show site.token.literal ++ " " ++ name.name ++ " = " ++ (value.move h).render ++ ";" =
      site.token.literal ++ " " ++ name.name ++ " = " ++ value.render ++ ";"
    rw [value.render_move h]
  | .result site value => by
    show site.token.literal ++ " " ++ (value.move h).render ++ ";" =
      site.token.literal ++ " " ++ value.render ++ ";"
    rw [value.render_move h]
  | .expression _ value => value.render_move h

theorem Stmt.renderAll_move (h : Position → Position) :
    ∀ ss : List Stmt, Stmt.renderAll (Stmt.moveList h ss) = Stmt.renderAll ss
  | [] => rfl
  | s :: ss => congrArg₂ (· ++ ·) (s.render_move h) (Stmt.renderAll_move h ss)

end

/-- Programs that are equal without their places have the same text. -/
theorem Program.render_eq_of_unplaced {P Q : Program} (h : P.unplaced = Q.unplaced) :
    P.render = Q.render := by
  have hall (R : Program) : R.render = R.unplaced.render := (Stmt.renderAll_move _ R.body).symm
  rw [hall P, hall Q, h]

/-! ## Sources that differ in their layout -/

/-- Tokens that agree in their kinds and texts agree except for their places. -/
theorem Token.Agree.of_map_eq {ts us : List Token}
    (h : us.map (fun t => (t.kind, t.literal)) = ts.map fun t => (t.kind, t.literal)) :
    Token.Agree ts us := by
  have hplaced := congrArg
    (List.map fun r : TokenKind × String => (⟨r.1, r.2, ⟨.nowhere, .nowhere⟩⟩ : Token)) h
  rwa [List.map_map, List.map_map] at hplaced

/-- The tokens stand at one index in two lists. -/
def Token.AtOneIndex (ts us : List Token) (t u : Token) : Prop :=
  ∃ n : Nat, ts[n]? = some t ∧ us[n]? = some u

theorem Token.Agree.unplaced_eq {ts us : List Token} {t u : Token} (h : Token.Agree ts us)
    (htu : Token.AtOneIndex ts us t u) : t.unplaced = u.unplaced := by
  obtain ⟨n, ht, hu⟩ := htu
  have hn : us[n]?.map Token.unplaced = ts[n]?.map Token.unplaced := by
    rw [← List.getElem?_map, ← List.getElem?_map, h]
  rw [ht, hu] at hn
  exact (Option.some.inj hn).symm

theorem Token.Agree.length_eq {ts us : List Token} (h : Token.Agree ts us) :
    us.length = ts.length := by
  rw [← List.length_map Token.unplaced, h, List.length_map]

/-- Do two diagnostics say the same, of tokens that stand at one index in two lists? -/
structure Diagnostic.Alike (ts us : List Token) (d e : Diagnostic) : Prop where
  /-- They have one cause. -/
  cause_eq : d.cause = e.cause
  /-- They blame tokens of one index. -/
  blames : ∃ n, d.Blames ts n ∧ e.Blames us n

section

variable {source other : String} {file? otherFile? : Option String}

/-- Have the cursors of two sources advanced equally often? -/
structure Cursor.Abreast (source other : String) (file? otherFile? : Option String)
    (c d : Cursor) : Prop where
  index_eq : c.index = d.index
  /-- The first one is a cursor of the first source. -/
  left : (ofScanner (.ofSource source file?)).Reaches c
  /-- The second one is a cursor of the other source. -/
  right : (ofScanner (.ofSource other otherFile?)).Reaches d

namespace Cursor.Abreast

variable {c d : Cursor}

theorem ofSource : Abreast source other file? otherFile? (ofScanner (.ofSource source file?))
    (ofScanner (.ofSource other otherFile?)) := ⟨rfl, .refl _, .refl _⟩

theorem advance (h : Abreast source other file? otherFile? c d) :
    Abreast source other file? otherFile? c.advance d.advance :=
  ⟨congrArg (· + 1) h.index_eq, h.left.trans (.advance c), h.right.trans (.advance d)⟩

/-- Where the tokens agree, the cursors have tokens of one index in front of them. -/
theorem stream (h : Abreast source other file? otherFile? c d)
    (ha : Token.Agree (tokenize source file?) (tokenize other otherFile?)) (n : Nat) :
    Token.AtOneIndex (tokenize source file?) (tokenize other otherFile?) (c.stream n)
      (d.stream n) := by
  refine ⟨_, h.left.getElem?_tokenize n, ?_⟩
  rw [h.index_eq, ← ha.length_eq]
  exact h.right.getElem?_tokenize n

end Cursor.Abreast

/-! ## The parses are the same -/

/-- The same for tokens of one index, wherever they stand. -/
def Likeness.replaced (hsize : source.utf8ByteSize < UInt32.size)
    (hother : other.utf8ByteSize < UInt32.size)
    (ha : Token.Agree (tokenize source file?) (tokenize other otherFile?)) : Likeness where
  left _ := .nowhere
  right _ := .nowhere
  Tokens := Token.AtOneIndex (tokenize source file?) (tokenize other otherFile?)
  Cursors := Cursor.Abreast source other file? otherFile?
  Edge := NoEdge
  Recorded := List.Forall₂ (Diagnostic.Alike (tokenize source file?) (tokenize other otherFile?))
  move_eq h := ha.unplaced_eq h
  current h := h.stream ha 0
  peek h _ := h.stream ha 1
  advance h _ := h.advance
  pass h _ := .inl h.advance
  eof_of_edge h := h.eof
  record cause hds htu := by
    obtain ⟨n, ht, hu⟩ := htu
    refine List.rel_append hds (.cons ⟨rfl, n, ?_, ?_⟩ .nil)
    · exact Diagnostic.blames_of_getElem? hsize ht rfl
    · exact Diagnostic.blames_of_getElem? hother hu rfl

theorem Parser.depth_reset (p : Parser) : p.reset.depth = 0 := rfl

/-- From parsers that correspond, all statements and diagnostics are the same but for their
places. -/
theorem Parser.topLevel_replaced {hsize : source.utf8ByteSize < UInt32.size}
    {hother : other.utf8ByteSize < UInt32.size}
    {ha : Token.Agree (tokenize source file?) (tokenize other otherFile?)} {p q : Parser}
    (hp : (Likeness.replaced hsize hother ha).Parsers p q) :
    (topLevel #[] p).1.toList.map Stmt.unplaced = (topLevel #[] q).1.toList.map Stmt.unplaced ∧
      List.Forall₂ (Diagnostic.Alike (tokenize source file?) (tokenize other otherFile?))
        (topLevel #[] p).2.diagnostics.toList (topLevel #[] q).2.diagnostics.toList := by
  have hL : (Likeness.replaced hsize hother ha).Lasting := ⟨fun hc => hc.advance, id⟩
  have hnone : (Likeness.replaced hsize hother ha).SameAll Stmt.move #[] #[] := rfl
  obtain ⟨hbody, hparsers⟩ := topLevel_inStep hL hnone hp
  exact ⟨hbody, hparsers.recorded⟩

/-- Neither the layout of a source nor the name of its file has an influence on its parse.  Where
the tokens of two sources agree in their kinds and texts, the programs are equal without their
places and have the same text.  There are as many diagnostics of the one as of the other, and
each has the cause of its counterpart, so the same name, message and tip, and blames the token
of the same index. -/
theorem parse_replaced (hsize : source.utf8ByteSize < UInt32.size)
    (hother : other.utf8ByteSize < UInt32.size)
    (h : (tokenize source file?).map (fun t => (t.kind, t.literal)) =
      (tokenize other otherFile?).map fun t => (t.kind, t.literal)) :
    (parse source file?).1.unplaced = (parse other otherFile?).1.unplaced ∧
      (parse source file?).1.render = (parse other otherFile?).1.render ∧
      List.Forall₂ (fun d e => d.cause = e.cause ∧ d.name = e.name ∧ d.message = e.message ∧
          d.tip? = e.tip? ∧ ∃ n, d.Blames (tokenize source file?) n ∧
            e.Blames (tokenize other otherFile?) n)
        (parse source file?).2.diagnostics.toList
        (parse other otherFile?).2.diagnostics.toList := by
  have ha := Token.Agree.of_map_eq h.symm
  have hstart : (Likeness.replaced hsize hother ha).Parsers
      (Parser.ofScanner (.ofSource source file?)).reset
      (Parser.ofScanner (.ofSource other otherFile?)).reset :=
    ⟨.ofSource, (Parser.depth_reset _).trans (Parser.depth_reset _).symm, .nil⟩
  obtain ⟨hbody, hdiagnostics⟩ := Parser.topLevel_replaced hstart
  have hunplaced : (parse source file?).1.unplaced = (parse other otherFile?).1.unplaced :=
    Program.unplaced_inj.2 hbody
  refine ⟨hunplaced, Program.render_eq_of_unplaced hunplaced, ?_⟩
  refine hdiagnostics.imp fun d e hde => ?_
  have hcause := hde.cause_eq
  exact ⟨hcause, congrArg Cause.name hcause, congrArg Cause.message hcause,
    congrArg Cause.tip? hcause, hde.blames⟩

end

/-- A source in which three statements fail, on one line and on several. -/
theorem parse_replaced_broken :
    let source := "let a 1; f(2 é"
    let other := "\n\tlet a\r\n 1 ;f (\n2é "
    source.utf8ByteSize < UInt32.size ∧ other.utf8ByteSize < UInt32.size ∧
      (tokenize source none).map (fun t => (t.kind, t.literal)) =
        (tokenize other (some "b.x")).map (fun t => (t.kind, t.literal)) ∧
      (parse source none).1.render = (parse other (some "b.x")).1.render ∧
      (parse source none).2.diagnostics.toList.map (·.name) =
        ["UnexpectedToken", "UnexpectedToken", "NoPrefixParseFn"] ∧
      (parse source none).2.diagnostics.toList.length =
        (parse other (some "b.x")).2.diagnostics.toList.length := by
  intro source other
  have hsize : source.utf8ByteSize < UInt32.size := by decide
  have hother : other.utf8ByteSize < UInt32.size := by decide
  have htokens : (tokenize source none).map (fun t => (t.kind, t.literal)) =
      (tokenize other (some "b.x")).map (fun t => (t.kind, t.literal)) := by decide +kernel
  obtain ⟨-, hrender, halike⟩ := parse_replaced hsize hother htokens
  exact ⟨hsize, hother, htokens, hrender, by decide +kernel, halike.length_eq⟩

end ExprLang
