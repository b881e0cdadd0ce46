import ExprLang.Proofs.Grammar.Parts
import ExprLang.Proofs.Parser.Completeness
import ExprLang.Proofs.Parser.Nested
import ExprLang.Proofs.Parser.Resumption
import ExprLang.Proofs.Parser.Soundness
import ExprLang.Proofs.Token.Excerpt

/-!
# Parsing what a node covers

In a source that is parsed without a diagnostic, the text that an expression covers is parsed by
itself to the expression, if the parentheses in the text are balanced (`parse_excerpt`).  They need
not be.  An infix expression and a call start where their first operand does, and so leave out the
opening parentheses in front of it, of which they cover the closing ones.  With these put back the
text is parsed to the expression again.

An expression is written by tokens that stand one behind the other in the source
(`Stmt.ListWritten.each`).  The text over these tokens is scanned as them, further on
(`exists_excerpt`).  So it is parsed to what they write, further on (`Expr.Written.readFrom`).
-/

namespace ExprLang

open Utf8

/-- Is the expression what the text between two offsets of a source is parsed to by itself, without
a diagnostic and but for where the text starts? -/
def Expr.ReadFrom (e : Expr) (file? : Option String) (source : String) (lower upper : Nat) :
    Prop :=
  ∃ text, bytes text = (bytes source).extract lower upper ∧
    (parse text file?).2.diagnostics = #[] ∧
    ∃ site value, (parse text file?).1.body = [.expression site value] ∧
      value.move (Position.shift lower) = e

variable {source : String} {file? : Option String} {e : Expr} {ts us : List Token} {top : Power}
  {n : Nat}

/-! ## Texts of expressions -/

/-- An expression by itself is a statement. -/
theorem Expr.Written.statement (h : e.Written ts top n) :
    Stmt.ListWritten [.expression (.ofTokens ts) e] ts n := by
  have hs := @Stmt.Written.expression _ _ _ _ none h (by simp)
  simpa using Stmt.ListWritten.cons hs (by simp) .nil

/-- What the tokens of a text write further on in a source, the text is parsed to. -/
theorem Expr.Written.parse_text {before text : List Char} (h : e.Written ts top n)
    (hn : n ≤ Parser.depthLimit)
    (hts : Munch.place (file?.getD unnamedFile) (width before) (Munch.pieces text) = ts) :
    (parse (.ofList text) file?).2.diagnostics = #[] ∧
      ∃ site value, (parse (.ofList text) file?).1.body = [.expression site value] ∧
        value.move (Position.shift (width before)) = e := by
  let q := Parser.ofScanner ⟨file?.getD unnamedFile, encode text, width before⟩
  let last := Token.endOf (file?.getD unnamedFile) (width before + width text)
  -- Further on the text is parsed to the expression.
  have htokens : q.reset.cursor.tokens = ts ++ [last] := by
    rw [← hts, ← Munch.tokens_encode]
    exact Cursor.tokens_ofScanner _
  obtain ⟨r, hr⟩ := Parser.exists_reads h.ne_eof htokens
  have hq : Parser.topLevel #[] q.reset = (#[.expression (.ofTokens ts) e], r) := by
    have hlast : last.kind = .eof := rfl
    have heq := (Parser.topLevel_meets h.statement hlast #[] hr).eq hn
    rw [EStateM.Result.ok.injEq] at heq
    exact Prod.ext heq.1 heq.2
  have hprogram : q.program.1.body = [.expression (.ofTokens ts) e] ∧
      q.program.2.diagnostics = #[] := by
    rw [Parser.program, hq]
    exact ⟨rfl, hr.diagnostics_eq⟩
  -- By itself it is parsed to the same, but for the places.
  obtain ⟨hbody, hdiagnostics⟩ := Parser.program_moved
    (p := .ofScanner (.ofSource (.ofList text) file?)) (q := q)
    (Cursor.moved_ofScanner before text file?)
  rw [hprogram.1] at hbody
  rw [hprogram.2] at hdiagnostics
  refine ⟨Array.map_eq_empty_iff.1 hdiagnostics.symm, ?_⟩
  obtain ⟨s, hs, hmove⟩ := List.map_eq_singleton_iff.1 hbody.symm
  cases s with
  | expression site value => exact ⟨site, value, hs, (Stmt.expression.inj hmove).2⟩
  | binding _ _ _ => cases hmove
  | result _ _ => cases hmove

/-- Tokens of a source that write an expression are the text it is read from. -/
theorem Expr.Written.readFrom (h : e.Written ts top n) (hn : n ≤ Parser.depthLimit)
    (hsize : source.utf8ByteSize < UInt32.size)
    (hts : ts <:+: Munch.tokens (file?.getD unnamedFile) source.toList) :
    e.ReadFrom file? source (startOf ts).offset.toNat (stopOf ts).offset.toNat := by
  obtain ⟨before, text, hbefore, htext, hplace⟩ := exists_excerpt hsize hts h.ne_nil
  have hparse := h.parse_text hn hplace
  rw [hbefore] at hparse
  exact ⟨.ofList text, (bytes_ofList text).trans htext, hparse⟩

/-- Tokens of a source are balanced if anything is read from their text. -/
theorem Expr.ReadFrom.balanced
    (h : e.ReadFrom file? source (startOf ts).offset.toNat (stopOf ts).offset.toNat)
    (hsize : source.utf8ByteSize < UInt32.size)
    (hts : ts <:+: Munch.tokens (file?.getD unnamedFile) source.toList) (hne : ts ≠ []) :
    Balanced ts := by
  obtain ⟨text', htext', hquiet, -⟩ := h
  obtain ⟨before, text, -, htext, hplace⟩ := exists_excerpt hsize hts hne
  have hsame : text' = .ofList text := by
    rw [← text_bytes text', htext', ← text_encode, htext]
    rfl
  obtain ⟨us, k, last, htokens, -, hw, -, -⟩ := exists_written hquiet
  refine hw.balanced.of_kinds ?_
  rw [← hplace, eq_tokens_of_tokenize htokens, hsame, String.toList_ofList, Munch.tokens,
    Munch.place_kinds, Munch.place_kinds]

/-! ## Texts of nodes -/

/-- The expression that a node is, if it is one. -/
def Node.expr? : Node → Option Expr
  | .expr e => some e
  | _ => none

theorem Node.expr?_eq_some_iff {n : Node} {e : Expr} : n.expr? = some e ↔ n = .expr e := by
  cases n <;> simp [Node.expr?]

/-- The expressions of a source that is parsed without a diagnostic are parsed again, each by
itself.  In the text that an expression covers some opening parentheses may be missing, as many as
there are closing ones too many.  They stand right in front of it, and the text that starts with the
first of them is parsed to the expression, without a diagnostic.  So is the text that the expression
covers, just if none are missing. -/
theorem parse_excerpt {source : String} {file? : Option String}
    (hsize : source.utf8ByteSize < UInt32.size)
    (hquiet : (parse source file?).2.diagnostics = #[]) :
    ∀ row ∈ (parse source file?).1.outline, ∀ e, row.node = .expr e →
      ∃ opens inside, opens ++ inside <:+: tokenize source file? ∧
        (∀ t ∈ opens, t.kind = .openParen) ∧ inside ≠ [] ∧
        startOf inside = e.site.span.start ∧ stopOf inside = e.site.span.stop ∧
        opens.length + inside.countP (·.kind = .openParen) =
          inside.countP (·.kind = .closeParen) ∧
        e.ReadFrom file? source (startOf (opens ++ inside)).offset.toNat e.site.span.upper ∧
        (e.ReadFrom file? source e.site.span.lower e.site.span.upper ↔ opens = []) := by
  obtain ⟨all, k, last, htokens, -, hw, hk, -⟩ := exists_written hquiet
  have heach := (Program.each_iff_outline _).1 (hw.each List.infix_rfl hk)
  intro row hrow e he
  have hwritten := heach row hrow
  rw [he] at hwritten
  obtain ⟨ts, top, n, hts, he, hn, hstop⟩ := hwritten
  obtain ⟨opens, inside, rfl, hopens, hne, hstart⟩ := he.opens
  have hmissing := Balanced.length_opens hopens he.balanced
  have htokenize : opens ++ inside <:+: tokenize source file? :=
    htokens ▸ List.infix_append_of_infix_left hts
  rw [eq_tokens_of_tokenize htokens] at hts
  have hread : e.ReadFrom file? source (startOf (opens ++ inside)).offset.toNat
      e.site.span.upper := by
    rw [Span.upper, hstop]
    exact he.readFrom hn hsize hts
  have hinside : e.site.span.stop = stopOf inside := hstop.trans (stopOf_append opens hne)
  refine ⟨opens, inside, htokenize, hopens, hne, hstart.symm, hinside.symm, hmissing, hread,
    fun h => ?_, ?_⟩
  · rw [Span.lower, Span.upper, hstart, hinside] at h
    have hbalanced : _ = _ := h.balanced hsize hts.of_append_right hne
    rw [← hmissing] at hbalanced
    exact List.eq_nil_of_length_eq_zero (by omega)
  · rintro rfl
    rw [Span.lower, hstart]
    exact hread

/-- The product covers the closing parenthesis of its left operand and not the opening one. -/
theorem exists_product : ∃ row ∈ (parse "(a + b) * c" none).1.outline, ∃ e,
    row.node = .expr e ∧ e.site.span = .between "shell" 1 11 := by
  have hproduct : ∃ e ∈ (parse "(a + b) * c" none).1.outline.filterMap (·.node.expr?),
      e.site.span = .between "shell" 1 11 := by
    decide +kernel
  obtain ⟨e, he, hspan⟩ := hproduct
  obtain ⟨row, hrow, he⟩ := List.mem_filterMap.1 he
  exact ⟨row, hrow, e, Node.expr?_eq_some_iff.1 he, hspan⟩

theorem parse_excerpt_group :
    "(a + b) * c".utf8ByteSize < UInt32.size ∧ (parse "(a + b) * c" none).2.diagnostics = #[] ∧
      ∃ row ∈ (parse "(a + b) * c" none).1.outline, ∃ e, row.node = .expr e ∧
        e.site.span = .between "shell" 1 11 ∧ ∃ run, run <:+: tokenize "(a + b) * c" none ∧
          e.ReadFrom none "(a + b) * c" (startOf run).offset.toNat 11 := by
  have hsize : "(a + b) * c".utf8ByteSize < UInt32.size := by decide
  have hquiet : (parse "(a + b) * c" none).2.diagnostics = #[] := by decide +kernel
  obtain ⟨row, hrow, e, he, hspan⟩ := exists_product
  obtain ⟨opens, inside, hinfix, -, -, -, -, -, hread, -⟩ :=
    parse_excerpt hsize hquiet row hrow e he
  rw [hspan] at hread
  exact ⟨hsize, hquiet, row, hrow, e, he, hspan, _, hinfix, hread⟩

theorem parse_excerpt_fails :
    (parse "(a + b) * c" none).2.diagnostics = #[] ∧
      ∃ row ∈ (parse "(a + b) * c" none).1.outline, ∃ e, row.node = .expr e ∧
        e.site.span = .between "shell" 1 11 ∧
        ¬ e.ReadFrom none "(a + b) * c" e.site.span.lower e.site.span.upper := by
  obtain ⟨row, hrow, e, he, hspan⟩ := exists_product
  refine ⟨by decide +kernel, row, hrow, e, he, hspan, ?_⟩
  rw [hspan]
  rintro ⟨text, htext, hquiet, -⟩
  have hbytes : bytes text = bytes "a + b) * c" := htext.trans (by decide +kernel)
  have hsame : text = "a + b) * c" := by
    rw [← text_bytes text, hbytes, text_bytes]
  rw [hsame] at hquiet
  revert hquiet
  decide +kernel

end ExprLang
