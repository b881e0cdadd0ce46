import ExprLang.Proofs.Parser.Commands
import ExprLang.Proofs.Parser.Resumption

/-!
# Programs from anywhere in a source

A program may be parsed from any token that commands have led a parser to.  It is then the one
that the rest of the source gives by itself, from the start of that token on, and nothing that
was done before makes a difference (`Parser.program_after`).

Wherever a parser is led, the tokens it has left are those of the rest of the source, further
on (`Cursor.Reaches.exists_rest`).  And a parser that starts over has nothing else from before
but what it has left to read.
-/

namespace ExprLang

open Utf8

variable {source : String} {file? : Option String}

/-! ## The rest of the source -/

/-- The scanner at the start of some characters that do not start with layout gives a token
there. -/
theorem Scanner.start_next_encode (file : String) {text : List Char}
    (h : ∀ c ∈ text.head?, Munch.isLayout c = false) (n : Nat) :
    (⟨file, encode text, n⟩ : Scanner).next.1.span.start = .at file n := by
  have htake : text.takeWhile Munch.isLayout = [] := by
    cases text with
    | nil => rfl
    | cons c cs => rw [List.takeWhile_cons, h c rfl]; rfl
  rw [start_next, Munch.skipLayout_encode, htake]
  rfl

/-- The rest of a source from the start of the token that a cursor stands on has the tokens that
the cursor has left, further on. -/
theorem Cursor.Reaches.exists_rest {c : Cursor}
    (h : (Cursor.ofScanner (.ofSource source file?)).Reaches c) :
    ∃ before text, source.toList = before ++ text ∧
      c.tokens = (⟨file?.getD unnamedFile, encode text, width before⟩ : Scanner).tokens ∧
      c.current.span.start = .at (file?.getD unnamedFile) (width before) := by
  have hsuffix := (settled_ofSource source file?).tokens_suffix h
  rw [tokens_ofScanner] at hsuffix
  obtain ⟨pre, happ⟩ := hsuffix
  have htokens := happ.trans (tokenize_eq_append_endOf source file?)
  obtain ⟨us, hus⟩ := c.exists_tokens_eq
  rcases List.eq_nil_or_concat c.tokens with hnil | ⟨ts, last, hts⟩
  · rw [hnil] at hus
    cases hus
  rw [hts, List.concat_eq_append, ← List.append_assoc] at htokens
  obtain ⟨hfront, hlast⟩ := List.append_inj' htokens rfl
  obtain ⟨before, text, hsource, hhead, hplace⟩ := Munch.exists_rest hfront.symm
  have hwidth : source.utf8ByteSize = width before + width text := by
    rw [← width_toList, hsource, width_append]
  let s : Scanner := ⟨file?.getD unnamedFile, encode text, width before⟩
  have hs : c.tokens = s.tokens := by
    rw [hts, List.concat_eq_append, hlast, Munch.tokens_encode, hplace, hwidth]
  refine ⟨before, text, hsource, hs, ?_⟩
  have hcurrent : c.current = s.next.1 := by
    have hhead := congrArg List.head? hs
    rw [head?_tokens, ← tokens_ofScanner s, head?_tokens] at hhead
    exact Option.some.inj hhead
  rw [hcurrent, Scanner.start_next_encode _ hhead]

/-- Wherever a cursor is led, it has the tokens of the rest of the source, at their moved
places. -/
theorem Cursor.Reaches.exists_moved {c : Cursor}
    (h : (Cursor.ofScanner (.ofSource source file?)).Reaches c)
    (hsize : source.utf8ByteSize < UInt32.size) :
    ∃ rest, bytes rest = (bytes source).drop c.current.start ∧
      Cursor.Moved (.shift c.current.start) (.ofScanner (.ofSource rest file?)) c := by
  obtain ⟨before, text, hsource, htokens, hstart⟩ := h.exists_rest
  have hbytes : bytes source = encode before ++ encode text := by
    rw [bytes_eq_encode, hsource, encode_append]
  have hle : width before ≤ source.utf8ByteSize := width_le_of_append hsource
  have hoffset : c.current.start = width before := by
    rw [Token.start, hstart]
    exact Position.offset_at (Nat.lt_of_le_of_lt hle hsize)
  rw [hoffset]
  have hmoved := moved_ofScanner before text file?
  refine ⟨.ofList text, ?_, hmoved.settled, (settled_ofSource source file?).of_reaches h, ?_⟩
  · rw [hbytes, width, List.drop_left]
    exact bytes_ofList text
  · rw [hmoved.tokens_eq, tokens_ofScanner, htokens]

/-! ## Command after command -/

namespace Parser

/-- The parser after some commands, before each of which an expression may be at hand. -/
def after (p : Parser) (commands : List (Session.Command × Option Expr)) : Parser :=
  commands.foldl (fun q c => (Session.step ⟨q, c.2⟩ c.1).2.parser) p

/-- Commands only lead the cursor on. -/
theorem reaches_after (p : Parser) (commands : List (Session.Command × Option Expr)) :
    p.cursor.Reaches (p.after commands).cursor := by
  induction commands generalizing p with
  | nil => exact .refl _
  | cons c commands ih => exact (Session.step_keeps ⟨p, c.2⟩ c.1).1.trans (ih _)

/-! ## Programs -/

/-- At the end of the source there is an empty program, whatever was recorded before. -/
theorem program_of_eof {p : Parser} (h : p.current.kind = .eof) :
    p.program.1.body = [] ∧ p.program.2.diagnostics = #[] := by
  have hstop : topLevel #[] p.reset = (#[], p.reset) := by
    rw [topLevel_eq]
    exact if_pos h
  rw [program, hstop]
  exact ⟨rfl, rfl⟩

/-- A program is parsed afresh from wherever a parser is led.  Whatever commands were given before,
and whatever they have recorded and entered, from the token that the parser stands on the program
has the statements and the diagnostics of the rest of the source by itself, further on by as much as
is in front of the token.  The parser comes to the end, outside of every expression, and there
another program is empty. -/
theorem program_after (hsize : source.utf8ByteSize < UInt32.size)
    (commands : List (Session.Command × Option Expr)) :
    let p := (ofScanner (.ofSource source file?)).after commands
    let offset := p.current.start
    ∃ rest, bytes rest = (bytes source).drop offset ∧
      p.program.1.body = (parse rest file?).1.body.map (·.move (.shift offset)) ∧
      p.program.2.diagnostics =
        (parse rest file?).2.diagnostics.map (·.move (.shift offset)) ∧
      p.program.2.current.kind = .eof ∧ p.program.2.depth = 0 ∧
      p.program.2.program.1.body = [] ∧ p.program.2.program.2.diagnostics = #[] := by
  intro p offset
  have hreaches : (Cursor.ofScanner (.ofSource source file?)).Reaches p.cursor :=
    reaches_after (ofScanner (.ofSource source file?)) commands
  obtain ⟨rest, hrest, hmoved⟩ := hreaches.exists_moved hsize
  obtain ⟨hbody, hdiagnostics⟩ :=
    program_moved (p := ofScanner (.ofSource rest file?)) (q := p) hmoved
  have heof : p.program.2.current.kind = .eof := topLevel_eof #[] p.reset
  obtain ⟨hempty, hnone⟩ := program_of_eof heof
  exact ⟨rest, hrest, hbody, hdiagnostics, heof, (leads_topLevel #[] p.reset).depth_eq, hempty,
    hnone⟩

/-- Inside of an expression and with a diagnostic recorded, which are both forgotten. -/
theorem program_after_recorded :
    let source := "é f(1; let 2"
    let p := (ofScanner (.ofSource source none)).after
      [(.enter, none), (.record ⟨.badNumber "9", .at "a" 0⟩, none), (.expression .default, none),
        (.advance, none), (.expression .default, none)]
    source.utf8ByteSize < UInt32.size ∧ p.current.start = 5 ∧ p.depth = 1 ∧
      p.diagnostics.size = 1 ∧
      ∃ rest, bytes rest = (bytes source).drop p.current.start ∧
        p.program.2.diagnostics =
          (parse rest none).2.diagnostics.map (·.move (.shift p.current.start)) ∧
        p.program.2.diagnostics.map (·.position.offset) = #[12] ∧ p.program.2.depth = 0 := by
  intro source p
  have hsize : source.utf8ByteSize < UInt32.size := by decide
  obtain ⟨rest, hrest, -, hdiagnostics, -, hdepth, -⟩ := @program_after source none hsize
    [(.enter, none), (.record ⟨.badNumber "9", .at "a" 0⟩, none), (.expression .default, none),
      (.advance, none), (.expression .default, none)]
  exact ⟨hsize, by decide +kernel, by decide +kernel, by decide +kernel, rest, hrest, hdiagnostics,
    by decide +kernel, hdepth⟩

end Parser

end ExprLang
