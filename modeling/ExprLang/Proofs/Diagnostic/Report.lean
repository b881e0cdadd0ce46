import ExprLang.Proofs.Parser.Blame
import ExprLang.Proofs.Source.LineCut
import ExprLang.Proofs.Text.OneLine
import ExprLang.Proofs.Token.Excerpt

/-!
# Reports of a parse

Every diagnostic of a parse is reported in five lines (`parse_reported`).  The position blamed is
where a token of the source starts.  So it is between two characters and not inside the blanks and
tabs that its line starts with, and what the report shows of the line and where the arrow stands is
read off the cut there (`Diagnostic.report_eq`).  That there are no more lines comes from what the
header says of a token, which is escaped or a run of digits (`Cause.TrueOf.oneLine_tip`).
-/

namespace ExprLang

open Text Utf8

/-! ## Texts on one line -/

theorem oneLine_replicateChar {n : Nat} {c : Char} (hc : c ≠ '\n') :
    OneLine (replicateChar n c) := by
  rw [OneLine, replicateChar, String.toList_ofList, List.mem_replicate]
  rintro ⟨-, h⟩
  exact hc h.symm

theorem TokenKind.oneLine_name (k : TokenKind) : OneLine k.name := by
  cases k <;> decide

theorem Cause.oneLine_name (c : Cause) : OneLine c.name := by
  cases c <;> simp only [name] <;> decide

/-- What a diagnostic suggests is on one line.  It shows no text of a token but an escaped one and
that of a number. -/
theorem Cause.TrueOf.oneLine_tip {start : Parser} {t : Token} {c : Cause} (h : c.TrueOf start t) :
    ∀ tip ∈ c.tip?, OneLine tip := by
  intro tip htip
  cases c with
  | unexpectedToken expected found literal =>
    cases htip
    simp +decide [expected.oneLine_name]
  | noPrefixRule kind literal =>
    cases kind with
    | illegal =>
      cases htip
      simp +decide
    | eof =>
      cases htip
      decide
    | _ => cases htip
  | badNumber literal =>
    obtain ⟨-, -, hdigits, -⟩ := h
    have hliteral : OneLine literal := oneLine_of_forall rfl (List.all_eq_true.1 hdigits)
    cases htip
    simp +decide [hliteral]
  | nestingTooDeep limit =>
    cases htip
    decide

/-! ## The lines of a report -/

namespace Diagnostic

/-- The first line of a report. -/
def header (d : Diagnostic) : String :=
  match d.tip? with
  | none => "Error: " ++ d.name
  | some tip => "Error: " ++ d.name ++ " (" ++ tip ++ ")"

/-- A report in five lines.  The last one has an arrow, which stands `column` characters to the
right of where the text of the line above it begins. -/
def fiveLines (d : Diagnostic) (number : Nat) (text : List Char) (column : Nat) : List String :=
  let gap := replicateChar (toString number).length ' '
  [d.header, "-> " ++ d.position.file, gap ++ " |", toString number ++ " | " ++ .ofList text,
    gap ++ " | " ++ replicateChar column '-' ++ "^"]

variable {d : Diagnostic} {source : String}

/-- Around the place blamed a report shows the line that is cut out there. -/
theorem report_eq (cut : LineCut source d.position.offset.toNat) :
    d.report source =
      .join ((d.fiveLines cut.number cut.shown cut.between.length).map (· ++ "\n")) := by
  have hgap (n : Nat) : replicateChar (n + 1) ' ' ++ "|" = replicateChar n ' ' ++ " |" := by
    rw [replicateChar, replicateChar, List.replicate_succ', String.ofList_append,
      String.append_assoc]
    rfl
  have hexcerpt : excerpt cut.line =
      (d.fiveLines cut.number cut.shown cut.between.length).drop 2 := by
    have hnumber : cut.line.number = cut.number := rfl
    rw [excerpt, cut.shown_line, cut.arrowColumn_line, hnumber, hgap, fiveLines]
    simp only [String.append_assoc, List.drop_succ_cons, List.drop_zero]
    rfl
  rw [report, reportLines, cut.lineAt?_eq]
  simp only [hexcerpt]
  rfl

/-- These are five lines if nothing in them has a newline. -/
theorem oneLine_of_mem_fiveLines {number column : Nat} {text : List Char}
    (htip : ∀ tip ∈ d.tip?, OneLine tip) (hfile : OneLine d.position.file)
    (htext : '\n' ∉ text) : ∀ line ∈ d.fiveLines number text column, OneLine line := by
  have hname : OneLine d.name := d.cause.oneLine_name
  have hheader : OneLine d.header := by
    unfold header
    split
    · simp +decide [hname]
    · next tip h =>
      have hone := htip tip h
      simp +decide [hname, hone]
  have htext' : OneLine (.ofList text) := by
    rwa [OneLine, String.toList_ofList]
  have hgap (n : Nat) : OneLine (replicateChar n ' ') := oneLine_replicateChar (by decide)
  have harrow (n : Nat) : OneLine (replicateChar n '-') := oneLine_replicateChar (by decide)
  intro line hline
  simp only [fiveLines, List.mem_cons, List.not_mem_nil, or_false] at hline
  rcases hline with rfl | rfl | rfl | rfl | rfl
  · exact hheader
  · simp +decide [hfile]
  · simp +decide [hgap]
  · simp +decide [htext']
  · simp +decide [hgap, harrow]

end Diagnostic

/-! ## Diagnostics of a parse -/

/-- A diagnostic blames a token of the source at its start, and suggests something on one line. -/
theorem exists_token_of_mem_diagnostics {source : String} {file? : Option String} {d : Diagnostic}
    (hd : d ∈ (parse source file?).2.diagnostics.toList) :
    ∃ t ∈ tokenize source file?, d.position = t.span.start ∧ ∀ tip ∈ d.tip?, OneLine tip := by
  obtain ⟨ms, last?, stop, h⟩ := Parser.exists_course source file?
  obtain ⟨q, hq, hreaches⟩ := h.failed rfl d hd
  have hsees := (Cursor.sees_ofSource source file?).of_reaches hreaches
  obtain ⟨t, ht, hposition, htrue⟩ := hq.raises.trueOf rfl hsees.current.1
  refine ⟨t, ?_, hposition, htrue.oneLine_tip⟩
  rcases ht with rfl | rfl
  · exact hreaches.mem_tokenize 0
  · exact hreaches.mem_tokenize 1

/-- No token starts with what a line is indented with. -/
theorem isLayout_of_isIndent {c : Char} (h : isIndent c) : Munch.isLayout c := by
  simp only [isIndent, Bool.or_eq_true, beq_iff_eq] at h
  rcases h with rfl | rfl
  · rfl
  · rfl

/-- Every diagnostic of a parse is reported in five lines, each ended by a newline.  The fourth line
has the number of the line blamed, which is one more than there are newlines in front of the
position, and that line without the blanks and tabs at its start and the blank characters at its
end.  The arrow stands as many characters to the right of where its text begins as there are between
these blanks and tabs and the position.  Above it is the first character of the token blamed, unless
this is the end token or one of the blank characters at the end.  The position always has a line,
and its column in bytes always is one between two characters. -/
theorem parse_reported {source : String} {file? : Option String}
    (hsize : source.utf8ByteSize < UInt32.size) (hfile : ∀ file ∈ file?, OneLine file) :
    ∀ d ∈ (parse source file?).2.diagnostics.toList,
      ∃ cut : LineCut source d.position.offset.toNat, ∃ t ∈ tokenize source file?,
        d.position = t.span.start ∧ d.position.file = file?.getD unnamedFile ∧
        d.report source =
          .join ((d.fiveLines cut.number cut.shown cut.between.length).map (· ++ "\n")) ∧
        (∀ line ∈ d.fiveLines cut.number cut.shown cut.between.length, OneLine line) ∧
        (∃ blanks, cut.between ++ cut.back = cut.shown ++ blanks ∧ ∀ c ∈ blanks, isBlank c) ∧
        (∀ c ∈ cut.shown.getLast?, isBlank c = false) ∧
        (t.kind ≠ .eof → (∃ c ∈ cut.back, isBlank c = false) →
          ∃ c, cut.shown[cut.between.length]? = some c ∧ t.literal.toList.head? = some c) ∧
        ∃ l column, lineAt? source d.position.offset.toNat = some l ∧
          charsWithin? l.text.toList l.column = some column := by
  intro d hd
  obtain ⟨t, ht, hposition, htip⟩ := exists_token_of_mem_diagnostics hd
  obtain ⟨before, after, hsource, hstart, hlayout, hfirst⟩ := exists_start ht
  have hoffset : d.position.offset.toNat = width before := by
    rw [hposition, hstart]
    exact Position.offset_at (Nat.lt_of_le_of_lt (width_le_of_append hsource) hsize)
  have hname : d.position.file = file?.getD unnamedFile := by
    rw [hposition, hstart]
    rfl
  have hone : OneLine d.position.file := by
    rw [hname]
    cases file? with
    | none => decide
    | some file => exact hfile file rfl
  have hindent : ∀ c ∈ after.head?, isIndent c = false := by
    intro c hc
    refine Bool.eq_false_iff.2 fun h => ?_
    have hnot := hlayout c hc
    rw [isLayout_of_isIndent h] at hnot
    cases hnot
  obtain ⟨cut, hafter⟩ := LineCut.exists_of_append hsource hoffset hindent
  refine ⟨cut, t, ht, hposition, hname, Diagnostic.report_eq cut,
    Diagnostic.oneLine_of_mem_fiveLines htip hone cut.newline_not_mem_shown,
    cut.exists_shown_append, isBlank_getLast?_trimRight _, ?_,
    cut.line, _, cut.lineAt?_eq, cut.charsWithin?_line⟩
  intro hk hshown
  obtain ⟨c, hc, hliteral⟩ := hfirst hk
  exact ⟨c, cut.getElem?_shown (hafter ▸ hc) hshown, hliteral⟩

/-- A line that starts with a tab and a letter of two bytes. -/
theorem parse_reported_wide :
    "1;\n\té; @".utf8ByteSize < UInt32.size ∧ (∀ file ∈ some "main", OneLine file) ∧
      ∃ d ∈ (parse "1;\n\té; @" (some "main")).2.diagnostics.toList,
        (∃ cut : LineCut "1;\n\té; @" d.position.offset.toNat, d.report "1;\n\té; @" =
          .join ((d.fiveLines cut.number cut.shown cut.between.length).map (· ++ "\n"))) ∧
        d.report "1;\n\té; @" =
          "Error: NoPrefixParseFn (Unrecognised character `@`)\n-> main\n  |\n" ++
            "2 | é; @\n  | ---^\n" := by
  have hsize : "1;\n\té; @".utf8ByteSize < UInt32.size := by decide
  have hfile : ∀ file ∈ some "main", OneLine file := by
    rintro file ⟨⟩
    decide
  have hd : ⟨.noPrefixRule .illegal "@", .at "main" 8⟩ ∈
      (parse "1;\n\té; @" (some "main")).2.diagnostics.toList := by decide +kernel
  obtain ⟨cut, t, -, -, -, hreport, -⟩ := parse_reported hsize hfile _ hd
  exact ⟨hsize, hfile, _, hd, ⟨cut, hreport⟩, by decide +kernel⟩

end ExprLang
