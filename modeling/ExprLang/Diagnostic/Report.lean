import ExprLang.Diagnostic.Basic
import ExprLang.Source.Line
import ExprLang.Text.Blank

/-!
# Reports

A report shows a diagnostic together with the line it blames.

```text
Error: UnexpectedToken (Expected Assign here, found `2`)
-> shell
  |
2 | let b 2;
  | ------^
```

The line stands without the blanks and tabs in front of it and without the blank
characters at its end.  The arrow points at the character blamed, so its distance
counts characters (`arrowColumn`).  A position past the end of the source has no
line, and its report stops after the name of the file.
-/

namespace ExprLang

/-- How many characters the first `n` bytes of a text hold, if those bytes do not
end inside a character or past the end. -/
def charsWithin? : List Char → Nat → Option Nat
  | _, 0 => some 0
  | [], _ + 1 => none
  | c :: cs, n + 1 =>
    if c.utf8Size ≤ n + 1 then (charsWithin? cs (n + 1 - c.utf8Size)).map (· + 1) else none

/-- A blank or a tab. -/
def isIndent (c : Char) : Bool := c == ' ' || c == '\t'

namespace Line

/-- The blanks and tabs in front of a line. -/
def indent (l : Line) : List Char := l.text.toList.takeWhile isIndent

/-- The line as a report shows it. -/
def shown (l : Line) : String :=
  String.ofList (Text.trimRight (l.text.toList.dropWhile isIndent))

/-- The column of a place in characters.  Inside a character it is the column in
bytes. -/
def charColumn (l : Line) : Nat := (charsWithin? l.text.toList l.column).getD l.column

/-- The column of a place in the line as it is shown. -/
def arrowColumn (l : Line) : Nat := l.charColumn - l.indent.length

end Line

/-- A character `n` times. -/
def replicateChar (n : Nat) (c : Char) : String := String.ofList (List.replicate n c)

namespace Diagnostic

/-- The lines that show the place blamed: an empty margin, the line of the source
behind its number, and the arrow. -/
def excerpt (l : Line) : List String :=
  let number := toString l.number
  let margin := replicateChar (number.length + 1) ' ' ++ "|"
  [margin, number ++ " | " ++ l.shown, margin ++ " " ++ replicateChar l.arrowColumn '-' ++ "^"]

/-- The lines of a report. -/
def reportLines (d : Diagnostic) (source : String) : List String :=
  let header :=
    match d.tip? with
    | none => "Error: " ++ d.name
    | some tip => "Error: " ++ d.name ++ " (" ++ tip ++ ")"
  header :: ("-> " ++ d.position.file) ::
    match lineAt? source d.position.offset.toNat with
    | none => []
    | some l => excerpt l

/-- A report, each line ended by a newline. -/
def report (d : Diagnostic) (source : String) : String :=
  String.join ((d.reportLines source).map (· ++ "\n"))

/-! ## Examples -/

example : report ⟨.unexpectedToken .assign .int "2", .at "shell" 17⟩ "let a = 1;\nlet b 2;"
    = "Error: UnexpectedToken (Expected Assign here, found `2`)\n-> shell\n" ++
      "  |\n2 | let b 2;\n  | ------^\n" := by decide +kernel

/-- Indentation is dropped and characters are counted. -/
example : report ⟨.noPrefixRule .plus "+", .at "a" 4⟩ "\té + "
    = "Error: NoPrefixParseFn\n-> a\n  |\n1 | é +\n  | --^\n" := by decide +kernel

end Diagnostic

end ExprLang
