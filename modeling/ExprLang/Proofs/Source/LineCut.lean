import ExprLang.Diagnostic.Report
import ExprLang.Proofs.Source.Line

/-!
# The line around an offset

An offset between two characters cuts its source (`LineCut`).  There are the lines in front, then
the blanks and tabs that the line of the offset starts with, what stands between them and the
offset, what of the line comes behind the offset, and the newline of the line with the lines behind.
The offset must not be inside the blanks and tabs.

Such a cut is one of characters, and so the columns of a report can be read off it.  The line that
is found for the offset is the one cut out (`LineCut.lineAt?_eq`), and the arrow stands as many
characters into the line shown as there are between the blanks and tabs and the offset
(`LineCut.arrowColumn_line`).
-/

namespace ExprLang

open Utf8

/-! ## Characters in front of a place -/

/-- The bytes of some characters hold as many characters as there are. -/
theorem charsWithin?_width (as bs : List Char) :
    charsWithin? (as ++ bs) (width as) = some as.length := by
  induction as with
  | nil =>
    rw [width_nil, charsWithin?]
    rfl
  | cons c as ih =>
    obtain ⟨n, hn⟩ := Nat.exists_eq_succ_of_ne_zero (Nat.ne_of_gt c.utf8Size_pos)
    have hwidth : width (c :: as) = n + width as + 1 := by
      rw [← byteLength_eq_width, byteLength, byteLength_eq_width, hn]
      omega
    have hrest : n + width as + 1 - c.utf8Size = width as := by omega
    rw [hwidth, List.cons_append, charsWithin?, if_pos (by omega), hrest, ih]
    rfl

/-! ## Cuts -/

/-- A source cut around the line of an offset. -/
structure LineCut (source : String) (offset : Nat) where
  /-- The lines in front. -/
  front : List Char
  /-- The blanks and tabs that the line starts with. -/
  indent : List Char
  /-- What stands between these and the offset. -/
  between : List Char
  /-- What of the line comes behind the offset. -/
  back : List Char
  /-- The newline of the line and the lines behind. -/
  rest : List Char
  toList_eq : source.toList = front ++ (indent ++ between) ++ (back ++ rest)
  offset_eq : offset = width (front ++ (indent ++ between))
  /-- The line starts the source or comes behind a newline. -/
  front_end : front = [] ∨ front.getLast? = some '\n'
  /-- The line ends with the source or in front of a newline. -/
  rest_start : ∀ c ∈ rest.head?, c = '\n'
  /-- In between there is no newline. -/
  one_line : '\n' ∉ indent ++ between ++ back
  isIndent_of_mem : ∀ c ∈ indent, isIndent c
  /-- These are all the blanks and tabs at the start of the line. -/
  indent_end : ∀ c ∈ (between ++ back).head?, isIndent c = false

namespace LineCut

variable {source : String} {offset : Nat}

/-- What of the source comes in front of the offset. -/
def before (cut : LineCut source offset) : List Char := cut.front ++ (cut.indent ++ cut.between)

/-- The number of the line, which is one more than there are newlines in front. -/
def number (cut : LineCut source offset) : Nat := 1 + cut.before.count '\n'

/-- The line without the blanks and tabs at its start and the blank characters at its end. -/
def shown (cut : LineCut source offset) : List Char := Text.trimRight (cut.between ++ cut.back)

/-- The line that is cut out, with its newline. -/
def line (cut : LineCut source offset) : Line :=
  ⟨cut.number, .ofList (cut.indent ++ cut.between ++ (cut.back ++ cut.rest.take 1)),
    width (cut.indent ++ cut.between)⟩

/-- An offset between two characters cuts its source if it is not inside the blanks and tabs that a
line starts with. -/
theorem exists_of_append {before after : List Char} (hsource : source.toList = before ++ after)
    (hoffset : offset = width before) (hafter : ∀ c ∈ after.head?, isIndent c = false) :
    ∃ cut : LineCut source offset, after = cut.back ++ cut.rest := by
  obtain ⟨front, hbefore, -, hfront⟩ := exists_append_behindLast '\n' before
  have hnone := not_mem_behindLast '\n' before
  generalize behindLast '\n' before = start at hbefore hnone
  have hstart := List.takeWhile_append_dropWhile (p := isIndent) (l := start)
  have hback := List.takeWhile_append_dropWhile (p := (· ≠ '\n')) (l := after)
  have hrest : ∀ c ∈ (after.dropWhile (· ≠ '\n')).head?, c = '\n' := by
    intro c hc
    have hnot := List.head?_dropWhile_not (· ≠ '\n') after
    rw [hc] at hnot
    simpa using hnot
  have hline : '\n' ∉ start ++ after.takeWhile (· ≠ '\n') := by
    rw [List.mem_append, not_or]
    refine ⟨hnone, fun hmem => ?_⟩
    have hne := List.all_eq_true.1 List.all_takeWhile _ hmem
    simp at hne
  have hend : ∀ c ∈ (start.dropWhile isIndent ++ after.takeWhile (· ≠ '\n')).head?,
      isIndent c = false := by
    intro c hc
    have hnot := List.head?_dropWhile_not isIndent start
    rw [List.head?_append] at hc
    cases hbetween : (start.dropWhile isIndent).head? with
    | none =>
      -- The offset is right behind the blanks and tabs.
      rw [hbetween, Option.none_or] at hc
      refine hafter c ?_
      rw [← hback, List.head?_append, hc]
      rfl
    | some d =>
      rw [hbetween] at hc hnot
      cases hc
      simpa using hnot
  refine ⟨⟨front, start.takeWhile isIndent, start.dropWhile isIndent, after.takeWhile (· ≠ '\n'),
    after.dropWhile (· ≠ '\n'), ?_, ?_, hfront, hrest, ?_, List.all_eq_true.1 List.all_takeWhile,
    hend⟩, hback.symm⟩
  · rw [hstart, hback, hsource, hbefore]
  · rw [hstart, hoffset, hbefore]
  · rw [hstart]
    exact hline

variable (cut : LineCut source offset)

/-- It is the line of the offset. -/
theorem isAt_line : cut.line.IsAt 1 (bytes source) offset := by
  have hbytes : bytes source = encode cut.before ++ encode (cut.back ++ cut.rest) := by
    rw [bytes_eq_encode, cut.toList_eq, encode_append, before]
  have htake : (bytes source).take offset = encode cut.before := by
    rw [hbytes]
    exact List.take_left' cut.offset_eq.symm
  have hdrop : (bytes source).drop offset = encode (cut.back ++ cut.rest) := by
    rw [hbytes]
    exact List.drop_left' cut.offset_eq.symm
  obtain ⟨hstart, hback⟩ := not_or.1 (mt List.mem_append.2 cut.one_line)
  have hbehind : behindLast newlineByte (encode cut.before) = encode (cut.indent ++ cut.between) :=
    behindLast_encode cut.front_end hstart
  constructor
  · have hle : width cut.before ≤ (bytes source).length := by
      rw [hbytes, List.length_append]
      exact Nat.le_add_right _ _
    exact cut.offset_eq ▸ hle
  · rw [htake]
    exact congrArg (1 + ·) (count_encode (d := '\n') (by decide) _).symm
  · rw [htake, hdrop, hbehind, throughFirst_encode hback cut.rest_start, ← encode_append]
    exact bytes_ofList _
  · rw [htake, hbehind]
    rfl

/-- It is found for the offset. -/
theorem lineAt?_eq : lineAt? source offset = some cut.line := by
  rcases lineAt?_isAt source offset with ⟨l, hfound, hl⟩ | ⟨-, hlt⟩
  · rw [hfound, hl.unique cut.isAt_line]
  · have hle := cut.isAt_line.le_length
    rw [length_bytes] at hle
    exact absurd hle (Nat.not_le.2 hlt)

/-! ## Columns -/

theorem toList_line :
    cut.line.text.toList = cut.indent ++ cut.between ++ (cut.back ++ cut.rest.take 1) :=
  String.toList_ofList

/-- The newline of the line is all of it that comes behind what is cut out. -/
theorem eq_newline_of_mem_take : ∀ c ∈ cut.rest.take 1, c = '\n' := by
  intro c hc
  rw [List.take_one, Option.mem_toList] at hc
  exact cut.rest_start c hc

/-- The blanks and tabs in front of the line are those cut off. -/
theorem indent_line : cut.line.indent = cut.indent := by
  have hend : (cut.between ++ (cut.back ++ cut.rest.take 1)).takeWhile isIndent = [] := by
    rw [← List.head?_eq_none_iff, List.head?_takeWhile, Option.filter_eq_none_iff]
    intro c hc
    rw [← List.append_assoc, List.head?_append, Option.or_eq_some_iff] at hc
    rcases hc with hc | ⟨-, hc⟩
    · rw [cut.indent_end c hc]
      exact Bool.false_ne_true
    · rw [cut.eq_newline_of_mem_take c (List.mem_of_mem_head? hc)]
      decide
  rw [Line.indent, toList_line, List.append_assoc, List.takeWhile_append_of_pos cut.isIndent_of_mem,
    hend, List.append_nil]

/-- The newline is blank, so the line is shown without it. -/
theorem shown_line : cut.line.shown = .ofList cut.shown := by
  have hline : cut.indent ++ cut.line.text.toList.dropWhile isIndent =
      cut.indent ++ (cut.between ++ cut.back ++ cut.rest.take 1) := by
    calc cut.indent ++ cut.line.text.toList.dropWhile isIndent
        = cut.line.text.toList.takeWhile isIndent ++ cut.line.text.toList.dropWhile isIndent := by
          rw [← Line.indent, indent_line]
      _ = cut.line.text.toList := List.takeWhile_append_dropWhile
      _ = cut.indent ++ (cut.between ++ cut.back ++ cut.rest.take 1) := by
          simp only [toList_line, List.append_assoc]
  have hblank : ∀ c ∈ cut.rest.take 1, Text.isBlank c := by
    intro c hc
    rw [cut.eq_newline_of_mem_take c hc]
    rfl
  rw [Line.shown, List.append_cancel_left hline, Text.trimRight_append_of_blank _ hblank, shown]

/-- The column in bytes is one between characters. -/
theorem charsWithin?_line :
    charsWithin? cut.line.text.toList cut.line.column =
      some (cut.indent ++ cut.between).length := by
  rw [toList_line]
  exact charsWithin?_width _ _

/-- The arrow stands as many characters into the line as there are between the blanks and tabs and
the offset. -/
theorem arrowColumn_line : cut.line.arrowColumn = cut.between.length := by
  rw [Line.arrowColumn, Line.charColumn, charsWithin?_line, indent_line, Option.getD_some,
    List.length_append, Nat.add_sub_cancel_left]

/-! ## The line shown -/

/-- Only blank characters are cut off at the end of the line. -/
theorem exists_shown_append :
    ∃ blanks, cut.between ++ cut.back = cut.shown ++ blanks ∧ ∀ c ∈ blanks, Text.isBlank c :=
  Text.trimRight_append _

theorem newline_not_mem_shown : '\n' ∉ cut.shown := by
  obtain ⟨blanks, happ, -⟩ := cut.exists_shown_append
  intro h
  refine cut.one_line ?_
  rw [List.append_assoc, happ]
  exact List.mem_append_right _ (List.mem_append_left _ h)

/-- Unless only blank characters of the line come behind the offset, the line is shown up to there
and further, and the arrow stands below the character behind the offset. -/
theorem getElem?_shown {c : Char} (hc : (cut.back ++ cut.rest).head? = some c)
    (hshown : ∃ d ∈ cut.back, Text.isBlank d = false) :
    cut.shown[cut.between.length]? = some c := by
  obtain ⟨blanks, happ, hblanks⟩ := cut.exists_shown_append
  obtain ⟨d, hd, hnot⟩ := hshown
  have hlt : cut.between.length < cut.shown.length := by
    refine Nat.not_le.1 fun hle => ?_
    have hback := congrArg (List.drop cut.between.length) happ
    rw [List.drop_left, List.drop_append, List.drop_eq_nil_of_le hle, List.nil_append] at hback
    rw [hback] at hd
    rw [hblanks d (List.mem_of_mem_drop hd)] at hnot
    cases hnot
  obtain ⟨e, es, hback⟩ := List.exists_cons_of_ne_nil (List.ne_nil_of_mem hd)
  rw [hback, List.cons_append, List.head?_cons] at hc
  rw [← List.getElem?_append_left hlt, ← happ, List.getElem?_append_right (Nat.le_refl _),
    Nat.sub_self, hback, List.getElem?_cons_zero, hc]

end LineCut

end ExprLang
