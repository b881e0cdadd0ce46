import ExprLang.Proofs.Parser.InStep
import ExprLang.Proofs.Parser.Stream
import ExprLang.Proofs.Token.Excerpt

/-!
# Parsing goes on behind a semicolon

A source that ends with a semicolon can be continued with any other.  Unless the first one
ends inside of a block, which is reported at its end, both are parsed one behind the other
as they are each by itself (`parse_append_of_semicolon`).

The parse of both is compared with that of either.  In front of the semicolon it sees the
same tokens as the parse of the first source (`Likeness.before`), and what is ahead of the
semicolon neither of them looks at.  Behind it the tokens are those of the second source,
further on (`Likeness.moved`).
-/

namespace ExprLang

open Parse Utf8

/-! ## In front of a semicolon -/

/-- The places `e` and `e'` are reached from the cursors `c` and `d` over the same tokens, of
which the last is a semicolon. -/
def Cursor.Before (e e' c d : Cursor) : Prop :=
  ∃ ts u, (∀ t ∈ ts, t.kind ≠ .eof) ∧ u.kind = .semicolon ∧
    c.Passes (ts ++ [u]) e ∧ d.Passes (ts ++ [u]) e'

/-- The cursors stand on the same token.  One token on they still do, or they are there, and
then the token was the semicolon. -/
theorem Cursor.Before.step {e e' c d : Cursor} (h : Before e e' c d) :
    c.current = d.current ∧ c.current.kind ≠ .eof ∧
      (Before e e' c.advance d.advance ∨
        c.current.kind = .semicolon ∧ c.advance = e ∧ d.advance = e') := by
  obtain ⟨ts, u, hts, hu, hc, hd⟩ := h
  cases ts with
  | nil =>
    obtain ⟨hcu, hc⟩ := hc.of_cons
    obtain ⟨hdu, hd⟩ := hd.of_cons
    rw [hcu, hdu, hu]
    exact ⟨rfl, by decide, .inr ⟨rfl, hc.eq_of_nil, hd.eq_of_nil⟩⟩
  | cons t ts =>
    obtain ⟨hct, hc⟩ := hc.of_cons
    obtain ⟨hdt, hd⟩ := hd.of_cons
    obtain ⟨ht, hts⟩ := List.forall_mem_cons.1 hts
    rw [hct, hdt]
    exact ⟨rfl, ht, .inl ⟨ts, u, hts, hu, hc, hd⟩⟩

theorem Cursor.Before.advance {e e' c d : Cursor} (h : Before e e' c d)
    (hk : c.current.kind ≠ .semicolon) : Before e e' c.advance d.advance :=
  h.step.2.2.resolve_right fun hs => hk hs.1

/-- Cursors with the same tokens up to a semicolon can be led behind it. -/
theorem Cursor.exists_before {c d : Cursor} {ts us vs : List Token} {u : Token}
    (hts : ∀ t ∈ ts, t.kind ≠ .eof) (hu : u.kind = .semicolon)
    (hc : c.tokens = (ts ++ [u]) ++ us) (hd : d.tokens = (ts ++ [u]) ++ vs) :
    ∃ e e', Before e e' c d ∧ e.tokens = us ∧ e'.tokens = vs ∧ d.Reaches e' := by
  have hall : ∀ t ∈ ts ++ [u], t.kind ≠ .eof :=
    List.forall_mem_append.2 ⟨hts, List.forall_mem_singleton.2 (by rw [hu]; decide)⟩
  obtain ⟨e, he, hus⟩ := exists_passes hc hall
  obtain ⟨e', he', hvs⟩ := exists_passes hd hall
  exact ⟨e, e', ⟨ts, u, hts, hu, he, he'⟩, hus, hvs, he'.reaches⟩

/-- The same in front of two places, of which the first is the end of its source. -/
def Likeness.before (e e' : Cursor) (he : e.current.kind = .eof) : Likeness where
  left := id
  right := id
  Tokens := Eq
  Cursors := Cursor.Before e e'
  Edge c d := c = e ∧ d = e'
  Recorded := Eq
  move_eq h := move_id_eq h
  current h := h.step.1
  peek h hk := (h.advance hk.2).step.1
  advance h hk := h.advance hk.2
  pass h _ := h.step.2.2.imp_right And.right
  eof_of_edge h := (congrArg (·.current.kind) h.1).trans he
  record cause h ht := congr (congrArg List.append h)
    (congrArg (fun t : Token => [(⟨cause, t.span.start⟩ : Diagnostic)]) ht)

/-! ## Further on in a source -/

/-- The diagnostic at the moved place. -/
def Diagnostic.move (h : Position → Position) (d : Diagnostic) : Diagnostic :=
  ⟨d.cause, h d.position⟩

/-- At moved places the same is recorded once more. -/
theorem Diagnostic.record_move {h : Position → Position} {ds es fs : List Diagnostic}
    {t u : Token} (cause : Cause) (hr : fs = ds ++ es.map (·.move h)) (ht : t.move h = u) :
    fs ++ [(⟨cause, u.span.start⟩ : Diagnostic)] =
      ds ++ (es ++ [(⟨cause, t.span.start⟩ : Diagnostic)]).map (·.move h) := by
  rw [hr, ← ht, List.map_append, List.append_assoc]
  rfl

/-- Does the second cursor have the tokens of the first one at their moved places? -/
structure Cursor.Moved (h : Position → Position) (c d : Cursor) : Prop where
  /-- The end token comes again and again in the first one. -/
  settled : c.Settled
  /-- So it does in the second one. -/
  settled' : d.Settled
  /-- Their tokens are the same but for their places. -/
  tokens_eq : c.tokens.map (·.move h) = d.tokens

namespace Cursor.Moved

variable {h : Position → Position} {c d : Cursor}

theorem current_eq (hm : Moved h c d) : c.current.move h = d.current := by
  have hhead := congrArg List.head? hm.tokens_eq
  rw [List.head?_map, head?_tokens, head?_tokens] at hhead
  exact Option.some.inj hhead

theorem advance (hm : Moved h c d) : Moved h c.advance d.advance := by
  refine ⟨hm.settled.of_reaches (.advance c), hm.settled'.of_reaches (.advance d), ?_⟩
  have hk : d.current.kind = c.current.kind := by rw [← hm.current_eq]; rfl
  by_cases hc : c.current.kind = .eof
  · rw [hm.settled.tokens_advance hc, hm.settled'.tokens_advance (hk.trans hc), hm.tokens_eq]
  · have hd : d.current.kind ≠ .eof := fun he => hc (hk.symm.trans he)
    have htokens := hm.tokens_eq
    rw [tokens_of_ne_eof hc, tokens_of_ne_eof hd, List.map_cons] at htokens
    exact List.tail_eq_of_cons_eq htokens

end Cursor.Moved

/-- Further on in a source a text has the tokens that it has by itself, further on. -/
theorem Cursor.moved_ofScanner (before text : List Char) (file? : Option String) :
    Moved (.shift (width before)) (ofScanner (.ofSource (.ofList text) file?))
      (ofScanner ⟨file?.getD unnamedFile, encode text, width before⟩) := by
  have hsplits : Scanner.Splits ⟨file?.getD unnamedFile, encode text, width before⟩
      (.ofList (before ++ text)) before text := ⟨String.toList_ofList, rfl, rfl⟩
  refine ⟨settled_ofSource _ file?, settled_ofScanner hsplits, ?_⟩
  rw [tokens_ofScanner, tokens_ofScanner, Scanner.tokens_excerpt]
  rfl

/-- The same at moved places, behind the diagnostics `ds`. -/
def Likeness.moved (h : Position → Position) (ds : List Diagnostic) : Likeness where
  left := h
  right := id
  Tokens t u := t.move h = u
  Cursors := Cursor.Moved h
  Edge := NoEdge
  Recorded es fs := fs = ds ++ es.map (·.move h)
  move_eq h := h
  current h := h.current_eq
  peek h _ := h.advance.current_eq
  advance h _ := h.advance
  pass h _ := .inl h.advance
  eof_of_edge h := h.eof
  record cause h ht := Diagnostic.record_move cause h ht

theorem Likeness.lasting_moved (h : Position → Position) (ds : List Diagnostic) :
    (Likeness.moved h ds).Lasting := ⟨fun hm => hm.advance, id⟩

/-! ## From one source to the other -/

namespace Parser

/-- Statements parsed before are kept in front. -/
theorem topLevel_append (before done : Array Stmt) (p : Parser) :
    topLevel (before ++ done) p = (before ++ (topLevel done p).1, (topLevel done p).2) := by
  fun_induction topLevel done p with
  | case1 done p hk => rw [topLevel_eq, if_pos hk]
  | case2 done p hk s q h ih => rw [topLevel_eq, if_neg hk, h, ← ih, Array.append_push]
  | case3 done p hk d q h ih => rw [topLevel_eq, if_neg hk, h, ← ih]

/-- At moved places the same statements are parsed, at their moved places. -/
theorem topLevel_moved {h : Position → Position} {ds : List Diagnostic} {p q : Parser}
    (hp : (Likeness.moved h ds).Parsers p q) :
    (topLevel #[] q).1.toList = (topLevel #[] p).1.toList.map (·.move h) ∧
      (topLevel #[] q).2.diagnostics.toList =
        ds ++ (topLevel #[] p).2.diagnostics.toList.map (·.move h) := by
  have hnone : (Likeness.moved h ds).SameAll Stmt.move #[] #[] := rfl
  obtain ⟨hbody, hrest⟩ := topLevel_inStep (Likeness.lasting_moved h ds) hnone hp
  have hsame : (topLevel #[] p).1.toList.map (·.move h) =
      (topLevel #[] q).1.toList.map (Stmt.move id) := hbody
  have hid : (Stmt.move id : Stmt → Stmt) = id := funext Stmt.move_id
  rw [hsame, hid, List.map_id]
  exact ⟨rfl, hrest.recorded⟩

/-- A program is the same from cursors with the same tokens at moved places, whatever was recorded
and entered before. -/
theorem program_moved {h : Position → Position} {p q : Parser}
    (hm : Cursor.Moved h p.cursor q.cursor) :
    q.program.1.body = p.program.1.body.map (·.move h) ∧
      q.program.2.diagnostics = p.program.2.diagnostics.map (·.move h) := by
  have hparsers : (Likeness.moved h []).Parsers p.reset q.reset := ⟨hm, rfl, rfl⟩
  obtain ⟨hbody, hdiagnostics⟩ := topLevel_moved hparsers
  refine ⟨hbody, ?_⟩
  rw [← Array.toList_inj, Array.toList_map]
  exact hdiagnostics

variable {e e' : Cursor}

/-- At the end of the first source nothing is left to do but to go on. -/
theorem topLevel_edge (he : e.current.kind = .eof) (done : Array Stmt) {p q : Parser}
    (hp : p.cursor = e) (hq : q.cursor = e') (hdepth : p.depth = q.depth)
    (hdiagnostics : p.diagnostics.toList = q.diagnostics.toList) :
    ∃ r, topLevel done q = topLevel (topLevel done p).1 r ∧ r.cursor = e' ∧
      (topLevel done p).2.depth = r.depth ∧
      (topLevel done p).2.diagnostics.toList = r.diagnostics.toList := by
  have heof : p.current.kind = .eof := by rw [current, hp, he]
  have hstop : topLevel done p = (done, p) := by rw [topLevel_eq, if_pos heof]
  rw [hstop]
  exact ⟨q, rfl, hq, hdepth, hdiagnostics⟩

/-- A program goes on behind its first part, with what that has left, unless the first part
by itself is blamed at its end. -/
theorem topLevel_goes_on {he : e.current.kind = .eof} {done : Array Stmt} {p q : Parser}
    (hp : (Likeness.before e e' he).Parsers p q)
    (hd : ∀ d ∈ (topLevel done p).2.diagnostics.toList, d.position ≠ e.current.span.start) :
    ∃ r, topLevel done q = topLevel (topLevel done p).1 r ∧ r.cursor = e' ∧
      (topLevel done p).2.depth = r.depth ∧
      (topLevel done p).2.diagnostics.toList = r.diagnostics.toList := by
  have hs := statement_inStep Operand.full_inStep hp trivial
  have hcurrent : p.current = q.current := hp.current
  have hk : p.current.kind ≠ .eof := hp.cursors.step.2.1
  fun_induction topLevel done p generalizing q with
  | case1 done p hk' => exact absurd hk' hk
  | case2 done p _ s r hr ih =>
    obtain ⟨u, r', hr', hv, hp', hclose⟩ := hs.of_ok hr
    have hu : s.move id = u.move id := hv
    rw [s.move_id, u.move_id] at hu
    rw [topLevel_eq done q, if_neg (hcurrent ▸ hk), hr', ← hu]
    rcases hp'.pass hclose.ne_eof with hn | hedge
    · exact ih hn hd (statement_inStep Operand.full_inStep hn trivial) hn.current
        hn.cursors.step.2.1
    · exact topLevel_edge he _ hedge.1 hedge.2 hp'.depth_eq hp'.recorded
  | case3 done p _ d r hr ih =>
    rcases hs.of_error hr with ⟨f, r', hr', hb, hp'⟩ | ⟨c, hedge, hposition⟩
    · have hp' := hp'.record hb
      rw [topLevel_eq done q, if_neg (hcurrent ▸ hk), hr']
      rcases hp'.pass hp'.cursors.step.2.1 with hn | hedge
      · exact ih hn hd (statement_inStep Operand.full_inStep hn trivial) hn.current
          hn.cursors.step.2.1
      · exact topLevel_edge he _ hedge.1 hedge.2 hp'.depth_eq hp'.recorded
    · -- A block that the first source leaves open is blamed where the source ends.
      have hmem : d ∈ (r.record d).diagnostics.toList := by
        rw [record, Array.toList_push]
        exact List.mem_append_right _ (List.mem_singleton_self d)
      have hlast := (leads_topLevel done (r.record d).advance).diagnostics.subset hmem
      have hrc : r.current = e.current := by rw [current, hedge.1]
      exact absurd (by rw [hposition, position, hrc]) (hd d hlast)

/-- Is it a parser at the start of a program? -/
structure Fresh (p : Parser) : Prop where
  /-- It is inside of no expression. -/
  depth_eq : p.depth = 0
  /-- It has recorded nothing. -/
  diagnostics_eq : p.diagnostics = #[]
  /-- The end token comes again and again. -/
  settled : p.cursor.Settled

theorem fresh_ofSource (source : String) (file? : Option String) :
    (ofScanner (.ofSource source file?)).reset.Fresh :=
  ⟨rfl, rfl, Cursor.settled_ofSource source file?⟩

/-- Where the tokens of `r` are those of `p` up to a semicolon and those of `q` at moved places,
the program at `r` is that at `p` and behind it that at `q`. -/
theorem topLevel_join {p q r : Parser} {ts : List Token} {u stop : Token}
    {h : Position → Position} (fp : p.Fresh) (fq : q.Fresh) (fr : r.Fresh)
    (hts : ∀ t ∈ ts, t.kind ≠ .eof) (hu : u.kind = .semicolon) (hstop : stop.kind = .eof)
    (hp : p.cursor.tokens = (ts ++ [u]) ++ [stop])
    (hr : r.cursor.tokens = (ts ++ [u]) ++ q.cursor.tokens.map (·.move h))
    (hend : ∀ d ∈ (topLevel #[] p).2.diagnostics.toList, d.position ≠ stop.span.start) :
    (topLevel #[] r).1.toList =
        (topLevel #[] p).1.toList ++ (topLevel #[] q).1.toList.map (·.move h) ∧
      (topLevel #[] r).2.diagnostics.toList =
        (topLevel #[] p).2.diagnostics.toList ++
          (topLevel #[] q).2.diagnostics.toList.map (·.move h) := by
  obtain ⟨e, e', hbefore, he, he', hreaches⟩ := Cursor.exists_before hts hu hp hr
  have hcurrent : e.current = stop := by
    have hhead := e.head?_tokens
    rw [he] at hhead
    exact (Option.some.inj hhead).symm
  have heof : e.current.kind = .eof := by rw [hcurrent, hstop]
  have hpr : (Likeness.before e e' heof).Parsers p r := by
    refine ⟨hbefore, by rw [fp.depth_eq, fr.depth_eq], ?_⟩
    rw [fp.diagnostics_eq, fr.diagnostics_eq]
    rfl
  -- The program at `r` goes on behind the semicolon with what that at `p` has left.
  obtain ⟨s, hgo, hcursor, hdepth, hdiagnostics⟩ := topLevel_goes_on hpr (by rwa [hcurrent])
  have hzero : (topLevel #[] p).2.depth = 0 :=
    (leads_topLevel #[] p).depth_eq.trans fp.depth_eq
  have hqs : (Likeness.moved h (topLevel #[] p).2.diagnostics.toList).Parsers q s := by
    refine ⟨?_, by rw [← hdepth, hzero, fq.depth_eq], ?_⟩
    · rw [hcursor]
      exact ⟨fq.settled, fr.settled.of_reaches hreaches, he'.symm⟩
    · rw [fq.diagnostics_eq, ← hdiagnostics]
      exact (List.append_nil _).symm
  obtain ⟨hbody, hrest⟩ := topLevel_moved hqs
  have happend := topLevel_append (topLevel #[] p).1 #[] s
  rw [Array.append_empty] at happend
  rw [hgo, happend, Array.toList_append, hbody]
  exact ⟨rfl, hrest⟩

end Parser

/-- Parsing starts afresh behind a semicolon.  Where a source ends with a semicolon and its parse
blames nothing at its end, any other source may follow it: the statements and diagnostics of both
are those of the first, and behind them those of the second, further on by the length of the
first. -/
theorem parse_append_of_semicolon {a b : String} {file? : Option String}
    (hlast : (Utf8.bytes a).getLast? = some 0x3B)
    (hsize : a.utf8ByteSize + b.utf8ByteSize < UInt32.size)
    (hend : ∀ d ∈ (parse a file?).2.diagnostics, d.position.offset.toNat ≠ a.utf8ByteSize) :
    let shift := Position.shift a.utf8ByteSize
    (parse (a ++ b) file?).1.body =
        (parse a file?).1.body ++ (parse b file?).1.body.map (·.move shift) ∧
      (parse (a ++ b) file?).2.diagnostics =
        (parse a file?).2.diagnostics ++ (parse b file?).2.diagnostics.map (·.move shift) := by
  intro shift
  obtain ⟨ts, u, hts, hu, hfirst, hboth⟩ := tokenize_append_of_semicolon hlast b file?
  have tokens_eq (source : String) :
      (Parser.ofScanner (.ofSource source file?)).reset.cursor.tokens = tokenize source file? :=
    Cursor.tokens_ofScanner _
  have fresh (source : String) := Parser.fresh_ofSource source file?
  have hstop : (Token.endOf (file?.getD unnamedFile) a.utf8ByteSize).kind = .eof := rfl
  have hblame : ∀ d ∈ (parse a file?).2.diagnostics.toList,
      d.position ≠ (Token.endOf (file?.getD unnamedFile) a.utf8ByteSize).span.start := by
    intro d hd hposition
    refine hend d (Array.mem_toList_iff.1 hd) ?_
    rw [hposition]
    exact Position.offset_at (by omega)
  rw [← tokens_eq a] at hfirst
  rw [← tokens_eq (a ++ b), ← tokens_eq b] at hboth
  obtain ⟨hbody, hdiagnostics⟩ :=
    Parser.topLevel_join (fresh a) (fresh b) (fresh (a ++ b)) hts hu hstop hfirst hboth hblame
  refine ⟨hbody, ?_⟩
  rw [← Array.toList_inj, Array.toList_append, Array.toList_map]
  exact hdiagnostics

theorem parse_append_of_semicolon_broken :
    (Utf8.bytes "let 1;").getLast? = some 0x3B ∧
      "let 1;".utf8ByteSize + "é (x".utf8ByteSize < UInt32.size ∧
      (∀ d ∈ (parse "let 1;" none).2.diagnostics, d.position.offset.toNat ≠ 6) ∧
      (parse "let 1;é (x" none).2.diagnostics =
        (parse "let 1;" none).2.diagnostics ++
          (parse "é (x" none).2.diagnostics.map (·.move (.shift 6)) ∧
      (parse "let 1;é (x" none).2.diagnostics.map (·.position.offset) = #[4, 6, 11] := by
  have hlast : (Utf8.bytes "let 1;").getLast? = some 0x3B := by decide +kernel
  have hsize : "let 1;".utf8ByteSize + "é (x".utf8ByteSize < UInt32.size := by decide
  have hend : ∀ d ∈ (parse "let 1;" none).2.diagnostics, d.position.offset.toNat ≠ 6 := by
    decide +kernel
  exact ⟨hlast, hsize, hend, (@parse_append_of_semicolon _ _ none hlast hsize hend).2,
    by decide +kernel⟩

end ExprLang
