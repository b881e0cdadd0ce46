import ExprLang.Proofs.Parser.Restart

/-!
# Nestings beyond the limit

Parentheses around a number, and signs in front of a name, are nested as deep as there are
characters in front.  Here it is told for every depth what such a source is parsed to
(`parse_deep`).

The limit is met at the 65th character in front.  All that came before is left, and the next
statement starts behind that character (`Yields.opens`).  So the source is taken 65 characters at a
time, and what decides in the end is the remainder.  Fewer than 64 characters in front leave room
for the operand, and 64 do not.  Closing parentheses without opening ones are rounds of their own
(`Yields.strays`).
-/

namespace ExprLang

/-! ## Tokens of one character -/

/-- The token of a character at an offset. -/
def Token.ofChar (file : String) (kind : TokenKind) (c : Char) (i : Nat) : Token :=
  ⟨kind, .ofList [c], .between file i (i + 1)⟩

/-- The tokens of `n` equal characters from an offset on. -/
def Token.ofChars (file : String) (kind : TokenKind) (c : Char) (i n : Nat) : List Token :=
  (List.range' i n).map (Token.ofChar file kind c)

section Chars

variable {file : String} {kind : TokenKind} {c : Char} {cs : List Char}

theorem Token.ofChars_zero (i : Nat) : ofChars file kind c i 0 = [] := rfl

theorem Token.ofChars_succ (i n : Nat) :
    ofChars file kind c i (n + 1) = ofChar file kind c i :: ofChars file kind c (i + 1) n := by
  rw [ofChars, List.range'_succ, List.map_cons, ofChars]

theorem Token.ofChars_add (i m n : Nat) :
    ofChars file kind c i (m + n) = ofChars file kind c i m ++ ofChars file kind c (i + m) n := by
  rw [ofChars, ← List.range'_append_1, List.map_append, ofChars, ofChars]

theorem Token.length_ofChars (i n : Nat) : (ofChars file kind c i n).length = n := by
  rw [ofChars, List.length_map, List.length_range']

theorem Token.kind_of_mem_ofChars {i n : Nat} {t : Token} (h : t ∈ ofChars file kind c i n) :
    t.kind = kind := by
  obtain ⟨j, -, rfl⟩ := List.mem_map.1 h
  rfl

namespace Munch

/-- A character that is a lexeme by itself. -/
structure Single (c : Char) (kind : TokenKind) : Prop where
  ascii : c.toNat < 128
  not_layout : isLayout c = false
  lexeme_eq : lexeme c [] = (kind, [c])

theorem single_openParen : Single '(' .openParen := ⟨by decide, by decide, rfl⟩

theorem single_closeParen : Single ')' .closeParen := ⟨by decide, by decide, rfl⟩

theorem single_bang : Single '!' .bang := ⟨by decide, by decide, rfl⟩

theorem single_one : Single '1' .int := ⟨by decide, by decide, rfl⟩

theorem single_x : Single 'x' .identifier := ⟨by decide, by decide, rfl⟩

/-- At the end no character goes on with it. -/
theorem goesOn_nil : ∀ d ∈ ([] : List Char).head?, kind.goesOn d = false := by
  intro d hd
  cases hd

theorem Single.place_cons (h : Single c kind) (hstop : ∀ d ∈ cs.head?, kind.goesOn d = false)
    (i : Nat) : place file i (pieces (c :: cs)) =
      Token.ofChar file kind c i :: place file (i + 1) (pieces cs) := by
  have hfirst : (c :: cs).dropWhile isLayout = c :: cs := by
    rw [List.dropWhile_cons, h.not_layout]
    rfl
  have htake : (c :: cs).takeWhile isLayout = [] := by
    rw [List.takeWhile_cons, h.not_layout]
    rfl
  have hlexeme := lexeme_append_of_stop h.lexeme_eq hstop
  have hwidth : Utf8.width [c] = 1 := by
    rw [Utf8.width, Utf8.encode_cons, Utf8.encode_ascii h.ascii]
    rfl
  rw [pieces_of_cons hfirst hlexeme rfl, htake, place, hwidth]
  rfl

theorem Single.place_replicate (h : Single c kind) (hself : kind.goesOn c = false)
    (hstop : ∀ d ∈ cs.head?, kind.goesOn d = false) (i n : Nat) :
    place file i (pieces (List.replicate n c ++ cs)) =
      Token.ofChars file kind c i n ++ place file (i + n) (pieces cs) := by
  induction n generalizing i with
  | zero => rfl
  | succ n ih =>
    have hnext : ∀ d ∈ (List.replicate n c ++ cs).head?, kind.goesOn d = false := by
      cases n with
      | zero => exact hstop
      | succ n =>
        intro d hd
        cases hd
        exact hself
    rw [List.replicate_succ, List.cons_append, h.place_cons hnext, ih, Token.ofChars_succ,
      List.cons_append, Nat.add_right_comm]
    rfl

end Munch

end Chars

/-! ## Sources -/

/-- The number one in `n` pairs of parentheses. -/
def parenthesized (n : Nat) : String :=
  .ofList (List.replicate n '(' ++ '1' :: List.replicate n ')')

/-- A name behind `n` signs. -/
def negated (n : Nat) : String := .ofList (List.replicate n '!' ++ ['x'])

section Tokens

variable (n : Nat) (file? : Option String)

theorem tokenize_parenthesized :
    ∃ last : Token, last.kind = .eof ∧ tokenize (parenthesized n) file? =
      Token.ofChars (file?.getD unnamedFile) .openParen '(' 0 n ++
        Token.ofChar (file?.getD unnamedFile) .int '1' n ::
          (Token.ofChars (file?.getD unnamedFile) .closeParen ')' (n + 1) n ++ [last]) := by
  have hclose : ∀ d ∈ (List.replicate n ')').head?, TokenKind.int.goesOn d = false := by
    intro d hd
    obtain rfl := List.eq_of_mem_replicate (List.mem_of_mem_head? hd)
    rfl
  have hback := @Munch.Single.place_replicate (file?.getD unnamedFile) _ _ []
    Munch.single_closeParen rfl Munch.goesOn_nil (n + 1) n
  have hnil : Munch.pieces [] = [] := Munch.pieces_of_nil rfl
  rw [List.append_nil, hnil, Munch.place, List.append_nil] at hback
  refine ⟨.endOf (file?.getD unnamedFile) (parenthesized n).utf8ByteSize, rfl, ?_⟩
  rw [tokenize_eq_append_endOf, Munch.tokens, parenthesized, String.toList_ofList,
    Munch.single_openParen.place_replicate rfl (fun _ _ => rfl), Nat.zero_add,
    Munch.single_one.place_cons hclose, hback, List.append_assoc, List.cons_append]

theorem tokenize_negated :
    ∃ last : Token, last.kind = .eof ∧ tokenize (negated n) file? =
      Token.ofChars (file?.getD unnamedFile) .bang '!' 0 n ++
        [Token.ofChar (file?.getD unnamedFile) .identifier 'x' n, last] := by
  have hname : ∀ d ∈ ['x'].head?, TokenKind.bang.goesOn d = false := by
    intro d hd
    cases hd
    rfl
  have hnil : Munch.pieces [] = [] := Munch.pieces_of_nil rfl
  refine ⟨.endOf (file?.getD unnamedFile) (negated n).utf8ByteSize, rfl, ?_⟩
  rw [tokenize_eq_append_endOf, Munch.tokens, negated, String.toList_ofList,
    Munch.single_bang.place_replicate rfl hname, Nat.zero_add,
    Munch.single_x.place_cons Munch.goesOn_nil, hnil, Munch.place, List.append_assoc]
  rfl

end Tokens

/-! ## Writings -/

section Written

variable {file : String}

/-- A writing in parentheses, any number of times, is a writing of the same. -/
theorem Expr.Written.grouped {e : Expr} {ts : List Token} {top : Power} {n : Nat}
    (h : e.Written ts top n) (i j r : Nat) :
    ∃ top', e.Written (Token.ofChars file .openParen '(' i r ++
      (ts ++ Token.ofChars file .closeParen ')' j r)) top' (n + r) := by
  induction r generalizing i with
  | zero =>
    rw [Token.ofChars_zero, Token.ofChars_zero, List.nil_append, List.append_nil]
    exact ⟨top, h⟩
  | succ r ih =>
    obtain ⟨top', hinside⟩ := ih (i + 1)
    have hgroup := Expr.Written.group (o := .ofChar file .openParen '(' i)
      (c := .ofChar file .closeParen ')' (j + r)) rfl hinside rfl
    rw [Token.ofChars_succ, Token.ofChars_add j r 1, List.cons_append, ← List.append_assoc ts,
      ← List.append_assoc]
    exact ⟨.call, hgroup⟩

/-- The name `x` behind `r` signs, of which the first has the offset `i`. -/
def Expr.behindSigns (file : String) (x : Token) : (i r : Nat) → Expr
  | _, 0 => .identifier (.ofToken x)
  | i, r + 1 =>
    .unary (.ofTokens (Token.ofChars file .bang '!' i (r + 1) ++ [x])) "!"
      (Expr.behindSigns file x (i + 1) r)

theorem Expr.behindSigns_written {x : Token} (hx : x.kind = .identifier) (i r : Nat) :
    ∃ top, (Expr.behindSigns file x i r).Written (Token.ofChars file .bang '!' i r ++ [x]) top
      (1 + r) ∧ .unary ≤ top := by
  induction r generalizing i with
  | zero => exact ⟨.call, .identifier hx, by decide⟩
  | succ r ih =>
    obtain ⟨top, hinside, htop⟩ := ih (i + 1)
    rw [Expr.behindSigns, Token.ofChars_succ]
    exact ⟨.unary, .unary (o := .ofChar file .bang '!' i) rfl hinside htop, by decide⟩

/-! ## Rounds -/

/-- The diagnostics of `q` tokens that are nested too deep, of which the first is 64 characters
behind `i` and every other one 65 behind the one before. -/
def tooDeeps (file : String) (i q : Nat) : List Diagnostic :=
  (List.range q).map fun k => ⟨.nestingTooDeep 64, .at file (65 * k + 64 + i)⟩

/-- The diagnostics of `n` closing parentheses from an offset on. -/
def strays (file : String) (i n : Nat) : List Diagnostic :=
  (List.range' i n).map fun j => ⟨.noPrefixRule .closeParen ")", .at file j⟩

theorem length_tooDeeps (i q : Nat) : (tooDeeps file i q).length = q := by
  rw [tooDeeps, List.length_map, List.length_range]

theorem length_strays (i n : Nat) : (strays file i n).length = n := by
  rw [strays, List.length_map, List.length_range']

/-- One more comes first, and the others are those behind. -/
theorem tooDeeps_succ (i q : Nat) : tooDeeps file i (q + 1) =
    ⟨.nestingTooDeep 64, .at file (i + 64)⟩ :: tooDeeps file (i + 65) q := by
  have hfirst : 65 * 0 + 64 + i = i + 64 := by omega
  have hoffset (k : Nat) : 65 * (k + 1) + 64 + i = 65 * k + 64 + (i + 65) := by omega
  simp only [tooDeeps, List.range_succ_eq_map, List.map_cons, List.map_map, Function.comp_def,
    hfirst, Nat.succ_eq_add_one, hoffset]

/-- One more comes last. -/
theorem tooDeeps_concat (q : Nat) : tooDeeps file 0 (q + 1) =
    tooDeeps file 0 q ++ [⟨.nestingTooDeep 64, .at file (65 * q + 64)⟩] := by
  rw [tooDeeps, List.range_succ, List.map_append, List.map_singleton, Nat.add_zero, tooDeeps]

variable {ts : List Token} {body : List Stmt} {ds : List Diagnostic}

/-- Characters that open a nesting are taken 65 at a time. -/
theorem Yields.opens {kind : TokenKind} {c : Char} {r : Nat}
    (hkind : kind.prefixRule? = some .unary ∨ kind.prefixRule? = some .group) (q i : Nat)
    (h : Yields (Token.ofChars file kind c (i + 65 * q) r ++ ts) body ds) :
    Yields (Token.ofChars file kind c i (65 * q + r) ++ ts) body (tooDeeps file i q ++ ds) := by
  induction q generalizing i with
  | zero =>
    rw [Nat.mul_zero, Nat.zero_add]
    exact h
  | succ q ih =>
    have hopens : ∀ t ∈ Token.ofChars file kind c i 64, t.Opens := by
      intro t ht
      rw [Token.Opens, Token.kind_of_mem_ofChars ht]
      exact hkind
    have hopen : (Token.ofChar file kind c (i + 64)).Opens := hkind
    have hlater : i + 65 * (q + 1) = i + 65 + 65 * q := by omega
    have hcount : 65 * (q + 1) + r = 64 + (65 * q + r + 1) := by omega
    rw [hlater] at h
    have hrest := ih (i + 65) h
    have hround := Drops.tooDeep hopens (Token.length_ofChars i 64) hopen.ne_eof
      (Token.ofChars file kind c (i + 65) (65 * q + r) ++ ts)
    rw [hcount, Token.ofChars_add, Token.ofChars_succ, List.append_assoc, List.cons_append,
      tooDeeps_succ, List.cons_append]
    exact hrest.dropped hround

/-- Closing parentheses without opening ones are left one by one. -/
theorem Yields.strays (file : String) (i n : Nat) (h : Yields ts body ds) :
    Yields (Token.ofChars file .closeParen ')' i n ++ ts) body (strays file i n ++ ds) := by
  induction n generalizing i with
  | zero => exact h
  | succ n ih =>
    have hround := Drops.stray (t := .ofChar file .closeParen ')' i) rfl rfl nofun
      (Token.ofChars file .closeParen ')' (i + 1) n ++ ts)
    rw [Token.ofChars_succ, List.cons_append]
    exact (ih (i + 1)).dropped hround

/-! ## The statements that are kept -/

/-- The tokens of the number one in `r` pairs of parentheses, from the offset `i` on. -/
def groupedTokens (file : String) (i r : Nat) : List Token :=
  Token.ofChars file .openParen '(' i r ++ ([Token.ofChar file .int '1' (i + r)] ++
    Token.ofChars file .closeParen ')' (i + r + 1) r)

/-- The number one as a statement in `r` pairs of parentheses. -/
def groupedOne (file : String) (i r : Nat) : Stmt :=
  .expression (.ofTokens (groupedTokens file i r))
    (.integer ⟨.ofChar file .int '1' (i + r), .between file (i + r) (i + r + 1)⟩ 1)

theorem groupedOne_written (file : String) (i r : Nat) :
    (groupedOne file i r).Written (groupedTokens file i r) (1 + r) none := by
  have hvalue : Text.integer? (.ofList ['1']) = some 1 := by decide +kernel
  have hone := Expr.Written.integer (t := .ofChar file .int '1' (i + r)) rfl hvalue
  obtain ⟨top, hgrouped⟩ := @Expr.Written.grouped file _ _ _ _ hone i (i + r + 1) r
  have hstmt := @Stmt.Written.expression _ _ _ _ none hgrouped nofun
  rw [Option.toList_none, List.append_nil] at hstmt
  exact hstmt

/-- The tokens of a name behind `r` signs, from the offset `i` on. -/
def negatedTokens (file : String) (i r : Nat) : List Token :=
  Token.ofChars file .bang '!' i r ++ [Token.ofChar file .identifier 'x' (i + r)]

/-- The name as a statement behind `r` signs. -/
def negatedName (file : String) (i r : Nat) : Stmt :=
  .expression (.ofTokens (negatedTokens file i r))
    (.behindSigns file (.ofChar file .identifier 'x' (i + r)) i r)

theorem negatedName_written (file : String) (i r : Nat) :
    (negatedName file i r).Written (negatedTokens file i r) (1 + r) none := by
  obtain ⟨top, hname, -⟩ := @Expr.behindSigns_written file
    (.ofChar file .identifier 'x' (i + r)) rfl i r
  have hstmt := @Stmt.Written.expression _ _ _ _ none hname nofun
  rw [Option.toList_none, List.append_nil] at hstmt
  exact hstmt

/-! ## Whole sources -/

theorem TokenKind.separates_eof : TokenKind.eof.Separates := ⟨rfl, nofun, nofun⟩

theorem TokenKind.separates_closeParen : TokenKind.closeParen.Separates := ⟨rfl, nofun, nofun⟩

/-- Behind closing parentheses, or behind none, a statement is at its end. -/
theorem exists_separates (file : String) (i n : Nat) {last : Token} (hlast : last.kind = .eof) :
    ∃ t, (Token.ofChars file .closeParen ')' i n ++ [last]).head? = some t ∧ t.kind.Separates := by
  cases n with
  | zero => exact ⟨last, rfl, hlast ▸ TokenKind.separates_eof⟩
  | succ n => exact ⟨_, rfl, TokenKind.separates_closeParen⟩

section Sources

variable (q r : Nat) (file? : Option String)

/-- With room for the number, what is too much are the closing parentheses of those that were
left. -/
theorem yields_parenthesized (hr : r < 64) :
    Yields (tokenize (parenthesized (65 * q + r)) file?)
      [groupedOne (file?.getD unnamedFile) (65 * q) r]
      (tooDeeps (file?.getD unnamedFile) 0 q ++
        strays (file?.getD unnamedFile) (65 * q + 2 * r + 1) (65 * q)) := by
  obtain ⟨last, hlast, htokens⟩ := tokenize_parenthesized (65 * q + r) file?
  rw [htokens]
  generalize file?.getD unnamedFile = file
  refine Yields.opens (.inr rfl) q 0 ?_
  have hclose : Token.ofChars file .closeParen ')' (65 * q + r + 1) (65 * q + r) =
      Token.ofChars file .closeParen ')' (65 * q + r + 1) r ++
        Token.ofChars file .closeParen ')' (65 * q + 2 * r + 1) (65 * q) := by
    have hoffset : 65 * q + r + 1 + r = 65 * q + 2 * r + 1 := by omega
    rw [← hoffset, ← Token.ofChars_add, Nat.add_comm r]
  have hcut : Token.ofChars file .openParen '(' (0 + 65 * q) r ++
      Token.ofChar file .int '1' (65 * q + r) ::
        (Token.ofChars file .closeParen ')' (65 * q + r + 1) (65 * q + r) ++ [last]) =
      groupedTokens file (65 * q) r ++
        (Token.ofChars file .closeParen ')' (65 * q + 2 * r + 1) (65 * q) ++ [last]) := by
    rw [hclose, Nat.zero_add]
    simp [groupedTokens]
  obtain ⟨t, ht, hseparates⟩ := exists_separates file (65 * q + 2 * r + 1) (65 * q) hlast
  have hkeeps := Keeps.written (groupedOne_written file (65 * q) r) (show 1 + r ≤ 64 by omega) ht
    hseparates
  have hrest := (Yields.nil hlast).strays file (65 * q + 2 * r + 1) (65 * q)
  rw [List.append_nil] at hrest
  rw [hcut]
  exact hrest.kept hkeeps

/-- Without room for it the number is one more that is too deep, and no parenthesis is closed. -/
theorem yields_parenthesized_full :
    Yields (tokenize (parenthesized (65 * q + 64)) file?) []
      (tooDeeps (file?.getD unnamedFile) 0 (q + 1) ++
        strays (file?.getD unnamedFile) (65 * q + 65) (65 * q + 64)) := by
  obtain ⟨last, hlast, htokens⟩ := tokenize_parenthesized (65 * q + 64) file?
  rw [htokens, tooDeeps_concat, List.append_assoc]
  generalize file?.getD unnamedFile = file
  refine Yields.opens (.inr rfl) q 0 ?_
  have hopens : ∀ t ∈ Token.ofChars file .openParen '(' (0 + 65 * q) 64, t.Opens := by
    intro t ht
    exact .inr (Token.kind_of_mem_ofChars ht ▸ rfl)
  have hrest := (Yields.nil hlast).strays file (65 * q + 65) (65 * q + 64)
  rw [List.append_nil] at hrest
  have hone : (Token.ofChar file .int '1' (65 * q + 64)).kind ≠ .eof := nofun
  exact hrest.dropped (Drops.tooDeep hopens (Token.length_ofChars _ _) hone _)

/-- With room for the name, every sign that is left is in front of it. -/
theorem yields_negated (hr : r < 64) :
    Yields (tokenize (negated (65 * q + r)) file?)
      [negatedName (file?.getD unnamedFile) (65 * q) r]
      (tooDeeps (file?.getD unnamedFile) 0 q) := by
  obtain ⟨last, hlast, htokens⟩ := tokenize_negated (65 * q + r) file?
  rw [htokens, ← List.append_nil (tooDeeps _ 0 q)]
  generalize file?.getD unnamedFile = file
  refine Yields.opens (.inl rfl) q 0 ?_
  have hkeeps := Keeps.written (negatedName_written file (65 * q) r)
    (show 1 + r ≤ 64 by omega) (List.head?_cons (a := last) (l := []))
    (hlast ▸ TokenKind.separates_eof)
  have hyields := (Yields.nil hlast).kept hkeeps
  rw [negatedTokens, List.append_assoc] at hyields
  rw [Nat.zero_add]
  exact hyields

/-- Without room for it the name is one more that is too deep. -/
theorem yields_negated_full :
    Yields (tokenize (negated (65 * q + 64)) file?) []
      (tooDeeps (file?.getD unnamedFile) 0 (q + 1)) := by
  obtain ⟨last, hlast, htokens⟩ := tokenize_negated (65 * q + 64) file?
  rw [htokens, tooDeeps_concat]
  generalize file?.getD unnamedFile = file
  refine Yields.opens (.inl rfl) q 0 ?_
  have hopens : ∀ t ∈ Token.ofChars file .bang '!' (0 + 65 * q) 64, t.Opens := by
    intro t ht
    exact .inl (Token.kind_of_mem_ofChars ht ▸ rfl)
  have hname : (Token.ofChar file .identifier 'x' (65 * q + 64)).kind ≠ .eof := nofun
  exact (Yields.nil hlast).dropped (Drops.tooDeep hopens (Token.length_ofChars _ _) hname _)

end Sources

end Written

/-- What parentheses around a number and signs in front of a name are parsed to, at every depth.
Every 65th character in front is too deep.  Where fewer than 64 are left behind the last of these
the operand is kept as a statement, and where 64 are left the operand is too deep as well.  Each
closing parenthesis of what was left starts no expression. -/
theorem parse_deep (q : Nat) (file? : Option String) :
    (∀ r < 64,
      (parse (parenthesized (65 * q + r)) file?).2.diagnostics.toList =
          tooDeeps (file?.getD unnamedFile) 0 q ++
            strays (file?.getD unnamedFile) (65 * q + 2 * r + 1) (65 * q) ∧
        (parse (parenthesized (65 * q + r)) file?).2.diagnostics.size = 66 * q ∧
        (parse (parenthesized (65 * q + r)) file?).1.body =
          [groupedOne (file?.getD unnamedFile) (65 * q) r]) ∧
    ((parse (parenthesized (65 * q + 64)) file?).2.diagnostics.toList =
        tooDeeps (file?.getD unnamedFile) 0 (q + 1) ++
          strays (file?.getD unnamedFile) (65 * q + 65) (65 * q + 64) ∧
      (parse (parenthesized (65 * q + 64)) file?).2.diagnostics.size = 66 * q + 65 ∧
      (parse (parenthesized (65 * q + 64)) file?).1.body = []) ∧
    (∀ r < 64,
      (parse (negated (65 * q + r)) file?).2.diagnostics.toList =
          tooDeeps (file?.getD unnamedFile) 0 q ∧
        (parse (negated (65 * q + r)) file?).1.body =
          [negatedName (file?.getD unnamedFile) (65 * q) r]) ∧
    (parse (negated (65 * q + 64)) file?).2.diagnostics.toList =
        tooDeeps (file?.getD unnamedFile) 0 (q + 1) ∧
      (parse (negated (65 * q + 64)) file?).1.body = [] := by
  have hsize {p : Parser} {ds : List Diagnostic} (h : p.diagnostics.toList = ds) :
      p.diagnostics.size = ds.length := by
    rw [← h, Array.length_toList]
  refine ⟨?_, ?_, ?_, ?_⟩
  · intro r hr
    obtain ⟨hbody, hds⟩ := (yields_parenthesized q r file? hr).parse
    refine ⟨hds, ?_, hbody⟩
    rw [hsize hds, List.length_append, length_tooDeeps, length_strays]
    omega
  · obtain ⟨hbody, hds⟩ := (yields_parenthesized_full q file?).parse
    refine ⟨hds, ?_, hbody⟩
    rw [hsize hds, List.length_append, length_tooDeeps, length_strays]
    omega
  · intro r hr
    obtain ⟨hbody, hds⟩ := (yields_negated q r file? hr).parse
    exact ⟨hds, hbody⟩
  · obtain ⟨hbody, hds⟩ := (yields_negated_full q file?).parse
    exact ⟨hds, hbody⟩

/-- One parenthesis more than the limit can take, and one more around the number that is kept. -/
theorem parse_deep_once :
    (parse (parenthesized 66) none).2.diagnostics.toList =
        ⟨.nestingTooDeep 64, .at "shell" 64⟩ :: strays "shell" 68 65 ∧
      (parse (parenthesized 66) none).1.body = [groupedOne "shell" 65 1] ∧
      (parse (negated 64) none).2.diagnostics.toList = [⟨.nestingTooDeep 64, .at "shell" 64⟩] := by
  obtain ⟨hparens, -, -, -⟩ := parse_deep 1 none
  obtain ⟨-, -, -, hsigns, -⟩ := parse_deep 0 none
  obtain ⟨hds, -, hbody⟩ := hparens 1 (by decide)
  exact ⟨hds, hbody, hsigns⟩

end ExprLang
