import ExprLang.Grammar.Rule
import ExprLang.Proofs.Tree.Move
import ExprLang.Text.Decimal

/-!
# Writings of a tree

`e.Written ts top need` says that the tokens `ts` write the expression `e`.  The
judgement is the grammar of the language, and every tree in it carries the sites
that its tokens give it.

* `top` is the power of the operator at the top of the writing.  It is `.call` where
  nothing can come between the writing and an operator next to it: at a single token,
  in parentheses, and behind a call, a conditional or a function.
* `need` is how many expressions are inside each other while the writing is read, the
  whole one included.  Parentheses, the operand of a prefix operator, the right
  operand of an infix operator, an argument, a condition and a statement of a block
  are one further inside.  The left operand and the callee are not.

Parentheses leave no node.  They may stand around any expression, any number of
times, and must stand around

* a left operand whose power is below that of the operator (`binary`),
* a right operand whose power is not above it (`binary`),
* an operand of a prefix operator that is an infix expression (`unary`),
* a callee that is a prefix or an infix expression (`call`).

A statement may go without its semicolon where the next token has the default power
(`Stmt.ListWritten.cons`), and so at the end of a block or of the source.
-/

namespace ExprLang

/-! ## Sites of a run of tokens -/

/-- Where the last of some tokens ends. -/
def stopOf (ts : List Token) : Position := (ts.getLastD default).span.stop

/-- The site of a node that starts with its own token. -/
def Site.ofTokens (ts : List Token) : Site :=
  ⟨ts.headD default, ⟨(ts.headD default).span.start, stopOf ts⟩⟩

/-! ## Parameters -/

/-- Names, each behind a comma. -/
inductive Identifier.MoreWritten : List Identifier → List Token → Prop
  | nil : MoreWritten [] []
  | cons {comma t : Token} {ids : List Identifier} {ts : List Token} :
      comma.kind = .comma → t.kind = .identifier → MoreWritten ids ts →
      MoreWritten (.ofToken t :: ids) (comma :: t :: ts)

/-- Names with commas between them. -/
inductive Identifier.ListWritten : List Identifier → List Token → Prop
  | nil : ListWritten [] []
  | cons {t : Token} {ids : List Identifier} {ts : List Token} :
      t.kind = .identifier → MoreWritten ids ts → ListWritten (.ofToken t :: ids) (t :: ts)

/-! ## Expressions, blocks and statements -/

mutual

/-- The tokens write the expression, with an operator of power `top` at the top and
`need` expressions inside each other. -/
inductive Expr.Written : Expr → List Token → Power → Nat → Prop
  | identifier {t : Token} : t.kind = .identifier →
      Expr.Written (.identifier (.ofToken t)) [t] .call 1
  | integer {t : Token} {v : Int64} : t.kind = .int → Text.integer? t.literal = some v →
      Expr.Written (.integer ⟨t, t.span⟩ v) [t] .call 1
  | boolean {t : Token} : t.kind = .kwTrue ∨ t.kind = .kwFalse →
      Expr.Written (.boolean ⟨t, t.span⟩ (t.kind = .kwTrue)) [t] .call 1
  | unary {o : Token} {right : Expr} {ts : List Token} {top : Power} {n : Nat} :
      o.kind.prefixRule? = some .unary → right.Written ts top n → .unary ≤ top →
      Expr.Written (.unary (.ofTokens (o :: ts)) o.literal right) (o :: ts) .unary (n + 1)
  | group {o c : Token} {e : Expr} {ts : List Token} {top : Power} {n : Nat} :
      o.kind = .openParen → e.Written ts top n → c.kind = .closeParen →
      Expr.Written e (o :: (ts ++ [c])) .call (n + 1)
  | binary {o : Token} {left right : Expr} {ts us : List Token} {l r : Power} {m n : Nat} :
      left.Written ts l m → o.kind.infixRule? = some .binary → right.Written us r n →
      o.kind.power ≤ l → o.kind.power < r →
      Expr.Written (.binary ⟨o, ⟨left.site.span.start, stopOf us⟩⟩ o.literal left right)
        (ts ++ o :: us) o.kind.power (max m (n + 1))
  | conditional {k o c : Token} {e : Expr} {b : Block} {a : Option Block}
      {ts us vs : List Token} {top : Power} {l m n : Nat} :
      k.kind = .kwIf → o.kind = .openParen → e.Written ts top l → c.kind = .closeParen →
      b.Written us m → Block.ElseWritten a vs n →
      Expr.Written (.conditional (.ofTokens (k :: o :: (ts ++ c :: (us ++ vs)))) e b a)
        (k :: o :: (ts ++ c :: (us ++ vs))) .call (max l (max m n) + 1)
  | function {k o c : Token} {ids : List Identifier} {b : Block} {ts us : List Token}
      {n : Nat} :
      k.kind = .kwFn → o.kind = .openParen → Identifier.ListWritten ids ts →
      c.kind = .closeParen → b.Written us n →
      Expr.Written (.function (.ofTokens (k :: o :: (ts ++ c :: us))) ids b)
        (k :: o :: (ts ++ c :: us)) .call (n + 1)
  | call {o c : Token} {callee : Expr} {es : List Expr} {ts us : List Token} {m n : Nat} :
      callee.Written ts .call m → o.kind = .openParen → Expr.ListWritten es us n →
      c.kind = .closeParen →
      Expr.Written (.call ⟨o, ⟨callee.site.span.start, c.span.stop⟩⟩ callee es)
        (ts ++ o :: (us ++ [c])) .call (max m n)

/-- The tokens write the arguments, with commas between them. -/
inductive Expr.ListWritten : List Expr → List Token → Nat → Prop
  | nil : Expr.ListWritten [] [] 0
  | cons {e : Expr} {es : List Expr} {ts us : List Token} {top : Power} {m n : Nat} :
      e.Written ts top m → Expr.MoreWritten es us n →
      Expr.ListWritten (e :: es) (ts ++ us) (max (m + 1) n)

/-- The tokens write the arguments, each behind a comma. -/
inductive Expr.MoreWritten : List Expr → List Token → Nat → Prop
  | nil : Expr.MoreWritten [] [] 0
  | cons {comma : Token} {e : Expr} {es : List Expr} {ts us : List Token} {top : Power}
      {m n : Nat} :
      comma.kind = .comma → e.Written ts top m → Expr.MoreWritten es us n →
      Expr.MoreWritten (e :: es) (comma :: (ts ++ us)) (max (m + 1) n)

/-- The tokens write the block, braces included. -/
inductive Block.Written : Block → List Token → Nat → Prop
  | mk {o c : Token} {ss : List Stmt} {ts : List Token} {n : Nat} :
      o.kind = .openCurly → Stmt.ListWritten ss ts n → c.kind = .closeCurly →
      Block.Written (.mk (.ofTokens (o :: (ts ++ [c]))) ss) (o :: (ts ++ [c])) n

/-- The tokens write the second branch of a conditional, which may be missing. -/
inductive Block.ElseWritten : Option Block → List Token → Nat → Prop
  | none : Block.ElseWritten none [] 0
  | some {k : Token} {b : Block} {ts : List Token} {n : Nat} :
      k.kind = .kwElse → b.Written ts n → Block.ElseWritten (some b) (k :: ts) n

/-- The tokens write the statement.  The last index is the semicolon, if there is
one. -/
inductive Stmt.Written : Stmt → List Token → Nat → Option Token → Prop
  | binding {k name sign : Token} {e : Expr} {ts : List Token} {top : Power} {n : Nat}
      {semicolon? : Option Token} :
      k.kind = .kwLet → name.kind = .identifier → sign.kind = .assign → e.Written ts top n →
      (∀ t ∈ semicolon?, t.kind = .semicolon) →
      Stmt.Written
        (.binding (.ofTokens (k :: name :: sign :: (ts ++ semicolon?.toList))) (.ofToken name) e)
        (k :: name :: sign :: (ts ++ semicolon?.toList)) n semicolon?
  | result {k : Token} {e : Expr} {ts : List Token} {top : Power} {n : Nat}
      {semicolon? : Option Token} :
      k.kind = .kwReturn → e.Written ts top n → (∀ t ∈ semicolon?, t.kind = .semicolon) →
      Stmt.Written (.result (.ofTokens (k :: (ts ++ semicolon?.toList))) e)
        (k :: (ts ++ semicolon?.toList)) n semicolon?
  | expression {e : Expr} {ts : List Token} {top : Power} {n : Nat}
      {semicolon? : Option Token} :
      e.Written ts top n → (∀ t ∈ semicolon?, t.kind = .semicolon) →
      Stmt.Written (.expression (.ofTokens (ts ++ semicolon?.toList)) e)
        (ts ++ semicolon?.toList) n semicolon?

/-- The tokens write the statements one after the other. -/
inductive Stmt.ListWritten : List Stmt → List Token → Nat → Prop
  | nil : Stmt.ListWritten [] [] 0
  | cons {s : Stmt} {ss : List Stmt} {ts us : List Token} {m n : Nat}
      {semicolon? : Option Token} :
      s.Written ts m semicolon? →
      (semicolon? = none → ∀ t ∈ us.head?, t.kind.power = .default) →
      Stmt.ListWritten ss us n →
      Stmt.ListWritten (s :: ss) (ts ++ us) (max m n)

end

/-- The tokens of a whole source, the end token included, write the program. -/
inductive Program.Written : Program → List Token → Nat → Prop
  | mk {ss : List Stmt} {ts : List Token} {last : Token} {n : Nat} :
      Stmt.ListWritten ss ts n → last.kind = .eof →
      Written ⟨ss, ⟨.at ((ts ++ [last]).headD default).span.start.file 0, last.span.stop⟩⟩
        (ts ++ [last]) n

/-! ## The power asked for -/

/-- Is a writing with `top` at the top read to its end when an expression is asked for
whose operators bind tighter than `power`?  A prefix expression may stand behind a
prefix operator although it does not bind tighter. -/
def Power.Admits (power top : Power) : Prop := power < top ∨ power = .unary ∧ top = .unary

theorem Power.Admits.of_unary_le {power top : Power} (h : power < .call) (ht : .unary ≤ top) :
    power.Admits top := by
  rcases Power.unary_le ht with rfl | rfl
  · cases power with
    | unary => exact .inr ⟨rfl, rfl⟩
    | call => exact absurd h (by decide)
    | _ => exact .inl (by decide)
  · exact .inl h

/-- Where a token stops an expression it stops every writing the expression admits. -/
theorem Power.Admits.le {power top p : Power} (h : power.Admits top) (hp : p ≤ power) :
    p ≤ top := by
  rcases h with h | ⟨rfl, rfl⟩
  · exact Power.le_trans hp (Power.le_of_lt h)
  · exact hp

/-! ## What every writing has -/

/-- A site starts with the first of its tokens and ends with the last. -/
theorem stopOf_append_singleton (ts : List Token) (t : Token) :
    stopOf (ts ++ [t]) = t.span.stop := by
  rw [stopOf, List.getLastD_concat]

/-- A writing starts with a token that an expression can start with. -/
theorem Expr.Written.head {e : Expr} {ts : List Token} {top : Power} {n : Nat}
    (h : e.Written ts top n) : ∃ t us, ts = t :: us ∧ t.kind.prefixRule?.isSome := by
  cases h with
  | identifier hk => exact ⟨_, _, rfl, by rw [hk]; rfl⟩
  | integer hk _ => exact ⟨_, _, rfl, by rw [hk]; rfl⟩
  | boolean hk => exact ⟨_, _, rfl, by rcases hk with hk | hk <;> rw [hk] <;> rfl⟩
  | unary ho _ _ => exact ⟨_, _, rfl, by rw [ho]; rfl⟩
  | group ho _ _ => exact ⟨_, _, rfl, by rw [ho]; rfl⟩
  | binary hl _ _ _ _ =>
    obtain ⟨t, us, rfl, ht⟩ := hl.head
    exact ⟨t, _, rfl, ht⟩
  | conditional hk _ _ _ _ _ => exact ⟨_, _, rfl, by rw [hk]; rfl⟩
  | function hk _ _ _ _ => exact ⟨_, _, rfl, by rw [hk]; rfl⟩
  | call hc _ _ _ =>
    obtain ⟨t, us, rfl, ht⟩ := hc.head
    exact ⟨t, _, rfl, ht⟩

theorem Identifier.MoreWritten.ne_eof {ids : List Identifier} {ts : List Token}
    (h : MoreWritten ids ts) : ∀ t ∈ ts, t.kind ≠ .eof := by
  induction h with
  | nil => simp
  | cons hc ht _ ih => simpa [hc, ht] using ih

theorem Identifier.ListWritten.ne_eof {ids : List Identifier} {ts : List Token}
    (h : ListWritten ids ts) : ∀ t ∈ ts, t.kind ≠ .eof := by
  cases h with
  | nil => simp
  | cons ht hids => simpa [ht] using hids.ne_eof

theorem ne_eof_of_semicolon {semicolon? : Option Token}
    (h : ∀ t ∈ semicolon?, t.kind = .semicolon) : ∀ t ∈ semicolon?, t.kind ≠ .eof := by
  intro t ht
  rw [h t ht]
  decide

/-- An expression is inside itself. -/
theorem Expr.Written.need_pos {e : Expr} {ts : List Token} {top : Power} {n : Nat}
    (h : e.Written ts top n) : 0 < n := by
  cases h with
  | identifier _ => exact Nat.one_pos
  | integer _ _ => exact Nat.one_pos
  | boolean _ => exact Nat.one_pos
  | unary _ _ _ => exact Nat.succ_pos _
  | group _ _ _ => exact Nat.succ_pos _
  | binary _ _ _ _ _ => omega
  | conditional _ _ _ _ _ _ => exact Nat.succ_pos _
  | function _ _ _ _ _ => exact Nat.succ_pos _
  | call hc _ _ _ =>
    have := hc.need_pos
    omega

/-- Where any expression is asked for every writing is admitted. -/
theorem Expr.Written.admits_default {e : Expr} {ts : List Token} {top : Power} {n : Nat}
    (h : e.Written ts top n) : Power.default.Admits top := by
  refine .inl ?_
  cases h with
  | binary _ ho _ _ _ => exact (TokenKind.infixRule?_isSome_iff _).1 (by rw [ho]; rfl)
  | _ => decide

mutual

/-- The end token is in no writing. -/
theorem Expr.Written.ne_eof {e : Expr} {ts : List Token} {top : Power} {n : Nat} :
    e.Written ts top n → ∀ t ∈ ts, t.kind ≠ .eof
  | .identifier hk => by simp [hk]
  | .integer hk _ => by simp [hk]
  | .boolean hk => by rcases hk with hk | hk <;> simp [hk]
  | .unary ho hr _ => by
      refine List.forall_mem_cons.2 ⟨?_, hr.ne_eof⟩
      intro hk
      rw [hk] at ho
      cases ho
  | .group ho he hc => by simpa [ho, hc, or_imp, forall_and] using he.ne_eof
  | .binary hl ho hr _ _ => by
      refine List.forall_mem_append.2 ⟨hl.ne_eof, List.forall_mem_cons.2 ⟨?_, hr.ne_eof⟩⟩
      intro hk
      rw [hk] at ho
      cases ho
  | .conditional hk ho he hc hb ha => by
      simpa [hk, ho, hc, or_imp, forall_and] using ⟨he.ne_eof, hb.ne_eof, ha.ne_eof⟩
  | .function hk ho hids hc hb => by
      simpa [hk, ho, hc, or_imp, forall_and] using ⟨hids.ne_eof, hb.ne_eof⟩
  | .call hf ho has hc => by
      simpa [ho, hc, or_imp, forall_and] using ⟨hf.ne_eof, has.ne_eof⟩

theorem Expr.ListWritten.ne_eof {es : List Expr} {ts : List Token} {n : Nat} :
    Expr.ListWritten es ts n → ∀ t ∈ ts, t.kind ≠ .eof
  | .nil => by simp
  | .cons he hes => List.forall_mem_append.2 ⟨he.ne_eof, hes.ne_eof⟩

theorem Expr.MoreWritten.ne_eof {es : List Expr} {ts : List Token} {n : Nat} :
    Expr.MoreWritten es ts n → ∀ t ∈ ts, t.kind ≠ .eof
  | .nil => by simp
  | .cons hc he hes => by
      simpa [hc, or_imp, forall_and] using ⟨he.ne_eof, hes.ne_eof⟩

theorem Block.Written.ne_eof {b : Block} {ts : List Token} {n : Nat} :
    b.Written ts n → ∀ t ∈ ts, t.kind ≠ .eof
  | .mk ho hss hc => by simpa [ho, hc, or_imp, forall_and] using hss.ne_eof

theorem Block.ElseWritten.ne_eof {a : Option Block} {ts : List Token} {n : Nat} :
    Block.ElseWritten a ts n → ∀ t ∈ ts, t.kind ≠ .eof
  | .none => by simp
  | .some hk hb => by simpa [hk] using hb.ne_eof

theorem Stmt.Written.ne_eof {s : Stmt} {ts : List Token} {n : Nat} {semicolon? : Option Token} :
    s.Written ts n semicolon? → ∀ t ∈ ts, t.kind ≠ .eof
  | .binding hk hname hsign he hsemi => by
      simpa [hk, hname, hsign, or_imp, forall_and] using ⟨he.ne_eof, ne_eof_of_semicolon hsemi⟩
  | .result hk he hsemi => by
      simpa [hk, or_imp, forall_and] using ⟨he.ne_eof, ne_eof_of_semicolon hsemi⟩
  | .expression he hsemi =>
      List.forall_mem_append.2 ⟨he.ne_eof, by simpa using ne_eof_of_semicolon hsemi⟩

theorem Stmt.ListWritten.ne_eof {ss : List Stmt} {ts : List Token} {n : Nat} :
    Stmt.ListWritten ss ts n → ∀ t ∈ ts, t.kind ≠ .eof
  | .nil => by simp
  | .cons hs _ hss => List.forall_mem_append.2 ⟨hs.ne_eof, hss.ne_eof⟩

end

/-- A statement starts with a token of its own or with an expression. -/
theorem Stmt.Written.head {s : Stmt} {ts : List Token} {n : Nat} {semicolon? : Option Token}
    (h : s.Written ts n semicolon?) :
    ∃ t us, ts = t :: us ∧ (t.kind.stmtRule?.isSome ∨ t.kind.prefixRule?.isSome) := by
  cases h with
  | binding hk _ _ _ _ => exact ⟨_, _, rfl, .inl (by rw [hk]; rfl)⟩
  | result hk _ _ => exact ⟨_, _, rfl, .inl (by rw [hk]; rfl)⟩
  | expression he _ =>
    obtain ⟨t, us, rfl, ht⟩ := he.head
    exact ⟨t, _, rfl, .inr ht⟩

end ExprLang
