import ExprLang.Proofs.Grammar.Written
import ExprLang.Proofs.Token.Munch

/-!
# Precedence without a parser

A formula is operands with operators between them.  The tree that it stands for can be said of the
formula as a whole: the operator at the top is the rightmost one of those that bind loosest
(`Formula.split?_eq_some_iff`), and the trees of what is on either side are its operands
(`Formula.tree`).  The table of levels is `Formula.Operator.level`, and it is that of the binding
powers (`Formula.Operator.rank_power`).

The tokens of a formula write that tree (`Formula.exists_written`).  The left side of an operator
is not inside of anything, and the right side has operators of higher levels only.  So there are
never more expressions inside each other than there are levels, and two for an operand with its
sign, whatever the length of the formula.
-/

namespace ExprLang

/-- The token of a text without a place. -/
def Token.ofText (kind : TokenKind) (literal : String) : Token :=
  ⟨kind, literal, ⟨.nowhere, .nowhere⟩⟩

/-- The site of a token without a place. -/
def Site.ofToken (t : Token) : Site := ⟨t, ⟨.nowhere, .nowhere⟩⟩

namespace Formula

/-! ## Operators and operands -/

/-- What stands between two operands. -/
inductive Operator where
  | equals
  | notEquals
  | less
  | greater
  | plus
  | minus
  | asterisk
  | slash
deriving DecidableEq, Repr

namespace Operator

/-- How an operator is written. -/
def text : Operator → String
  | equals => "=="
  | notEquals => "!="
  | less => "<"
  | greater => ">"
  | plus => "+"
  | minus => "-"
  | asterisk => "*"
  | slash => "/"

/-- The kind of its token. -/
def kind : Operator → TokenKind
  | equals => .equals
  | notEquals => .notEquals
  | less => .less
  | greater => .greater
  | plus => .plus
  | minus => .minus
  | asterisk => .asterisk
  | slash => .slash

/-- How tightly it binds, from equations up to products. -/
def level : Operator → Nat
  | equals | notEquals => 0
  | less | greater => 1
  | plus | minus => 2
  | asterisk | slash => 3

/-- Its token, without a place. -/
def token (o : Operator) : Token := .ofText o.kind o.text

theorem infixRule?_kind (o : Operator) : o.kind.infixRule? = some .binary := by cases o <;> rfl

/-- The powers are the levels, with one power below. -/
theorem rank_power (o : Operator) : o.kind.power.rank = o.level + 1 := by cases o <;> rfl

theorem level_lt (o : Operator) : o.level < 4 := by cases o <;> decide

end Operator

/-- What may stand in front of an operand. -/
inductive Sign where
  | minus
  | bang
deriving DecidableEq, Repr

namespace Sign

/-- How a sign is written. -/
def text : Sign → String
  | minus => "-"
  | bang => "!"

/-- The kind of its token. -/
def kind : Sign → TokenKind
  | minus => .minus
  | bang => .bang

/-- Its token, without a place. -/
def token (s : Sign) : Token := .ofText s.kind s.text

theorem prefixRule?_kind (s : Sign) : s.kind.prefixRule? = some .unary := by cases s <;> rfl

end Sign

/-- An operand without its sign. -/
inductive Word where
  /-- Letters that are no keyword. -/
  | name (text : String) : text.toList ≠ [] → text.toList.all Munch.isLetter →
      TokenKind.isKeyword text = false → Word
  /-- Digits with a value up to the largest integer. -/
  | number (text : String) : text.toList ≠ [] → text.toList.all Char.isDigit →
      Text.digitsValue text.toList ≤ Text.maxInteger → Word
  | truth (value : Bool)

namespace Word

/-- Its token, without a place. -/
def token : Word → Token
  | name text _ _ _ => .ofText .identifier text
  | number text _ _ _ => .ofText .int text
  | truth true => .ofText .kwTrue "true"
  | truth false => .ofText .kwFalse "false"

/-- What it stands for. -/
def tree (w : Word) : Expr :=
  match w with
  | name text _ _ _ => .identifier ⟨.ofToken w.token, text⟩
  | number text _ _ _ =>
    .integer (.ofToken w.token) (Int64.ofNat (Text.digitsValue text.toList))
  | truth value => .boolean (.ofToken w.token) value

theorem exists_written (w : Word) :
    ∃ e, Expr.Written e [w.token] .call 1 ∧ e.unplaced = w.tree := by
  cases w with
  | name text _ _ _ => exact ⟨_, .identifier rfl, rfl⟩
  | number text hne hdigits hle =>
    have hv : Text.integer? text = some (Int64.ofNat (Text.digitsValue text.toList)) := by
      simp [Text.integer?, hne, hdigits, hle]
    exact ⟨_, .integer rfl hv, rfl⟩
  | truth value =>
    cases value with
    | true => exact ⟨_, .boolean (.inl rfl), rfl⟩
    | false => exact ⟨_, .boolean (.inr rfl), rfl⟩

end Word

/-- A word with a sign or without one. -/
structure Signed where
  sign? : Option Sign
  word : Word

namespace Signed

/-- Its tokens, without their places. -/
def tokens (x : Signed) : List Token := x.sign?.toList.map Sign.token ++ [x.word.token]

/-- What it stands for. -/
def tree (x : Signed) : Expr :=
  match x.sign? with
  | none => x.word.tree
  | some s => .unary (.ofToken s.token) s.text x.word.tree

theorem exists_written (x : Signed) :
    ∃ e top need, Expr.Written e x.tokens top need ∧ e.unplaced = x.tree ∧
      .unary ≤ top ∧ need ≤ 2 := by
  obtain ⟨sign?, word⟩ := x
  obtain ⟨e, hword, htree⟩ := word.exists_written
  cases sign? with
  | none => exact ⟨e, .call, 1, hword, htree, by decide, by decide⟩
  | some s =>
    refine ⟨_, .unary, 2, hword.unary (o := s.token) s.prefixRule?_kind (by decide), ?_,
      Power.le_refl _, Nat.le_refl _⟩
    rw [Expr.unplaced_unary, htree]
    rfl

end Signed

/-- An operator with the operand behind it. -/
structure Link where
  operator : Operator
  operand : Signed

/-- Its tokens, without their places. -/
def Link.tokens (l : Link) : List Token := l.operator.token :: l.operand.tokens

/-! ## Formulas -/

/-- Some links, cut at the rightmost one of those whose operators bind loosest. -/
def split? : List Link → Option (List Link × Link × List Link)
  | [] => none
  | l :: ls =>
    match split? ls with
    | none => some ([], l, ls)
    | some (before, m, after) =>
      if m.operator.level ≤ l.operator.level then some (l :: before, m, after)
      else some ([], l, ls)

variable {ls before after : List Link} {m : Link}

theorem split?_eq_none_iff : split? ls = none ↔ ls = [] := by
  cases ls with
  | nil => exact iff_of_true rfl rfl
  | cons l ls =>
    refine iff_of_false ?_ (List.cons_ne_nil _ _)
    rw [split?]
    split
    · exact nofun
    split <;> exact nofun

/-- Is no operator in front looser than the one in the middle, and is every one behind tighter? -/
structure Cut (before : List Link) (m : Link) (after : List Link) : Prop where
  before_le : ∀ l ∈ before, m.operator.level ≤ l.operator.level
  after_lt : ∀ l ∈ after, m.operator.level < l.operator.level

theorem cut_of_split? (h : split? ls = some (before, m, after)) :
    ls = before ++ m :: after ∧ Cut before m after := by
  induction ls generalizing before m after with
  | nil => cases h
  | cons l ls ih =>
    rw [split?] at h
    split at h
    · next hnone =>
      cases h
      rw [split?_eq_none_iff.1 hnone]
      exact ⟨rfl, List.forall_mem_nil _, List.forall_mem_nil _⟩
    next b n a hsome =>
      obtain ⟨hls, hcut⟩ := ih hsome
      split at h
      · next hle =>
        cases h
        exact ⟨by rw [hls, List.cons_append],
          List.forall_mem_cons.2 ⟨hle, hcut.before_le⟩, hcut.after_lt⟩
      · next hlt =>
        cases h
        refine ⟨rfl, List.forall_mem_nil _, ?_⟩
        have hlt := Nat.not_le.1 hlt
        rw [hls]
        refine List.forall_mem_append.2 ⟨?_, List.forall_mem_cons.2 ⟨hlt, ?_⟩⟩
        · intro x hx
          exact Nat.lt_of_lt_of_le hlt (hcut.before_le x hx)
        · intro x hx
          exact Nat.lt_trans hlt (hcut.after_lt x hx)

theorem Cut.split? (h : Cut before m after) :
    split? (before ++ m :: after) = some (before, m, after) := by
  induction before with
  | nil =>
    rw [List.nil_append, Formula.split?]
    split
    · rfl
    next b n a hsome =>
      -- The cut of what is behind is at an operator from there, and these bind tighter.
      have hmem : n ∈ after := by
        rw [(cut_of_split? hsome).1]
        exact List.mem_append_right b List.mem_cons_self
      exact if_neg (Nat.not_le.2 (h.after_lt n hmem))
  | cons l before ih =>
    obtain ⟨hle, hbefore⟩ := List.forall_mem_cons.1 h.before_le
    rw [List.cons_append, Formula.split?, ih ⟨hbefore, h.after_lt⟩]
    exact if_pos hle

/-- Links are cut at one place, the only one where no operator in front binds looser and every one
behind binds tighter. -/
theorem split?_eq_some_iff :
    split? ls = some (before, m, after) ↔ ls = before ++ m :: after ∧ Cut before m after := by
  constructor
  · exact cut_of_split?
  · rintro ⟨rfl, hcut⟩
    exact hcut.split?

end Formula

open Formula

/-- Operands with operators between them. -/
structure Formula where
  first : Signed
  rest : List Link

namespace Formula

/-- Its tokens, without their places. -/
def tokens (f : Formula) : List Token := f.first.tokens ++ f.rest.flatMap Link.tokens

/-- What it stands for. -/
def tree (f : Formula) : Expr :=
  match _h : split? f.rest with
  | none => f.first.tree
  | some (before, l, after) =>
    .binary (.ofToken l.operator.token) l.operator.text (tree ⟨f.first, before⟩)
      (tree ⟨l.operand, after⟩)
termination_by f.rest.length
decreasing_by
  · rw [(split?_eq_some_iff.1 _h).1, List.length_append, List.length_cons]
    exact Nat.lt_add_of_pos_right (Nat.succ_pos _)
  · rw [(split?_eq_some_iff.1 _h).1, List.length_append, List.length_cons]
    exact Nat.lt_add_left _ (Nat.lt_succ_self _)

/-- The tokens of a formula write its tree.  The power at the top is above every level that all
operators reach, and each level that they reach leaves one expression fewer inside another. -/
theorem exists_written (f : Formula) :
    ∃ e top need, Expr.Written e f.tokens top need ∧ e.unplaced = f.tree ∧
      ∀ k ≤ 4, (∀ l ∈ f.rest, k ≤ l.operator.level) → k < top.rank ∧ need + k ≤ 6 := by
  fun_induction tree f with
  | case1 f h =>
    obtain ⟨e, top, need, hwritten, htree, htop, hneed⟩ := f.first.exists_written
    refine ⟨e, top, need, ?_, htree, ?_⟩
    · rw [tokens, split?_eq_none_iff.1 h, List.flatMap_nil, List.append_nil]
      exact hwritten
    · intro k hk _
      have hrank : 5 ≤ top.rank := htop
      omega
  | case2 f before l after h ihleft ihright =>
    obtain ⟨hrest, hcut⟩ := split?_eq_some_iff.1 h
    obtain ⟨left, ltop, m, hleft, hlefttree, hlbound⟩ := ihleft
    obtain ⟨right, rtop, n, hright, hrighttree, hrbound⟩ := ihright
    have hlevel := l.operator.level_lt
    have hrank := l.operator.rank_power
    obtain ⟨hltop, -⟩ := hlbound _ (Nat.le_of_lt hlevel) hcut.before_le
    obtain ⟨hrtop, hn⟩ := hrbound _ hlevel hcut.after_lt
    have hle : l.operator.kind.power ≤ ltop := by
      rw [Power.le_def, hrank]
      exact hltop
    have hlt : l.operator.kind.power < rtop := by
      rw [Power.lt_def, hrank]
      exact hrtop
    have hwritten :=
      hleft.binary (o := l.operator.token) l.operator.infixRule?_kind hright hle hlt
    have htokens : f.tokens = (⟨f.first, before⟩ : Formula).tokens ++
        l.operator.token :: (⟨l.operand, after⟩ : Formula).tokens := by
      simp [tokens, hrest, Link.tokens]
    rw [htokens]
    refine ⟨_, _, _, hwritten, ?_, ?_⟩
    · rw [Expr.unplaced_binary, hlefttree, hrighttree]
      rfl
    · intro k hk hall
      rw [hrest] at hall
      obtain ⟨hbefore, hrest⟩ := List.forall_mem_append.1 hall
      have hkl := hrest l List.mem_cons_self
      obtain ⟨-, hm⟩ := hlbound k hk hbefore
      have hpower : l.operator.token.kind.power.rank = l.operator.level + 1 := hrank
      omega

end Formula

end ExprLang
