import ExprLang.Proofs.Tree.Move
import ExprLang.Tree.Outline

/-!
# How deep a tree is

Three numbers tell how deep a tree is.

* `levels` counts the expressions that are inside each other where the tree is read.  A left
  operand and a callee are read before it is known what they belong to, and so they are no
  further inside than that.
* `height` counts the edges from a node to the leaf that is furthest below it.  It is the depth of
  the deepest row of an outline (`Program.deepest_outline`).
* `chain` counts the left operands and the callees that are below each other with nothing in
  between, where they are the most.

Levels alone say nothing about the height, for a chain may be as long as it likes.  With the
length of the chains they do (`Stmt.height_le`): on every level a chain goes down as
far as it is long, and at most three edges lead on to the next level.
-/

namespace ExprLang

/-! ## Levels -/

mutual

/-- How many expressions are inside each other where an expression is read? -/
def Expr.levels : Expr → Nat
  | .identifier _ => 1
  | .integer _ _ => 1
  | .boolean _ _ => 1
  | .unary _ _ right => right.levels + 1
  | .binary _ _ left right => max left.levels (right.levels + 1)
  | .conditional _ condition consequence alternative =>
      max condition.levels (max consequence.levels (Block.levelsElse alternative)) + 1
  | .function _ _ body => body.levels + 1
  | .call _ callee arguments => max callee.levels (Expr.levelsAll arguments)

/-- How many where some arguments are read, which are one further inside than their call? -/
def Expr.levelsAll : List Expr → Nat
  | [] => 0
  | e :: es => max (e.levels + 1) (Expr.levelsAll es)

/-- How many where a block is read? -/
def Block.levels : Block → Nat
  | .mk _ body => Stmt.levelsAll body

/-- How many where a second branch is read, if there is one? -/
def Block.levelsElse : Option Block → Nat
  | none => 0
  | some b => b.levels

/-- How many where a statement is read? -/
def Stmt.levels : Stmt → Nat
  | .binding _ _ value => value.levels
  | .result _ value => value.levels
  | .expression _ value => value.levels

/-- How many where some statements are read? -/
def Stmt.levelsAll : List Stmt → Nat
  | [] => 0
  | s :: ss => max s.levels (Stmt.levelsAll ss)

end

/-- An expression is inside itself. -/
theorem Expr.levels_pos (e : Expr) : 0 < e.levels := by
  cases e with
  | identifier _ => exact Nat.one_pos
  | integer _ _ => exact Nat.one_pos
  | boolean _ _ => exact Nat.one_pos
  | unary _ _ right => exact Nat.succ_pos right.levels
  | binary _ _ left _ => exact Nat.lt_of_lt_of_le left.levels_pos (Nat.le_max_left _ _)
  | conditional _ _ _ _ => exact Nat.succ_pos _
  | function _ _ body => exact Nat.succ_pos body.levels
  | call _ callee _ => exact Nat.lt_of_lt_of_le callee.levels_pos (Nat.le_max_left _ _)

theorem Expr.levelsAll_le_iff {es : List Expr} {n : Nat} :
    Expr.levelsAll es ≤ n ↔ ∀ e ∈ es, e.levels < n := by
  induction es with
  | nil => simp [Expr.levelsAll]
  | cons e es ih => rw [Expr.levelsAll, Nat.max_le, ih, List.forall_mem_cons, Nat.succ_le_iff]

theorem Stmt.levelsAll_le_iff {ss : List Stmt} {n : Nat} :
    Stmt.levelsAll ss ≤ n ↔ ∀ s ∈ ss, s.levels ≤ n := by
  induction ss with
  | nil => simp [Stmt.levelsAll]
  | cons s ss ih => rw [Stmt.levelsAll, Nat.max_le, ih, List.forall_mem_cons]

/-! ## Heights -/

mutual

/-- How many edges lead from an expression to the leaf furthest below it? -/
def Expr.height : Expr → Nat
  | .identifier _ => 0
  | .integer _ _ => 0
  | .boolean _ _ => 0
  | .unary _ _ right => right.height + 1
  | .binary _ _ left right => max left.height right.height + 1
  | .conditional _ condition consequence alternative =>
      max (max condition.height consequence.height + 1) (Block.heightElse alternative)
  | .function _ _ body => body.height + 1
  | .call _ callee arguments => max (callee.height + 1) (Expr.heightAll arguments)

/-- How many through some arguments of a node? -/
def Expr.heightAll : List Expr → Nat
  | [] => 0
  | e :: es => max (e.height + 1) (Expr.heightAll es)

/-- How many from a block? -/
def Block.height : Block → Nat
  | .mk _ body => Stmt.heightAll body

/-- How many through a second branch of a node, if there is one? -/
def Block.heightElse : Option Block → Nat
  | none => 0
  | some b => b.height + 1

/-- How many from a statement? -/
def Stmt.height : Stmt → Nat
  | .binding _ _ value => value.height + 1
  | .result _ value => value.height + 1
  | .expression _ value => value.height + 1

/-- How many through some statements of a node? -/
def Stmt.heightAll : List Stmt → Nat
  | [] => 0
  | s :: ss => max (s.height + 1) (Stmt.heightAll ss)

end

/-! ### Heights in an outline -/

/-- How deep is the deepest of some rows? -/
def Row.deepest : List Row → Nat
  | [] => 0
  | row :: rows => max row.depth (Row.deepest rows)

@[simp] theorem Row.deepest_cons (row : Row) (rows : List Row) :
    Row.deepest (row :: rows) = max row.depth (Row.deepest rows) := rfl

theorem Row.deepest_le_iff {rows : List Row} {n : Nat} :
    Row.deepest rows ≤ n ↔ ∀ row ∈ rows, row.depth ≤ n := by
  induction rows with
  | nil => simp [Row.deepest]
  | cons row rows ih => rw [Row.deepest, Nat.max_le, ih, List.forall_mem_cons]

/-- Parameters in front of something as deep are never the only deepest rows. -/
theorem deepest_outlineParameters {depth : Nat} {tail : List Row} (h : depth ≤ Row.deepest tail)
    (ids : List Identifier) :
    Row.deepest (outlineParameters depth ids tail) = Row.deepest tail := by
  induction ids with
  | nil => rfl
  | cons id ids ih =>
    show max depth (Row.deepest (outlineParameters depth ids tail)) = _
    rw [ih, Nat.max_eq_right h]

mutual

theorem Expr.deepest_outline (depth : Nat) (role : Role) (tail : List Row) : ∀ e : Expr,
    Row.deepest (e.outline depth role tail) = max (depth + e.height) (Row.deepest tail)
  | .identifier _ => rfl
  | .integer _ _ => rfl
  | .boolean _ _ => rfl
  | .unary _ _ right => by
    have h := right.deepest_outline (depth + 1) .right tail
    simp only [Expr.outline, Expr.height, Row.deepest_cons]
    omega
  | .binary _ _ left right => by
    have hl := left.deepest_outline (depth + 1) .left (right.outline (depth + 1) .right tail)
    have hr := right.deepest_outline (depth + 1) .right tail
    simp only [Expr.outline, Expr.height, Row.deepest_cons]
    omega
  | .conditional _ condition consequence alternative => by
    have hc := condition.deepest_outline (depth + 1) .condition
      (consequence.outline (depth + 1) .consequence
        (Block.outlineElse (depth + 1) tail alternative))
    have hb := consequence.deepest_outline (depth + 1) .consequence
      (Block.outlineElse (depth + 1) tail alternative)
    have ha := Block.deepest_outlineElse depth tail alternative
    simp only [Expr.outline, Expr.height, Row.deepest_cons]
    omega
  | .function _ parameters body => by
    have hb := body.deepest_outline (depth + 1) .body tail
    have hp : depth + 1 ≤ Row.deepest (body.outline (depth + 1) .body tail) := by omega
    simp only [Expr.outline, Expr.height, Row.deepest_cons, deepest_outlineParameters hp]
    omega
  | .call _ callee arguments => by
    have hc := callee.deepest_outline (depth + 1) .callee
      (Expr.outlineAll (depth + 1) tail arguments)
    have ha := Expr.deepest_outlineAll depth tail arguments
    simp only [Expr.outline, Expr.height, Row.deepest_cons]
    omega

/-- The depth is that of the node the arguments are below. -/
theorem Expr.deepest_outlineAll (depth : Nat) (tail : List Row) : ∀ es : List Expr,
    max depth (Row.deepest (Expr.outlineAll (depth + 1) tail es)) =
      max (depth + Expr.heightAll es) (Row.deepest tail)
  | [] => rfl
  | e :: es => by
    have he := e.deepest_outline (depth + 1) .argument (Expr.outlineAll (depth + 1) tail es)
    have hes := Expr.deepest_outlineAll depth tail es
    simp only [Expr.outlineAll, Expr.heightAll]
    omega

theorem Block.deepest_outline (depth : Nat) (role : Role) (tail : List Row) : ∀ b : Block,
    Row.deepest (b.outline depth role tail) = max (depth + b.height) (Row.deepest tail)
  | .mk _ body => Stmt.deepest_outlineAll depth tail body

theorem Block.deepest_outlineElse (depth : Nat) (tail : List Row) : ∀ a : Option Block,
    max depth (Row.deepest (Block.outlineElse (depth + 1) tail a)) =
      max (depth + Block.heightElse a) (Row.deepest tail)
  | none => rfl
  | some b => by
    have hb := b.deepest_outline (depth + 1) .alternative tail
    simp only [Block.outlineElse, Block.heightElse]
    omega

theorem Stmt.deepest_outline (depth : Nat) (tail : List Row) : ∀ s : Stmt,
    Row.deepest (s.outline depth tail) = max (depth + s.height) (Row.deepest tail)
  | .binding _ _ value => by
    have h := value.deepest_outline (depth + 1) .value tail
    simp only [Stmt.outline, Stmt.height, Row.deepest_cons]
    omega
  | .result _ value => by
    have h := value.deepest_outline (depth + 1) .value tail
    simp only [Stmt.outline, Stmt.height, Row.deepest_cons]
    omega
  | .expression _ value => by
    have h := value.deepest_outline (depth + 1) .expression tail
    simp only [Stmt.outline, Stmt.height, Row.deepest_cons]
    omega

theorem Stmt.deepest_outlineAll (depth : Nat) (tail : List Row) : ∀ ss : List Stmt,
    max depth (Row.deepest (Stmt.outlineAll (depth + 1) tail ss)) =
      max (depth + Stmt.heightAll ss) (Row.deepest tail)
  | [] => rfl
  | s :: ss => by
    have hs := s.deepest_outline (depth + 1) (Stmt.outlineAll (depth + 1) tail ss)
    have hss := Stmt.deepest_outlineAll depth tail ss
    simp only [Stmt.outlineAll, Stmt.heightAll]
    omega

end

/-- The deepest row of a program is as far below it as the furthest leaf. -/
theorem Program.deepest_outline (p : Program) :
    Row.deepest p.outline = Stmt.heightAll p.body := by
  have h := Stmt.deepest_outlineAll 0 [] p.body
  rw [Nat.zero_max, Row.deepest, Nat.max_zero] at h
  exact h.trans (Nat.zero_add _)

theorem Stmt.heightAll_le_iff {ss : List Stmt} {n : Nat} :
    Stmt.heightAll ss ≤ n ↔ ∀ s ∈ ss, s.height < n := by
  induction ss with
  | nil => simp [Stmt.heightAll]
  | cons s ss ih => rw [Stmt.heightAll, Nat.max_le, ih, List.forall_mem_cons, Nat.lt_iff_add_one_le]

/-! ### Heights without places -/

mutual

/-- The places of the nodes have nothing to do with the height. -/
theorem Expr.height_move (h : Position → Position) : ∀ e : Expr, (e.move h).height = e.height
  | .identifier _ => rfl
  | .integer _ _ => rfl
  | .boolean _ _ => rfl
  | .unary _ _ right => by simp only [Expr.move, Expr.height, right.height_move h]
  | .binary _ _ left right => by
    simp only [Expr.move, Expr.height, left.height_move h, right.height_move h]
  | .conditional _ condition consequence alternative => by
    simp only [Expr.move, Expr.height, condition.height_move h, consequence.height_move h,
      Block.heightElse_move h alternative]
  | .function _ _ body => by simp only [Expr.move, Expr.height, body.height_move h]
  | .call _ callee arguments => by
    simp only [Expr.move, Expr.height, callee.height_move h, Expr.heightAll_move h arguments]

theorem Expr.heightAll_move (h : Position → Position) : ∀ es : List Expr,
    Expr.heightAll (Expr.moveList h es) = Expr.heightAll es
  | [] => rfl
  | e :: es => by
    simp only [Expr.moveList, Expr.heightAll, e.height_move h, Expr.heightAll_move h es]

theorem Block.height_move (h : Position → Position) : ∀ b : Block, (b.move h).height = b.height
  | .mk _ body => Stmt.heightAll_move h body

theorem Block.heightElse_move (h : Position → Position) : ∀ a : Option Block,
    Block.heightElse (Block.moveOption h a) = Block.heightElse a
  | none => rfl
  | some b => congrArg (· + 1) (b.height_move h)

theorem Stmt.height_move (h : Position → Position) : ∀ s : Stmt, (s.move h).height = s.height
  | .binding _ _ value => congrArg (· + 1) (value.height_move h)
  | .result _ value => congrArg (· + 1) (value.height_move h)
  | .expression _ value => congrArg (· + 1) (value.height_move h)

theorem Stmt.heightAll_move (h : Position → Position) : ∀ ss : List Stmt,
    Stmt.heightAll (Stmt.moveList h ss) = Stmt.heightAll ss
  | [] => rfl
  | s :: ss => by
    simp only [Stmt.moveList, Stmt.heightAll, s.height_move h, Stmt.heightAll_move h ss]

end

/-! ## Chains -/

/-- How many left operands and callees are below each other, from an expression on? -/
def Expr.spine : Expr → Nat
  | binary _ _ left _ => left.spine + 1
  | call _ callee _ => callee.spine + 1
  | _ => 0

mutual

/-- How many are below each other, where in an expression they are the most? -/
def Expr.chain : Expr → Nat
  | .identifier _ => 0
  | .integer _ _ => 0
  | .boolean _ _ => 0
  | .unary _ _ right => right.chain
  | .binary _ _ left right => max (left.spine + 1) (max left.chain right.chain)
  | .conditional _ condition consequence alternative =>
      max condition.chain (max consequence.chain (Block.chainElse alternative))
  | .function _ _ body => body.chain
  | .call _ callee arguments =>
      max (callee.spine + 1) (max callee.chain (Expr.chainAll arguments))

/-- How many in some arguments? -/
def Expr.chainAll : List Expr → Nat
  | [] => 0
  | e :: es => max e.chain (Expr.chainAll es)

/-- How many in a block? -/
def Block.chain : Block → Nat
  | .mk _ body => Stmt.chainAll body

/-- How many in a second branch, if there is one? -/
def Block.chainElse : Option Block → Nat
  | none => 0
  | some b => b.chain

/-- How many in a statement? -/
def Stmt.chain : Stmt → Nat
  | .binding _ _ value => value.chain
  | .result _ value => value.chain
  | .expression _ value => value.chain

/-- How many in some statements? -/
def Stmt.chainAll : List Stmt → Nat
  | [] => 0
  | s :: ss => max s.chain (Stmt.chainAll ss)

end

theorem Expr.spine_le_chain (e : Expr) : e.spine ≤ e.chain := by
  cases e with
  | binary _ _ _ _ => exact Nat.le_max_left _ _
  | call _ _ _ => exact Nat.le_max_left _ _
  | _ => exact Nat.zero_le _

/-! ### Heights from levels and chains -/

mutual

/-- Below an expression of `n` levels there is room on each of them for a chain of `k` edges and
for three edges more.  What is above its own chain is used up already. -/
theorem Expr.height_le {k : Nat} : ∀ {n : Nat} (e : Expr), e.chain ≤ k → e.levels ≤ n →
    e.height + (k + 2) ≤ n * (k + 3) + e.spine
  | 0, e, _, hn => absurd (Nat.lt_of_lt_of_le e.levels_pos hn) (Nat.lt_irrefl 0)
  | n + 1, .identifier _, _, _ => by simp only [Expr.height, Nat.succ_mul]; omega
  | n + 1, .integer _ _, _, _ => by simp only [Expr.height, Nat.succ_mul]; omega
  | n + 1, .boolean _ _, _, _ => by simp only [Expr.height, Nat.succ_mul]; omega
  | n + 1, .unary _ _ right, hk, hn => by
    have h := right.height_le hk (Nat.le_of_succ_le_succ hn)
    have := right.spine_le_chain
    simp only [Expr.chain] at hk
    simp only [Expr.height, Nat.succ_mul]
    omega
  | n + 1, .binary _ _ left right, hk, hn => by
    simp only [Expr.chain, Nat.max_le] at hk
    simp only [Expr.levels, Nat.max_le] at hn
    have hl := left.height_le hk.2.1 hn.1
    have hr := right.height_le hk.2.2 (Nat.le_of_succ_le_succ hn.2)
    have := right.spine_le_chain
    simp only [Expr.height, Expr.spine, Nat.succ_mul] at hl ⊢
    omega
  | n + 1, .conditional _ condition consequence alternative, hk, hn => by
    simp only [Expr.chain, Nat.max_le] at hk
    have hn := Nat.le_of_succ_le_succ hn
    simp only [Nat.max_le] at hn
    have hc := condition.height_le hk.1 hn.1
    have hb := consequence.height_le hk.2.1 hn.2.1
    have ha := Block.heightElse_le alternative hk.2.2 hn.2.2
    have := condition.spine_le_chain
    simp only [Expr.height, Nat.succ_mul]
    omega
  | n + 1, .function _ _ body, hk, hn => by
    have h := body.height_le hk (Nat.le_of_succ_le_succ hn)
    simp only [Expr.height, Nat.succ_mul]
    omega
  | n + 1, .call _ callee arguments, hk, hn => by
    simp only [Expr.chain, Nat.max_le] at hk
    simp only [Expr.levels, Nat.max_le] at hn
    have hc := callee.height_le hk.2.1 hn.1
    have ha := Expr.heightAll_le arguments hk.2.2 hn.2
    simp only [Expr.height, Expr.spine, Nat.succ_mul] at hc ⊢
    omega

theorem Expr.heightAll_le {k n : Nat} : ∀ es : List Expr, Expr.chainAll es ≤ k →
    Expr.levelsAll es ≤ n + 1 → Expr.heightAll es ≤ n * (k + 3)
  | [], _, _ => Nat.zero_le _
  | e :: es, hk, hn => by
    simp only [Expr.chainAll, Nat.max_le] at hk
    simp only [Expr.levelsAll, Nat.max_le] at hn
    have he := e.height_le hk.1 (Nat.le_of_succ_le_succ hn.1)
    have hes := Expr.heightAll_le es hk.2 hn.2
    have := e.spine_le_chain
    simp only [Expr.heightAll]
    omega

theorem Block.height_le {k n : Nat} : ∀ b : Block, b.chain ≤ k → b.levels ≤ n →
    b.height ≤ n * (k + 3)
  | .mk _ body, hk, hn => Stmt.heightAll_le body hk hn

theorem Block.heightElse_le {k n : Nat} : ∀ a : Option Block, Block.chainElse a ≤ k →
    Block.levelsElse a ≤ n → Block.heightElse a ≤ n * (k + 3) + 1
  | none, _, _ => Nat.zero_le _
  | some b, hk, hn => Nat.succ_le_succ (b.height_le hk hn)

theorem Stmt.height_le {k n : Nat} : ∀ s : Stmt, s.chain ≤ k → s.levels ≤ n →
    s.height + 1 ≤ n * (k + 3)
  | .binding _ _ value, hk, hn => by
    have h := value.height_le hk hn
    have := Nat.le_trans value.spine_le_chain hk
    simp only [Stmt.height]
    omega
  | .result _ value, hk, hn => by
    have h := value.height_le hk hn
    have := Nat.le_trans value.spine_le_chain hk
    simp only [Stmt.height]
    omega
  | .expression _ value, hk, hn => by
    have h := value.height_le hk hn
    have := Nat.le_trans value.spine_le_chain hk
    simp only [Stmt.height]
    omega

theorem Stmt.heightAll_le {k n : Nat} : ∀ ss : List Stmt, Stmt.chainAll ss ≤ k →
    Stmt.levelsAll ss ≤ n → Stmt.heightAll ss ≤ n * (k + 3)
  | [], _, _ => Nat.zero_le _
  | s :: ss, hk, hn => by
    simp only [Stmt.chainAll, Nat.max_le] at hk
    simp only [Stmt.levelsAll, Nat.max_le] at hn
    exact Nat.max_le.2 ⟨s.height_le hk.1 hn.1, Stmt.heightAll_le ss hk.2 hn.2⟩

end

end ExprLang
