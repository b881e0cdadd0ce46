import ExprLang.Tree.Basic

/-!
# Equality of trees

Trees are equal when they agree in everything, sites included.  `same` decides
it by walking both trees (`Expr.same_iff`, `Block.same_iff`, `Stmt.same_iff`), and
the instances of `DecidableEq` come from it.
-/

namespace ExprLang

/-! ## The walk -/

mutual

/-- Are two expressions equal? -/
def Expr.same : Expr → Expr → Bool
  | .identifier a, .identifier b => a = b
  | .integer s v, .integer t w => s = t && v = w
  | .boolean s v, .boolean t w => s = t && v = w
  | .unary s o r, .unary t p q => s = t && o = p && r.same q
  | .binary s o l r, .binary t p k q => s = t && o = p && l.same k && r.same q
  | .conditional s c b a, .conditional t d e f =>
      s = t && c.same d && b.same e && Block.sameOption a f
  | .function s ps b, .function t qs c => s = t && ps = qs && b.same c
  | .call s c as, .call t d bs => s = t && c.same d && Expr.sameList as bs
  | _, _ => false

/-- Are two lists of expressions equal? -/
def Expr.sameList : List Expr → List Expr → Bool
  | [], [] => true
  | a :: as, b :: bs => a.same b && Expr.sameList as bs
  | _, _ => false

/-- Are two blocks equal? -/
def Block.same : Block → Block → Bool
  | .mk s as, .mk t bs => s = t && Stmt.sameList as bs

/-- Are two optional blocks equal? -/
def Block.sameOption : Option Block → Option Block → Bool
  | none, none => true
  | some a, some b => a.same b
  | _, _ => false

/-- Are two statements equal? -/
def Stmt.same : Stmt → Stmt → Bool
  | .binding s n v, .binding t m w => s = t && n = m && v.same w
  | .result s v, .result t w => s = t && v.same w
  | .expression s v, .expression t w => s = t && v.same w
  | _, _ => false

/-- Are two lists of statements equal? -/
def Stmt.sameList : List Stmt → List Stmt → Bool
  | [], [] => true
  | a :: as, b :: bs => a.same b && Stmt.sameList as bs
  | _, _ => false

end

/-! ## The walk decides equality -/

mutual

theorem Expr.same_iff : ∀ a b : Expr, a.same b = true ↔ a = b
  | .identifier _, b => by cases b <;> simp [Expr.same]
  | .integer _ _, b => by cases b <;> simp [Expr.same]
  | .boolean _ _, b => by cases b <;> simp [Expr.same]
  | .unary _ _ r, b => by cases b <;> simp [Expr.same, Expr.same_iff r, and_assoc]
  | .binary _ _ l r, b => by
      cases b <;> simp [Expr.same, Expr.same_iff l, Expr.same_iff r, and_assoc]
  | .conditional _ c b a, e => by
      cases e <;> simp [Expr.same, Expr.same_iff c, Block.same_iff b, Block.sameOption_iff a, and_assoc]
  | .function _ _ b, e => by cases e <;> simp [Expr.same, Block.same_iff b, and_assoc]
  | .call _ c as, e => by
      cases e <;> simp [Expr.same, Expr.same_iff c, Expr.sameList_iff as, and_assoc]

theorem Expr.sameList_iff : ∀ as bs : List Expr, Expr.sameList as bs = true ↔ as = bs
  | [], bs => by cases bs <;> simp [Expr.sameList]
  | a :: as, bs => by cases bs <;> simp [Expr.sameList, Expr.same_iff a, Expr.sameList_iff as]

theorem Block.same_iff : ∀ a b : Block, a.same b = true ↔ a = b
  | .mk _ as, .mk _ bs => by simp [Block.same, Stmt.sameList_iff as bs]

theorem Block.sameOption_iff : ∀ a b : Option Block, Block.sameOption a b = true ↔ a = b
  | none, b => by cases b <;> simp [Block.sameOption]
  | some a, b => by cases b <;> simp [Block.sameOption, Block.same_iff a]

theorem Stmt.same_iff : ∀ a b : Stmt, a.same b = true ↔ a = b
  | .binding _ _ v, b => by cases b <;> simp [Stmt.same, Expr.same_iff v, and_assoc]
  | .result _ v, b => by cases b <;> simp [Stmt.same, Expr.same_iff v]
  | .expression _ v, b => by cases b <;> simp [Stmt.same, Expr.same_iff v]

theorem Stmt.sameList_iff : ∀ as bs : List Stmt, Stmt.sameList as bs = true ↔ as = bs
  | [], bs => by cases bs <;> simp [Stmt.sameList]
  | a :: as, bs => by cases bs <;> simp [Stmt.sameList, Stmt.same_iff a, Stmt.sameList_iff as]

end

instance : DecidableEq Expr := fun a b => decidable_of_iff _ (Expr.same_iff a b)
instance : DecidableEq Block := fun a b => decidable_of_iff _ (Block.same_iff a b)
instance : DecidableEq Stmt := fun a b => decidable_of_iff _ (Stmt.same_iff a b)

deriving instance DecidableEq for Program

end ExprLang
