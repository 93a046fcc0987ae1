import BlocTest.Kconfig.Model.Expr
import Mathlib.Tactic.Linarith
/-!
# Rewriting Kconfig expressions

The functions of `expr.c` that bring an expression into another form, and
those that ask which symbols it is about.
-/

namespace BlocTest

namespace Kconfig

section Rewrite

variable (tab : SymbolTable)

/-! ## `expr_trans_bool` -/

/-- The relation that holds when another does not. -/
def Relation.negate : Relation → Relation
  | equal => unequal
  | unequal => equal
  | lth => geq
  | leq => gth
  | gth => leq
  | geq => lth

/-- The operation `!` turns another one into. -/
def Junction.dual : Junction → Junction
  | or => and
  | and => or

/-- What `expr_transform` makes of a comparison: a boolean compared with `y`,
`m` or `n`. -/
def transformComp : Expr → Expr
  | .comp .equal l r =>
      if tab.type l ≠ .boolean then .comp .equal l r
      else if r = .no then .not (.symbol l)
      else if r = .mod then .symbol .no
      else if r = .yes then .symbol l
      else .comp .equal l r
  | .comp .unequal l r =>
      if tab.type l ≠ .boolean then .comp .unequal l r
      else if r = .no then .symbol l
      else if r = .mod then .symbol .yes
      else if r = .yes then .not (.symbol l)
      else .comp .unequal l r
  | e => e

/-- What `expr_transform` makes of a negated symbol. -/
def transformNotSymbol : SymPtr → Expr
  | .yes => .symbol .no
  | .mod => .symbol .mod
  | .no => .symbol .yes
  | .entry i => .not (.symbol (.entry i))

/-- What the rewriting of an expression runs down on. -/
def Expr.weight : Expr → ℕ
  | symbol _ => 2
  | not e => e.weight * e.weight
  | two _ l r => l.weight + r.weight + 1
  | comp _ _ _ => 5

/-- A negation weighs the square of what is under it. -/
theorem Expr.weight_not (e : Expr) : (not e).weight = e.weight * e.weight := rfl

/-- A node weighs one more than its sides. -/
theorem Expr.weight_two (type : Junction) (l r : Expr) :
    (two type l r).weight = l.weight + r.weight + 1 := rfl

/-- Nothing weighs less than a symbol. -/
theorem Expr.two_le_weight (e : Expr) : 2 ≤ e.weight := by
  induction e with
  | symbol _ => exact Nat.le_refl _
  | not e ih => exact Nat.le_trans ih (Nat.le_mul_self _)
  | two _ l r ihl ihr =>
      unfold weight
      omega
  | comp _ _ _ =>
      unfold weight
      omega

/-- What is made of a comparison weighs no more than a comparison. -/
theorem weight_transformComp (type : Relation) (l r : SymPtr) :
    (transformComp tab (.comp type l r)).weight ≤ (Expr.comp type l r).weight := by
  cases type with
  | equal =>
      simp only [transformComp]
      split_ifs <;> simp [Expr.weight]
  | unequal =>
      simp only [transformComp]
      split_ifs <;> simp [Expr.weight]
  | _ => exact Nat.le_refl _

/-- What is made of a negated symbol weighs no more than that. -/
theorem weight_transformNotSymbol (sym : SymPtr) : (transformNotSymbol sym).weight ≤ 4 := by
  cases sym <;> simp [transformNotSymbol, Expr.weight]

/-- A negation weighs more than what is under it. -/
theorem Expr.weight_lt_not (e : Expr) : e.weight < (Expr.not e).weight := by
  have := e.two_le_weight
  rw [weight_not]
  nlinarith

/-- The heavier expression has the heavier negation. -/
theorem Expr.weight_not_le {e e' : Expr} (h : e'.weight ≤ e.weight) :
    (Expr.not e').weight ≤ (Expr.not e).weight := by
  exact Nat.mul_le_mul h h

/-- What a double negation weighs more than what is under it. -/
theorem Expr.weight_lt_of_not_le {a e : Expr} (h : (Expr.not a).weight ≤ e.weight) :
    a.weight < (Expr.not e).weight :=
  Nat.lt_trans (Nat.lt_of_lt_of_le a.weight_lt_not h) e.weight_lt_not

/-- Two negations weigh less than the negation of the two. -/
theorem Expr.weight_dual_lt {type : Junction} {l r e : Expr}
    (h : (Expr.two type l r).weight ≤ e.weight) :
    (Expr.two type.dual (.not l) (.not r)).weight < (Expr.not e).weight := by
  refine Nat.lt_of_lt_of_le ?_ (weight_not_le h)
  have := l.two_le_weight
  simp only [weight_not, weight_two]
  nlinarith

/-- `expr_transform`, of an expression that is there. What is returned weighs
no more, so it can be transformed again. -/
def exprTransformBounded : (e : Expr) → { e' : Expr // e'.weight ≤ e.weight }
  | .symbol sym => ⟨.symbol sym, Nat.le_refl _⟩
  | .comp type l r => ⟨transformComp tab (.comp type l r), weight_transformComp tab type l r⟩
  | .two type l r =>
      let l' := exprTransformBounded l
      let r' := exprTransformBounded r
      ⟨.two type l' r', Nat.succ_le_succ (Nat.add_le_add l'.2 r'.2)⟩
  | .not e =>
      match exprTransformBounded e with
      | ⟨.not a, h⟩ =>
          -- !!a -> a
          let a' := exprTransformBounded a
          ⟨a'.1, Nat.le_trans a'.2 (Nat.le_of_lt (Expr.weight_lt_of_not_le h))⟩
      | ⟨.comp type l r, h⟩ =>
          -- !a='x' -> a!='x', and so on
          ⟨.comp type.negate l r, Nat.le_trans h (Nat.le_of_lt e.weight_lt_not)⟩
      | ⟨.two type l r, h⟩ =>
          -- !(a || b) -> !a && !b, and the other way
          let e' := exprTransformBounded (.two type.dual (.not l) (.not r))
          ⟨e'.1, Nat.le_trans e'.2 (Nat.le_of_lt (Expr.weight_dual_lt h))⟩
      | ⟨.symbol sym, h⟩ => ⟨transformNotSymbol sym,
          Nat.le_trans (weight_transformNotSymbol sym) (Expr.weight_not_le h)⟩
  termination_by e => e.weight
  decreasing_by
    · rw [Expr.weight_two]
      omega
    · rw [Expr.weight_two]
      omega
    · exact e.weight_lt_not
    · exact Expr.weight_lt_of_not_le h
    · exact Expr.weight_dual_lt h

/-- `expr_transform`. -/
def exprTransform (e : Expr) : Expr := (exprTransformBounded tab e).1

end Rewrite

/-! ## Which symbols an expression is about -/

/-- The relation `expr_trans_compare` is asked for: `E_EQUAL`, or `E_UNEQUAL`. -/
inductive CompareType where
  | equal
  | unequal
  deriving DecidableEq, Repr

/-- `type == E_EQUAL ? E_UNEQUAL : E_EQUAL`. -/
def CompareType.flip : CompareType → CompareType
  | equal => unequal
  | unequal => equal

def CompareType.relation : CompareType → Relation
  | equal => .equal
  | unequal => .unequal

/-- `if (type == E_UNEQUAL) e = expr_alloc_one(E_NOT, e)`. -/
def CompareType.apply : CompareType → Expr → Expr
  | equal, e => e
  | unequal, e => .not e

/-- What `expr_trans_compare` makes of an `&&` or an `||` whose sides it has
compared with `sym`: only `y` and `n` are told apart. -/
def transCompareTwo (type : Junction) (sym : SymPtr) (e : Expr) (e1 e2 : Option Expr) :
    Option Expr :=
  if sym = .yes then e1.bind fun e1 => e2.map fun e2 => .two type e1 e2
  else if sym = .no then e1.bind fun e1 => e2.map fun e2 => .two type.dual e1 e2
  else some e

/-- `expr_trans_compare`, of an expression that is there. -/
def exprTransCompareSome (type : CompareType) (sym : SymPtr) : Expr → Option Expr
  | .two t l r =>
      (transCompareTwo t sym (.two t l r) (exprTransCompareSome .equal sym l)
        (exprTransCompareSome .equal sym r)).map type.apply
  | .not e => exprTransCompareSome type.flip sym e
  | .comp rel l r =>
      match type, sym with
      | .equal, .yes => some (.comp rel l r)
      | .equal, .mod => some (.symbol .no)
      | .equal, .no => some (.not (.comp rel l r))
      | .unequal, .yes => some (.not (.comp rel l r))
      | .unequal, .mod => some (.symbol .yes)
      | .unequal, .no => some (.comp rel l r)
      | _, .entry _ => none
  | .symbol s => some (.comp type.relation s sym)

/-- `expr_trans_compare`. -/
def exprTransCompare (type : CompareType) (sym : SymPtr) : Option Expr → Option Expr
  | none => some (type.apply (.symbol sym))
  | some e => exprTransCompareSome type sym e

end Kconfig

end BlocTest
