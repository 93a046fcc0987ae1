import BlocTest.Common.Cluster
import BlocTest.Common.Prog
import BlocTest.Kconfig.Model.Symbol
/-!
# Kconfig expressions

`expr.c`: the dependency expressions, their value in a configuration, and
the functions that rewrite them. An expression is owned by whoever holds the
pointer to it, so rewriting in place is a function of the tree, except in
`expr_eliminate_dups1`, whose two pointers lead into one tree.
-/

namespace BlocTest

namespace Kconfig

/-- The types of the comparisons. -/
inductive Relation where
  | equal
  | unequal
  | lth
  | leq
  | gth
  | geq
  deriving DecidableEq, Repr

/-- `E_OR` and `E_AND`. -/
inductive Junction where
  | or
  | and
  deriving DecidableEq, Repr

/-- `struct expr`, as the grammar of dependencies builds it. -/
inductive Expr where
  | symbol (sym : SymPtr)
  | not (e : Expr)
  | two (type : Junction) (left right : Expr)
  | comp (type : Relation) (left right : SymPtr)
  deriving DecidableEq, Repr

/-- The nodes of an expression. -/
def Expr.size : Expr → ℕ
  | symbol _ => 1
  | not e => e.size + 1
  | two _ l r => l.size + r.size + 1
  | comp _ _ _ => 1

/-- Every expression has a node. -/
theorem Expr.size_pos (e : Expr) : 0 < e.size := by
  cases e <;> exact Nat.succ_pos _

/-- `||` and `&&` are the operations of the trees. -/
instance exprBranching : Branching Expr Junction where
  node := .two
  split
    | .two type l r => some (type, l, r)
    | _ => none
  split_node _ _ _ := rfl
  eq_node := by
    intro e i l r h
    cases e with
    | two type l' r' =>
        cases h
        rfl
    | _ => cases h

/-- The type of an expression that is an `||` or an `&&`. -/
def Expr.junction : Expr → Option Junction
  | two type _ _ => some type
  | _ => none

/-- The two sides of an expression of the given type. -/
def Expr.operands (type : Junction) : Expr → Option (Expr × Expr)
  | two t l r => if t = type then some (l, r) else none
  | _ => none

/-- What has two operands of an operation is a node of it. -/
theorem Expr.eq_two_of_operands {type : Junction} {e l r : Expr}
    (h : e.operands type = some (l, r)) : e = two type l r := by
  unfold operands at h
  split at h
  · rename_i t l' r'
    by_cases ht : t = type
    · rw [if_pos ht] at h
      cases h
      rw [ht]
    · rw [if_neg ht] at h
      cases h
  · cases h

/-- What an operand that no longer counts is replaced by. -/
def Junction.unit : Junction → SymPtr
  | or => .no
  | and => .yes

/-! ## Values -/

/-- What a comparison asks of the sign of `res`. -/
def Relation.holds : Relation → Ordering → Bool
  | equal, res => res = .eq
  | unequal, res => res ≠ .eq
  | lth, res => res = .lt
  | leq, res => res ≠ .gt
  | gth, res => res = .gt
  | geq, res => res ≠ .lt

section Value

variable {tab : SymbolTable} (cfg : Config tab)

/-- The comparison of `expr_calc_value`, `res` by its sign. -/
def compareSymbols (left right : SymPtr) : Ordering :=
  let str1 := cfg.symGetStringValue left
  let str2 := cfg.symGetStringValue right
  if tab.type left = .string ∧ tab.type right = .string then
    strcmp str1 str2
  else
    let lval := exprParseString str1 (tab.type left)
    let rval := exprParseString str2 (tab.type right)
    if lval.kind = .string ∨ rval.kind = .string then
      strcmp str1 str2
    else if lval.kind = .unsigned ∨ rval.kind = .unsigned then
      compare lval.val.toNat rval.val.toNat
    else
      compare lval.val.toInt rval.val.toInt

/-- `expr_calc_value`, of an expression that is there. -/
def Expr.calcValue : Expr → Tristate
  | symbol sym => cfg.symGetTristateValue sym
  | two .and l r => exprAnd l.calcValue r.calcValue
  | two .or l r => exprOr l.calcValue r.calcValue
  | not e => exprNot e.calcValue
  | comp type left right => if type.holds (compareSymbols cfg left right) then .yes else .no

/-- `expr_calc_value`. -/
def exprCalcValue : Option Expr → Tristate
  | none => .yes
  | some e => e.calcValue cfg

end Value

/-! ## Building -/

/-- `expr_eliminate_yn`. -/
def exprEliminateYn : Expr → Expr
  | .two .and l r =>
      let l := exprEliminateYn l
      let r := exprEliminateYn r
      if l = .symbol .no then .symbol .no
      else if l = .symbol .yes then r
      else if r = .symbol .no then .symbol .no
      else if r = .symbol .yes then l
      else .two .and l r
  | .two .or l r =>
      let l := exprEliminateYn l
      let r := exprEliminateYn r
      if l = .symbol .no then r
      else if l = .symbol .yes then .symbol .yes
      else if r = .symbol .no then l
      else if r = .symbol .yes then .symbol .yes
      else .two .or l r
  | e => e

/-! ## Comparing two expressions -/

/-- A node is larger than its two operands together. -/
theorem Expr.size_of_operands {type : Junction} {e l r : Expr}
    (h : e.operands type = some (l, r)) : e.size = l.size + r.size + 1 := by
  rw [eq_two_of_operands h, size]

/-- What has no operands of an operation is no node of it. -/
theorem Expr.junction_ne_of_operands {type : Junction} {e : Expr} (h : e.operands type = none) :
    e.junction ≠ some type := by
  intro hj
  cases e with
  | two t l r =>
      cases hj
      rw [operands, if_pos rfl] at h
      cases h
  | _ => cases hj

/-- How far the recursion of the three functions is from a smaller pair. -/
private def rank (type : Junction) (e1 e2 : Expr) : ℕ :=
  if e1.junction = some type ∨ e2.junction = some type then 0 else 3

private theorem lex_of_lt {a b x y : ℕ} (h : a < b) : Prod.Lex (· < ·) (· < ·) (a, x) (b, y) :=
  .left _ _ h

private theorem lex_of_le {a b x y : ℕ} (h : a ≤ b) (hxy : x < y) :
    Prod.Lex (· < ·) (· < ·) (a, x) (b, y) := by
  rcases Nat.lt_or_eq_of_le h with hlt | rfl
  · exact .left _ _ hlt
  · exact .right _ hxy

mutual

/-- `expr_eq`. -/
def exprEq (e1 e2 : Expr) : Bool :=
  match e1, e2 with
  | .comp t1 l1 r1, .comp t2 l2 r2 => t1 = t2 ∧ l1 = l2 ∧ r1 = r2
  | .symbol s1, .symbol s2 => s1 = s2
  | .not e1, .not e2 => exprEq e1 e2
  | .two t1 l1 r1, .two t2 l2 r2 =>
      if t1 = t2 then
        -- the two are copied first, so what is eliminated is not lost
        match exprEliminateEq (.two t1 l1 r1) (.two t2 l2 r2) with
        | (.symbol s1, .symbol s2) => s1 = s2
        | _ => false
      else
        false
  | _, _ => false
  termination_by (e1.size + e2.size, 2)
  decreasing_by
    · exact lex_of_lt (by simp only [Expr.size]; omega)
    · exact lex_of_le (Nat.le_refl _) (by decide)

/-- `expr_eliminate_eq`, of two expressions that are there. -/
def exprEliminateEq (e1 e2 : Expr) : Expr × Expr :=
  match (match _h : e1.junction with
    | some type => exprEliminateEqHelper type e1 e2
    | none => ⟨(e1, e2), Nat.le_refl _, Nat.le_refl _⟩ :
      { p : Expr × Expr // p.1.size ≤ e1.size ∧ p.2.size ≤ e2.size }) with
  | ⟨(e1', e2'), _hsize⟩ =>
      let p := match _h : e2'.junction with
        | some type =>
            if e1'.junction = some type then (e1', e2')
            else (exprEliminateEqHelper type e1' e2').1
        | none => (e1', e2')
      (exprEliminateYn p.1, exprEliminateYn p.2)
  termination_by (e1.size + e2.size, 1)
  decreasing_by
    · exact lex_of_le (Nat.le_refl _) (by simp [rank, _h])
    · exact lex_of_le (Nat.add_le_add _hsize.1 _hsize.2) (by simp [rank, _h])

/-- `__expr_eliminate_eq`: equal operands of the two clusters are taken out
of both. Neither expression grows. -/
def exprEliminateEqHelper (type : Junction) (e1 e2 : Expr) :
    { p : Expr × Expr // p.1.size ≤ e1.size ∧ p.2.size ≤ e2.size } :=
  match h1 : e1.operands type with
  | some (l, r) =>
      match exprEliminateEqHelper type l e2 with
      | ⟨(l', e2'), hl⟩ =>
          match exprEliminateEqHelper type r e2' with
          | ⟨(r', e2''), hr⟩ => ⟨(.two type l' r', e2''), by
              have := Expr.size_of_operands h1
              simp only [Expr.size] at hl hr ⊢
              omega⟩
  | none =>
      match h2 : e2.operands type with
      | some (l, r) =>
          match exprEliminateEqHelper type e1 l with
          | ⟨(e1', l'), hl⟩ =>
              match exprEliminateEqHelper type e1' r with
              | ⟨(e1'', r'), hr⟩ => ⟨(e1'', .two type l' r'), by
                  have := Expr.size_of_operands h2
                  simp only [Expr.size] at hl hr ⊢
                  omega⟩
      | none =>
          if (e1 = .symbol .yes ∨ e1 = .symbol .no) ∧ e1 = e2 then
            ⟨(e1, e2), Nat.le_refl _, Nat.le_refl _⟩
          else if exprEq e1 e2 then
            ⟨(.symbol type.unit, .symbol type.unit), e1.size_pos, e2.size_pos⟩
          else
            ⟨(e1, e2), Nat.le_refl _, Nat.le_refl _⟩
  termination_by (e1.size + e2.size, rank type e1 e2)
  decreasing_by
    · have := Expr.size_of_operands h1
      exact lex_of_lt (by omega)
    · have := Expr.size_of_operands h1
      simp only at hl
      exact lex_of_lt (by omega)
    · have := Expr.size_of_operands h2
      exact lex_of_lt (by omega)
    · have := Expr.size_of_operands h2
      simp only at hl
      exact lex_of_lt (by omega)
    · refine lex_of_le (Nat.le_refl _) ?_
      simp [rank, Expr.junction_ne_of_operands h1, Expr.junction_ne_of_operands h2]

end

/-! ## Joining two operands -/

/-- The symbol an operand is about, as it is found on the left. -/
def joinSym1 : Expr → Option SymPtr
  | .not (.comp .equal sym _) | .not (.comp .unequal sym _) | .not (.symbol sym) => some sym
  | .comp .equal sym _ | .comp .unequal sym _ | .symbol sym => some sym
  | _ => none

/-- The symbol an operand is about, as it is found on the right. -/
def joinSym2 : Expr → Option SymPtr
  | .not (.symbol sym) => some sym
  | .comp .equal sym _ | .comp .unequal sym _ | .symbol sym => some sym
  | _ => none

namespace Expr

def isSymbol : Expr → Bool
  | symbol _ => true
  | _ => false

def isNotSymbol : Expr → Bool
  | not (symbol _) => true
  | _ => false

/-- A comparison of the given type with the given symbol. -/
def isComp (type : Relation) (right : SymPtr) : Expr → Bool
  | comp t _ r => t = type ∧ r = right
  | _ => false

/-- Both are comparisons of the given type, one with each of two symbols. -/
def areComps (type : Relation) (a b : SymPtr) (e1 e2 : Expr) : Bool :=
  (e1.isComp type a ∧ e2.isComp type b) ∨ (e1.isComp type b ∧ e2.isComp type a)

/-- One is a symbol, the other a comparison. -/
def areSymbolAndComp (type : Relation) (right : SymPtr) (e1 e2 : Expr) : Bool :=
  (e1.isSymbol ∧ e2.isComp type right) ∨ (e2.isSymbol ∧ e1.isComp type right)

end Expr

section Join

variable (tab : SymbolTable)

/-- What the two join functions share: the symbol both operands are about,
if it is a boolean or a tristate. -/
def joinSym (e1 e2 : Expr) : Option SymPtr :=
  match joinSym1 e1, joinSym2 e2 with
  | some sym1, some sym2 =>
      if sym1 ≠ sym2 then none
      else if tab.type sym1 ≠ .boolean ∧ tab.type sym1 ≠ .tristate then none
      else some sym1
  | _, _ => none

/-- `expr_join_or`. -/
def exprJoinOr (e1 e2 : Expr) : Option Expr :=
  if exprEq e1 e2 then some e1
  else match joinSym tab e1 e2 with
  | none => none
  | some sym1 =>
      if tab.type sym1 = .tristate ∧ Expr.areComps .equal .yes .mod e1 e2 then
        some (.comp .unequal sym1 .no)
      else if tab.type sym1 = .tristate ∧ Expr.areComps .equal .yes .no e1 e2 then
        some (.comp .unequal sym1 .mod)
      else if tab.type sym1 = .tristate ∧ Expr.areComps .equal .mod .no e1 e2 then
        some (.comp .unequal sym1 .yes)
      else if tab.type sym1 = .boolean ∧
          ((e1.isNotSymbol ∧ e2.isSymbol) ∨ (e2.isNotSymbol ∧ e1.isSymbol)) then
        some (.symbol .yes)
      else
        none

/-- `(a='b') && (a!='c') -> 'b'='c' ? 'n' : a='b'`, of constants. -/
def joinConsts (sym1 b c : SymPtr) : Option Expr :=
  if tab.isConst b ∧ tab.isConst c then
    some (if b ≠ c then .comp .equal sym1 b else .symbol .no)
  else
    none

/-- The part of `expr_join_and` for tristates. -/
def joinAndTristate (sym1 : SymPtr) : Expr → Expr → Option Expr
  | .comp .equal _ b, .comp .unequal _ c => joinConsts tab sym1 b c
  | .comp .unequal _ c, .comp .equal _ b => joinConsts tab sym1 b c
  | e1, e2 =>
      if Expr.areComps .unequal .yes .no e1 e2 then some (.comp .equal sym1 .mod)
      else if Expr.areComps .unequal .yes .mod e1 e2 then some (.comp .equal sym1 .no)
      else if Expr.areComps .unequal .mod .no e1 e2 then some (.comp .equal sym1 .yes)
      else none

/-- `expr_join_and`. -/
def exprJoinAnd (e1 e2 : Expr) : Option Expr :=
  if exprEq e1 e2 then some e1
  else match joinSym tab e1 e2 with
  | none => none
  | some sym1 =>
      if Expr.areSymbolAndComp .equal .yes e1 e2 then some (.comp .equal sym1 .yes)
      else if Expr.areSymbolAndComp .unequal .no e1 e2 then some (.symbol sym1)
      else if Expr.areSymbolAndComp .unequal .mod e1 e2 then some (.comp .equal sym1 .yes)
      else if tab.type sym1 = .tristate then joinAndTristate tab sym1 e1 e2
      else none

/-- The join of the operands of an `||` or an `&&`. -/
def exprJoin : Junction → Expr → Expr → Option Expr
  | .or => exprJoinOr tab
  | .and => exprJoinAnd tab

end Join

/-! ## Removing duplicates -/

/-- The expression a pass walks through, and `trans_count`. -/
structure Dups where
  tree : Expr
  transCount : ℕ

open Prog

section Dups

variable (tab : SymbolTable)

end Dups

end Kconfig

end BlocTest
