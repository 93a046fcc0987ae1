import BlocTest.Kconfig.Helpers.Values
/-!
# `expr_transform`

The rewriting keeps the value of an expression in every configuration, and
what comes out is in a normal form, which it leaves as it is.
-/

namespace BlocTest

namespace Kconfig

variable {tab : SymbolTable} {cfg : Config tab}

/-! ## The recursion, as equations -/

/-- What is returned weighs no more than what was given. -/
theorem weight_exprTransform_le (e : Expr) : (exprTransform tab e).weight ≤ e.weight :=
  (exprTransformBounded tab e).2

/-- A symbol is left as it is. -/
@[simp] theorem exprTransform_symbol (sym : SymPtr) :
    exprTransform tab (.symbol sym) = .symbol sym := by
  unfold exprTransform
  rw [exprTransformBounded]

/-- A comparison is looked at by itself. -/
@[simp] theorem exprTransform_comp (type : Relation) (l r : SymPtr) :
    exprTransform tab (.comp type l r) = transformComp tab (.comp type l r) := by
  unfold exprTransform
  rw [exprTransformBounded]

/-- An `&&` or an `||` is transformed side by side. -/
@[simp] theorem exprTransform_two (type : Junction) (l r : Expr) :
    exprTransform tab (.two type l r) = .two type (exprTransform tab l) (exprTransform tab r) := by
  unfold exprTransform
  rw [exprTransformBounded]

/-- A negation is transformed by what has become of the expression under it,
and what that leaves is transformed again. -/
theorem exprTransform_not (e : Expr) : exprTransform tab (.not e) =
    match exprTransform tab e with
    | .not a => exprTransform tab a
    | .comp type l r => .comp type.negate l r
    | .two type l r => exprTransform tab (.two type.dual (.not l) (.not r))
    | .symbol sym => transformNotSymbol sym := by
  unfold exprTransform
  rw [exprTransformBounded]
  split <;> rename_i h <;> simp [h]

/-- **The induction of the rewriting.** A negation is taken apart by what has
become of the expression under it. -/
theorem exprTransform_induction {P : Expr → Expr → Prop}
    (hsymbol : ∀ sym, P (.symbol sym) (.symbol sym))
    (hcomp : ∀ type l r, P (.comp type l r) (transformComp tab (.comp type l r)))
    (htwo : ∀ type l r l' r', P l l' → P r r' → P (.two type l r) (.two type l' r'))
    (hnot : ∀ e a a', P e (.not a) → P a a' → P (.not e) a')
    (hnotComp : ∀ e type l r, P e (.comp type l r) → P (.not e) (.comp type.negate l r))
    (hnotTwo : ∀ e type l r e', P e (.two type l r) →
      P (.two type.dual (.not l) (.not r)) e' → P (.not e) e')
    (hnotSymbol : ∀ e sym, P e (.symbol sym) → P (.not e) (transformNotSymbol sym))
    (e : Expr) : P e (exprTransform tab e) := by
  induction hw : e.weight using Nat.strong_induction_on generalizing e with
  | _ w ih =>
      subst hw
      cases e with
      | symbol sym =>
          rw [exprTransform_symbol]
          exact hsymbol sym
      | comp type l r =>
          rw [exprTransform_comp]
          exact hcomp type l r
      | two type l r =>
          rw [exprTransform_two]
          have := Expr.weight_two type l r
          exact htwo type l r _ _ (ih _ (by omega) l rfl) (ih _ (by omega) r rfl)
      | not e =>
          have he := ih _ e.weight_lt_not e rfl
          have hle : (exprTransform tab e).weight ≤ e.weight := weight_exprTransform_le e
          rw [exprTransform_not]
          cases hcase : exprTransform tab e with
          | not a =>
              rw [hcase] at he hle
              exact hnot e a _ he (ih _ (Expr.weight_lt_of_not_le hle) a rfl)
          | comp type l r =>
              rw [hcase] at he
              exact hnotComp e type l r he
          | two type l r =>
              rw [hcase] at he hle
              exact hnotTwo e type l r _ he (ih _ (Expr.weight_dual_lt hle) _ rfl)
          | symbol sym =>
              rw [hcase] at he
              exact hnotSymbol e sym he

/-! ## The value -/

/-- A boolean compared with `y`, `m` or `n` is the boolean, its negation or a
constant, since it is never `m`. -/
theorem calcValue_transformComp (type : Relation) (l r : SymPtr) :
    (transformComp tab (.comp type l r)).calcValue cfg = (Expr.comp type l r).calcValue cfg := by
  by_cases hbool : tab.type l = .boolean
  · have hlogic : tab.IsLogic l := .inl hbool
    have hmod : cfg.symGetTristateValue l ≠ .mod := ne_mod_of_boolean hbool
    have hequal : ∀ b : Tristate, (Expr.comp .equal l b.symbol).calcValue cfg =
        if cfg.symGetTristateValue l = b then .yes else .no := calcValue_equal hlogic
    have hunequal : ∀ b : Tristate, (Expr.comp .unequal l b.symbol).calcValue cfg =
        if cfg.symGetTristateValue l = b then .no else .yes := calcValue_unequal hlogic
    cases type with
    | equal =>
        simp only [transformComp, hbool, not_true_eq_false, if_false, ne_eq]
        split_ifs with hno hm hyes
        · subst hno
          rw [show SymPtr.no = Tristate.no.symbol from rfl, hequal, calcValue_not, calcValue_symbol]
          cases htri : cfg.symGetTristateValue l <;> simp_all [exprNot]
        · subst hm
          rw [show SymPtr.mod = Tristate.mod.symbol from rfl, hequal, if_neg hmod]
          rfl
        · subst hyes
          rw [show SymPtr.yes = Tristate.yes.symbol from rfl, hequal, calcValue_symbol]
          cases htri : cfg.symGetTristateValue l <;> simp_all
        · rfl
    | unequal =>
        simp only [transformComp, hbool, not_true_eq_false, if_false, ne_eq]
        split_ifs with hno hm hyes
        · subst hno
          rw [show SymPtr.no = Tristate.no.symbol from rfl, hunequal, calcValue_symbol]
          cases htri : cfg.symGetTristateValue l <;> simp_all
        · subst hm
          rw [show SymPtr.mod = Tristate.mod.symbol from rfl, hunequal, if_neg hmod]
          rfl
        · subst hyes
          rw [show SymPtr.yes = Tristate.yes.symbol from rfl, hunequal, calcValue_not,
            calcValue_symbol]
          cases htri : cfg.symGetTristateValue l <;> simp_all [exprNot]
        · rfl
    | _ => rfl
  · cases type <;> simp [transformComp, hbool]

/-- The negation of a static symbol is the other one, or `m` itself. -/
theorem calcValue_transformNotSymbol (sym : SymPtr) :
    (transformNotSymbol sym).calcValue cfg = (Expr.not (.symbol sym)).calcValue cfg := by
  cases sym <;> rfl

/-- The value is kept, by the induction of the rewriting. -/
theorem calcValue_exprTransform (e : Expr) :
    (exprTransform tab e).calcValue cfg = e.calcValue cfg := by
  refine exprTransform_induction (P := fun e e' => e'.calcValue cfg = e.calcValue cfg)
    ?_ ?_ ?_ ?_ ?_ ?_ ?_ e
  · intro sym
    rfl
  · exact fun type l r => calcValue_transformComp type l r
  · intro type l r l' r' hl hr
    rw [calcValue_two, calcValue_two, hl, hr]
  · intro e a a' he ha
    rw [ha, calcValue_not, ← he, calcValue_not, exprNot_exprNot]
  · intro e type l r he
    rw [calcValue_comp_negate, he, calcValue_not]
  · intro e type l r e' he he'
    rw [he', calcValue_two, calcValue_not, calcValue_not, Junction.apply_dual, calcValue_not, ← he,
      calcValue_two]
  · intro e sym he
    rw [calcValue_transformNotSymbol, calcValue_not, he, calcValue_not]

/-! ## The normal form -/

/-- A boolean compared with `y`, `m` or `n`. -/
def IsTest (tab : SymbolTable) (type : Relation) (l r : SymPtr) : Prop :=
  tab.type l = .boolean ∧ (type = .equal ∨ type = .unequal) ∧ (r = .yes ∨ r = .mod ∨ r = .no)

/-- **Normal expressions**: what is negated is an entry of the table, and no
boolean is compared with `y`, `m` or `n`. -/
def Expr.Normal (tab : SymbolTable) : Expr → Prop
  | symbol _ => True
  | not (symbol (.entry _)) => True
  | not _ => False
  | two _ l r => l.Normal tab ∧ r.Normal tab
  | comp type l r => ¬ IsTest tab type l r

/-- The opposite of a test is a test. -/
theorem isTest_negate {type : Relation} {l r : SymPtr} :
    IsTest tab type.negate l r ↔ IsTest tab type l r := by
  cases type <;> simp [IsTest, Relation.negate]

/-- What has the type of a boolean is an entry of the table. -/
theorem SymbolTable.exists_entry {l : SymPtr} (h : tab.type l = .boolean) : ∃ i, l = .entry i := by
  cases l with
  | entry i => exact ⟨i, rfl⟩
  | _ => cases h

/-- No test is left of a comparison. -/
theorem normal_transformComp (type : Relation) (l r : SymPtr) :
    (transformComp tab (.comp type l r)).Normal tab := by
  cases type with
  | equal =>
      simp only [transformComp]
      split_ifs with hbool hno hm hyes
      · exact fun h => hbool h.1
      · obtain ⟨i, rfl⟩ := SymbolTable.exists_entry (not_not.1 hbool)
        trivial
      · trivial
      · trivial
      · exact fun h => by simp_all [IsTest]
  | unequal =>
      simp only [transformComp]
      split_ifs with hbool hno hm hyes
      · exact fun h => hbool h.1
      · trivial
      · trivial
      · obtain ⟨i, rfl⟩ := SymbolTable.exists_entry (not_not.1 hbool)
        trivial
      · exact fun h => by simp_all [IsTest]
  | _ => exact fun h => by simp [IsTest] at h

/-- A comparison that is no test is left as it is. -/
theorem transformComp_of_not_isTest {type : Relation} {l r : SymPtr} (h : ¬ IsTest tab type l r) :
    transformComp tab (.comp type l r) = .comp type l r := by
  cases type with
  | equal =>
      simp only [transformComp]
      split_ifs with hbool hno hm hyes
      all_goals first | rfl | exact absurd ⟨by simpa using hbool, by simp, by simp [*]⟩ h
  | unequal =>
      simp only [transformComp]
      split_ifs with hbool hno hm hyes
      all_goals first | rfl | exact absurd ⟨by simpa using hbool, by simp, by simp [*]⟩ h
  | _ => rfl

/-- **What is returned is normal.** -/
theorem normal_exprTransform (e : Expr) : (exprTransform tab e).Normal tab := by
  refine exprTransform_induction (P := fun _ e' => e'.Normal tab) ?_ ?_ ?_ ?_ ?_ ?_ ?_ e
  · intro sym
    trivial
  · exact normal_transformComp
  · exact fun _ _ _ _ _ hl hr => ⟨hl, hr⟩
  · exact fun _ _ _ _ ha => ha
  · intro _ type l r he
    exact fun h => he (isTest_negate.1 h)
  · exact fun _ _ _ _ _ _ he' => he'
  · intro _ sym _
    cases sym <;> trivial

/-- **What is normal is returned as it is.** -/
theorem exprTransform_of_normal {e : Expr} (h : e.Normal tab) : exprTransform tab e = e := by
  induction e with
  | symbol sym => exact exprTransform_symbol sym
  | comp type l r =>
      rw [exprTransform_comp]
      exact transformComp_of_not_isTest h
  | two type l r ihl ihr => rw [exprTransform_two, ihl h.1, ihr h.2]
  | not e =>
      cases e with
      | symbol sym =>
          rw [exprTransform_not, exprTransform_symbol]
          cases sym with
          | entry i => rfl
          | _ => exact absurd h id
      | _ => exact absurd h id

/-- **`expr_transform` keeps the value of every expression in every
configuration.** What it returns is normal, and a normal expression is
returned as it is, so transforming again changes nothing. -/
theorem exprTransform_preserves (tab : SymbolTable) (e : Expr) :
    (∀ cfg : Config tab, (exprTransform tab e).calcValue cfg = e.calcValue cfg) ∧
      (exprTransform tab e).Normal tab ∧
      ∀ e' : Expr, e'.Normal tab → exprTransform tab e' = e' :=
  ⟨fun _ => calcValue_exprTransform e, normal_exprTransform e, fun _ => exprTransform_of_normal⟩

end Kconfig

end BlocTest
