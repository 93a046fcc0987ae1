import BlocTest.Kconfig.Model.Transform
/-!
# Values of Kconfig expressions

The tristates as a lattice with a negation, and what a comparison of a
boolean or tristate symbol with a constant comes to.
-/

namespace BlocTest

namespace Kconfig

/-! ## The operations -/

/-- The operation of a node on values. -/
def Junction.apply : Junction → Tristate → Tristate → Tristate
  | or => exprOr
  | and => exprAnd

/-- The value of what an operand is replaced by. -/
def Junction.neutral : Junction → Tristate
  | or => .no
  | and => .yes

instance junctionAssociative (type : Junction) : Std.Associative type.apply where
  assoc a b c := by
    cases type <;> cases a <;> cases b <;> cases c <;> rfl

instance junctionCommutative (type : Junction) : Std.Commutative type.apply where
  comm a b := by
    cases type <;> cases a <;> cases b <;> rfl

/-- `n || a` and `y && a` are `a`. -/
@[simp] theorem Junction.apply_neutral (type : Junction) (a : Tristate) :
    type.apply type.neutral a = a := by
  cases type <;> cases a <;> rfl

/-- The neutral value on the other side. -/
@[simp] theorem Junction.apply_neutral_right (type : Junction) (a : Tristate) :
    type.apply a type.neutral = a := by
  cases type <;> cases a <;> rfl

/-- The operations grow with their operands. -/
theorem Junction.apply_mono (type : Junction) {a b c d : Tristate} (hab : a ≤ b) (hcd : c ≤ d) :
    type.apply a c ≤ type.apply b d := by
  revert hab hcd
  cases type <;> cases a <;> cases b <;> cases c <;> cases d <;> decide

/-- A double negation is nothing. -/
@[simp] theorem exprNot_exprNot (a : Tristate) : exprNot (exprNot a) = a := by
  cases a <;> rfl

/-- **De Morgan.** -/
theorem Junction.apply_dual (type : Junction) (a b : Tristate) :
    type.dual.apply (exprNot a) (exprNot b) = exprNot (type.apply a b) := by
  cases type <;> cases a <;> cases b <;> rfl

/-- A relation that holds makes its negation fail. -/
theorem Relation.holds_negate (type : Relation) (res : Ordering) :
    type.negate.holds res = !type.holds res := by
  cases type <;> cases res <;> rfl

section Value

variable {tab : SymbolTable} {cfg : Config tab}

/-- A symbol has its tristate value. -/
@[simp] theorem calcValue_symbol (sym : SymPtr) :
    (Expr.symbol sym).calcValue cfg = cfg.symGetTristateValue sym := rfl

/-- A negation negates the value. -/
@[simp] theorem calcValue_not (e : Expr) :
    (Expr.not e).calcValue cfg = exprNot (e.calcValue cfg) := rfl

/-- An `&&` or an `||` has the value its operation makes of the two sides. -/
theorem calcValue_two (type : Junction) (l r : Expr) :
    (Expr.two type l r).calcValue cfg = type.apply (l.calcValue cfg) (r.calcValue cfg) := by
  cases type <;> rfl

/-- The symbol put for an operand that is crossed out has the neutral value.
-/
theorem calcValue_unit (type : Junction) :
    (Expr.symbol type.unit).calcValue cfg = type.neutral := by
  cases type <;> rfl

/-- A comparison is `y` where it holds and `n` where it does not. -/
theorem calcValue_comp (type : Relation) (l r : SymPtr) :
    (Expr.comp type l r).calcValue cfg =
      if type.holds (compareSymbols cfg l r) then .yes else .no := rfl

/-- The opposite comparison has the negated value. -/
theorem calcValue_comp_negate (type : Relation) (l r : SymPtr) :
    (Expr.comp type.negate l r).calcValue cfg = exprNot ((Expr.comp type l r).calcValue cfg) := by
  rw [calcValue_comp, calcValue_comp, Relation.holds_negate]
  cases type.holds (compareSymbols cfg l r) <;> rfl

/-! ## Comparisons with a constant -/

/-- The text of a tristate. -/
def Tristate.text : Tristate → Text
  | no => ['n']
  | mod => ['m']
  | yes => ['y']

/-- The three letters are different. -/
theorem Tristate.text_injective : Function.Injective Tristate.text := by
  intro a b h
  cases a <;> cases b <;> first | rfl | cases h

/-- `strcmp` finds nothing between equal texts only. -/
theorem strcmp_eq_iff {s t : Text} : strcmp s t = .eq ↔ s = t := by
  induction s generalizing t with
  | nil =>
      cases t with
      | nil => exact ⟨fun _ => rfl, fun _ => rfl⟩
      | cons b t =>
          constructor <;> intro h <;> cases h
  | cons a s ih =>
      cases t with
      | nil =>
          constructor <;> intro h <;> cases h
      | cons b t =>
          unfold strcmp
          split_ifs with hlt hgt
          · have hne : a ≠ b := fun heq => absurd hlt (heq ▸ Char.lt_irrefl a)
            simp [hne]
          · have hne : a ≠ b := fun heq => absurd hgt (heq ▸ Char.lt_irrefl a)
            simp [hne]
          · have heq : a = b := Char.le_antisymm (Char.not_lt.1 hgt) (Char.not_lt.1 hlt)
            rw [ih, heq, List.cons.injEq]
            exact ⟨fun h => ⟨rfl, h⟩, fun h => h.2⟩

/-- A symbol with a tristate value. -/
def SymbolTable.IsLogic (tab : SymbolTable) (sym : SymPtr) : Prop :=
  tab.type sym = .boolean ∨ tab.type sym = .tristate

/-- The value of an entry is the one kept for it. -/
@[simp] theorem currTri_entry (tri : ℕ → Tristate) (i : ℕ) : currTri tri (.entry i) = tri i := rfl

/-- The value of such a symbol as a text, whatever its type. -/
theorem symGetStringValue_of_isLogic {sym : SymPtr} (h : tab.IsLogic sym) :
    cfg.symGetStringValue sym = (cfg.symGetTristateValue sym).text := by
  cases sym with
  | entry i =>
      have hbool := cfg.bool_ne_mod i
      have hmod := cfg.modules_of_mod i
      rcases h with htype | htype <;> simp only [SymbolTable.type] at htype
      · cases htri : cfg.tri i with
        | mod => exact absurd htri (hbool htype)
        | _ => simp [Config.symGetStringValue, Config.symGetTristateValue, htype, htri,
            Tristate.text]
      · cases htri : cfg.tri i with
        | mod => simp [Config.symGetStringValue, Config.symGetTristateValue, htype, htri,
            hmod htype htri, Tristate.text]
        | _ => simp [Config.symGetStringValue, Config.symGetTristateValue, htype, htri,
            Tristate.text]
  | _ => rcases h with h | h <;> cases h

/-- A constant has no type. -/
theorem SymbolTable.type_of_isConst {c : SymPtr} (hc : tab.isConst c = true) :
    tab.type c = .unknown := by
  cases c with
  | entry i => exact tab.const_unknown i hc
  | _ => rfl

/-- A constant has its name for value. -/
theorem symGetStringValue_of_isConst {c : SymPtr} (hc : tab.isConst c = true) :
    cfg.symGetStringValue c = tab.name c := by
  cases c with
  | entry i =>
      have htype : (tab.entry i).type = .unknown := tab.const_unknown i hc
      unfold Config.symGetStringValue
      simp only [htype]
      exact cfg.unknown_val i htype
  | _ => rfl

/-- What a tristate compared with a constant of the given name comes to. -/
def compareConst (a : Tristate) (name : Text) : Ordering :=
  let rval := parseSigned 0 name
  if rval.kind = .string then strcmp a.text name else compare (a.rank : ℤ) rval.val.toInt

/-- `strtoll` finds no unsigned number. -/
theorem kind_parseSigned (base : ℕ) (str : Text) : (parseSigned base str).kind ≠ .unsigned := by
  unfold parseSigned
  split
  · decide
  · simp only [wholeNumber]
    split_ifs <;> intro h <;> cases h

/-- A boolean or tristate compared with a constant: the constant has no type,
so its name is read as a number where it is one, and the value of the symbol
is a number in any case. -/
theorem compareSymbols_const {sym c : SymPtr} (hsym : tab.IsLogic sym)
    (hc : tab.isConst c = true) : compareSymbols cfg sym c =
      compareConst (cfg.symGetTristateValue sym) (tab.name c) := by
  have hctype := SymbolTable.type_of_isConst hc
  have hparse : exprParseString (cfg.symGetTristateValue sym).text (tab.type sym) =
      ⟨.signed, BitVec.ofNat 64 (cfg.symGetTristateValue sym).rank⟩ := by
    rcases hsym with h | h <;> rw [h] <;> cases cfg.symGetTristateValue sym <;> rfl
  have hrank : (BitVec.ofNat 64 (cfg.symGetTristateValue sym).rank).toInt =
      ((cfg.symGetTristateValue sym).rank : ℤ) := by
    cases cfg.symGetTristateValue sym <;> rfl
  have hkind := kind_parseSigned 0 (tab.name c)
  simp only [compareSymbols, compareConst, symGetStringValue_of_isLogic hsym,
    symGetStringValue_of_isConst hc, hctype, hparse]
  simp [exprParseString, hrank, hkind]

/-- A static symbol stands for its own value. -/
theorem compareConst_static {a b : Tristate} : compareConst a b.text = .eq ↔ a = b := by
  cases a <;> cases b <;> decide

/-- The three static symbols, by their values. -/
def Tristate.symbol : Tristate → SymPtr
  | no => .no
  | mod => .mod
  | yes => .yes

/-- **A comparison with `y`, `m` or `n` asks for the value.** -/
theorem compareSymbols_static {sym : SymPtr} (hsym : tab.IsLogic sym) (b : Tristate) :
    compareSymbols cfg sym b.symbol = .eq ↔ cfg.symGetTristateValue sym = b := by
  have hname : tab.name b.symbol = b.text := by cases b <;> rfl
  have hconst : tab.isConst b.symbol = true := by cases b <;> rfl
  rw [compareSymbols_const hsym hconst, hname, compareConst_static]

/-- `A=y`, `A=m` and `A=n` ask for the value of `A`. -/
theorem calcValue_equal {sym : SymPtr} (hsym : tab.IsLogic sym) (b : Tristate) :
    (Expr.comp .equal sym b.symbol).calcValue cfg =
      if cfg.symGetTristateValue sym = b then .yes else .no := by
  rw [calcValue_comp]
  simp [Relation.holds, compareSymbols_static hsym]

/-- So do `A!=y`, `A!=m` and `A!=n`. -/
theorem calcValue_unequal {sym : SymPtr} (hsym : tab.IsLogic sym) (b : Tristate) :
    (Expr.comp .unequal sym b.symbol).calcValue cfg =
      if cfg.symGetTristateValue sym = b then .no else .yes := by
  rw [calcValue_comp]
  by_cases h : cfg.symGetTristateValue sym = b <;>
    simp [Relation.holds, compareSymbols_static hsym, h]

/-- A boolean is never `m`. -/
theorem ne_mod_of_boolean {sym : SymPtr} (h : tab.type sym = .boolean) :
    cfg.symGetTristateValue sym ≠ .mod := by
  cases sym with
  | entry i => exact cfg.bool_ne_mod i h
  | _ => cases h

end Value

/-- A table of tristates. -/
def tristates : SymbolTable where
  entry i := ⟨List.replicate (i + 2) 'T', .tristate, false⟩
  const_unknown _ h := by cases h
  const_unique _ _ h := by cases h
  const_fresh _ h := by cases h

end Kconfig

end BlocTest
