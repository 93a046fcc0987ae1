import BlocTest.Kconfig.Helpers.Equality
/-!
# Joining two operands

What `expr_join_or` and `expr_join_and` put for two operands has their value
together, is not larger than they were, and can stand where one of them
stood.
-/

namespace BlocTest

namespace Kconfig

/-! ## Quoted numbers -/

/-- A quoted word that is read as the number of a tristate. -/
def SymbolTable.IsNumeral (tab : SymbolTable) (c : SymPtr) : Prop :=
  ∃ i, c = .entry i ∧ tab.isConst c = true ∧
    ∃ a : Tristate, parseSigned 0 (tab.name c) = ⟨.signed, BitVec.ofNat 64 a.rank⟩

/-- No boolean or tristate is compared with a quoted `0`, `1` or `2`, under a
negation or not. -/
def Expr.Plain (tab : SymbolTable) : Expr → Prop
  | symbol _ => True
  | not e => e.Plain tab
  | two _ l r => l.Plain tab ∧ r.Plain tab
  | comp _ l r => tab.IsLogic l → ¬ tab.IsNumeral r

variable {tab : SymbolTable} {cfg : Config tab} {e e1 e2 tmp : Expr} {sym sym1 b c : SymPtr}

/-- The static symbols are no entries of the table, and so no numerals. -/
theorem SymbolTable.not_isNumeral_symbol (a : Tristate) : ¬ tab.IsNumeral a.symbol := by
  intro h
  obtain ⟨i, hi, -⟩ := h
  cases a <;> cases hi

/-- A property of an expression that is one of its comparisons and of what it
negates. -/
structure Expr.Local (P : Expr → Prop) : Prop where
  symbol : ∀ sym, P (symbol sym)
  static : ∀ type sym (a : Tristate), P (comp type sym a.symbol)
  two : ∀ type l r, P (two type l r) ↔ P l ∧ P r

/-- Being plain is a property of the comparisons alone. -/
theorem local_plain : Expr.Local (Expr.Plain tab) where
  symbol _ := trivial
  static _ _ a _ := SymbolTable.not_isNumeral_symbol a
  two _ _ _ := Iff.rfl

/-- What an expression has to be to stand for two operands of an `||` or an
`&&`. -/
structure Joins (tab : SymbolTable) (type : Junction) (e1 e2 tmp : Expr) : Prop where
  keeps : ∀ P, Expr.Local P → P e1 → P e2 → P tmp
  value : e1.Plain tab → e2.Plain tab → ∀ cfg : Config tab,
    tmp.calcValue cfg = type.apply (e1.calcValue cfg) (e2.calcValue cfg)
  size : tmp.size < e1.size + e2.size
  operand : e1.junction ≠ some type → tmp.junction ≠ some type

/-- The operands may be given the other way round. -/
theorem Joins.comm {type : Junction} (h : Joins tab type e1 e2 tmp) (hsize : tmp.junction = none) :
    Joins tab type e2 e1 tmp where
  keeps P hP h2 h1 := h.keeps P hP h1 h2
  value h2 h1 cfg := by rw [h.value h1 h2, (junctionCommutative type).comm]
  size := by
    have := h.size
    omega
  operand _ ht := by
    rw [hsize] at ht
    cases ht

end Kconfig

end BlocTest
