import BlocTest.Kconfig.Compare
import BlocTest.Kconfig.Duplicates
import BlocTest.Kconfig.Model.Menu
import BlocTest.Kconfig.Transform
/-!
# Dependencies of menu entries

What `menu_finalize` hands on is what the entries above allow, and an entry
goes into the submenu of a symbol only if it is not to be seen without it.
-/

namespace BlocTest

namespace Kconfig

variable {tab : SymbolTable} {cfg : Config tab} {e e' : Expr} {sym modules : SymPtr}

/-! ## `m` and the modules -/

/-- Only symbols are negated. -/
def Expr.NegatesSymbols : Expr → Prop
  | symbol _ => True
  | not e => ∃ sym, e = symbol sym
  | two _ l r => l.NegatesSymbols ∧ r.NegatesSymbols
  | comp _ _ _ => True

/-- What the expressions that are handed on are like. -/
def Fit (tab : SymbolTable) (e : Option Expr) : Prop :=
  ∀ e₀, e = some e₀ → e₀.Plain tab ∧ e₀.NegatesSymbols

/-- The size of an expression that may not be there. -/
def optionSize : Option Expr → ℕ
  | none => 0
  | some e => e.size

/-- What is owed of a step that hands an expression on, `value` being what is
made of its value: it comes to an end, whatever is handed on, as long as that
is not too large. -/
def HandsOn (tab : SymbolTable) (step : ℕ → Option Expr → Except Fault (Option Expr))
    (value : Config tab → Tristate → Tristate) : Prop :=
  ∀ n, ∃ bound n', ∀ fuel, bound ≤ fuel → ∀ e, Fit tab e → optionSize e ≤ n →
    ∃ e', step fuel e = .ok e' ∧ Fit tab e' ∧ optionSize e' ≤ n' ∧
      ∀ cfg : Config tab, exprCalcValue cfg e' = value cfg (exprCalcValue cfg e)

/-- One step after another, with enough steps for both. -/
theorem HandsOn.then {step step' : ℕ → Option Expr → Except Fault (Option Expr)}
    {value value' : Config tab → Tristate → Tristate} (h : HandsOn tab step value)
    (h' : HandsOn tab step' value') :
    HandsOn tab (fun fuel e => step fuel e >>= step' fuel)
      (fun cfg v => value' cfg (value cfg v)) := by
  intro n
  obtain ⟨bound, n₁, hstep⟩ := h n
  obtain ⟨bound', n₂, hstep'⟩ := h' n₁
  refine ⟨max bound bound', n₂, fun fuel hfuel e he hn => ?_⟩
  obtain ⟨e₁, hrun, hfit, hsize, hvalue⟩ :=
    hstep fuel (Nat.le_trans (Nat.le_max_left _ _) hfuel) e he hn
  obtain ⟨e₂, hrun', hfit', hsize', hvalue'⟩ :=
    hstep' fuel (Nat.le_trans (Nat.le_max_right _ _) hfuel) e₁ hfit hsize
  refine ⟨e₂, ?_, hfit', hsize', fun cfg => by rw [hvalue', hvalue]⟩
  show step fuel e >>= step' fuel = _
  rw [hrun]
  exact hrun'

/-! ## The way down to an entry -/

/-- The expressions of a node compare no boolean or tristate with a quoted
number. -/
def MenuNode.Plain (tab : SymbolTable) : MenuNode → Prop
  | cond dep => ∀ e, dep = some e → e.Plain tab
  | menu dep visible =>
      (∀ e, dep = some e → e.Plain tab) ∧ ∀ e, visible = some e → e.Plain tab
  | choice dep _ => ∀ e, dep = some e → e.Plain tab

end Kconfig

end BlocTest
