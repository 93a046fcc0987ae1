import BlocTest.Kconfig.Helpers.Duplicates
/-!
# Removing duplicates

`expr_eliminate_dups` repeats its pass until one joins nothing. Each pass
that joins something leaves a `y` or an `n`, so that the expression the next
one starts from is smaller.
-/

namespace BlocTest

namespace Kconfig

open Branching Prog

variable {tab : SymbolTable} {e e' : Expr}

/-- What the passes so far have made of the expression. -/
structure Kept (tab : SymbolTable) (e e' : Expr) : Prop where
  keeps : ∀ P, Expr.Local P → P e → P e'
  value : e.Plain tab → ∀ cfg : Config tab, e'.calcValue cfg = e.calcValue cfg
  size : e'.size ≤ e.size

/-- No pass has made anything of the expression yet. -/
theorem Kept.refl (e : Expr) : Kept tab e e :=
  ⟨fun _ _ h => h, fun _ _ => rfl, Nat.le_refl _⟩

/-- One more pass. -/
theorem Kept.trans {e'' : Expr} (h : Kept tab e e') (h' : Kept tab e' e'') : Kept tab e e'' where
  keeps P hP he := h'.keeps P hP (h.keeps P hP he)
  value he cfg := (h'.value (h.keeps _ local_plain he) cfg).trans (h.value he cfg)
  size := Nat.le_trans h'.size h.size

/-- Removing `y` and `n` makes no comparison and no negation. -/
theorem Expr.Local.exprEliminateYn {P : Expr → Prop} (hP : Expr.Local P) (h : P e) :
    P (exprEliminateYn e) := by
  induction e with
  | two type l r ihl ihr =>
      obtain ⟨hl, hr⟩ := (hP.two type l r).1 h
      have htwo := fun t => (hP.two t _ _).2 ⟨ihl hl, ihr hr⟩
      cases type <;> simp only [Kconfig.exprEliminateYn] <;> split_ifs
      all_goals first | exact hP.symbol _ | exact ihl hl | exact ihr hr | exact htwo _
  | _ => exact h

end Kconfig

end BlocTest
