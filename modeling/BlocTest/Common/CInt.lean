import BlocTest.Common.Prog
import Mathlib.Algebra.Ring.Int.Defs
import Mathlib.Algebra.Ring.Nat
import Mathlib.Order.Defs.LinearOrder
/-!
# Signed 32-bit arithmetic

In C the value of a signed expression is its exact value, and there is none
when that does not fit. `Prog.signed n` is the value of an `int` expression
whose exact value is `n`: it faults where the language leaves the behaviour
undefined.
-/

namespace BlocTest

/-- The largest `int`. -/
def intMax : ℤ := 2 ^ 31 - 1

/-- The integers an `int` can hold. -/
def FitsInt (n : ℤ) : Prop := -2 ^ 31 ≤ n ∧ n < 2 ^ 31

instance (n : ℤ) : Decidable (FitsInt n) := inferInstanceAs (Decidable (_ ∧ _))

/-- A value that fits is kept. -/
theorem toInt_ofInt_of_fits {n : ℤ} (h : FitsInt n) : (Int32.ofInt n).toInt = n :=
  Int32.toInt_ofInt_of_le h.1 h.2

/-- An `int` below the largest one can be incremented. -/
theorem fits_succ {x : Int32} (hx : x.toInt < intMax) : FitsInt (x.toInt + 1) := by
  have := x.le_toInt
  simp only [FitsInt, intMax] at hx ⊢
  omega

/-- The value of an expression whose exact value is a natural number that an
`int` can hold. -/
theorem fits_and_toInt {m : ℤ} {k : ℕ} (hm : m = k) (hk : (k : ℤ) < 2 ^ 31) :
    FitsInt m ∧ (Int32.ofInt m).toInt = k := by
  have hfit : FitsInt m := by
    unfold FitsInt
    omega
  exact ⟨hfit, (toInt_ofInt_of_fits hfit).trans hm⟩

/-- One round of a loop that counts up. -/
theorem fits_and_toInt_succ {i : Int32} {k : ℕ} (hi : i.toInt = k) (hk : (k : ℤ) + 1 < 2 ^ 31) :
    FitsInt (i.toInt + 1) ∧ (Int32.ofInt (i.toInt + 1)).toInt = (k + 1 : ℕ) :=
  fits_and_toInt (congrArg (· + 1) hi) hk

/-- Two values that fit are told apart. -/
theorem ofInt_eq_iff {m n : ℤ} (hm : FitsInt m) (hn : FitsInt n) :
    Int32.ofInt m = Int32.ofInt n ↔ m = n := by
  rw [← Int32.toInt_inj, toInt_ofInt_of_fits hm, toInt_ofInt_of_fits hn]

/-- The `int`s in the order of their values. -/
instance int32LinearOrder : LinearOrder Int32 where
  le_refl := Int32.le_refl
  le_trans := fun _ _ _ => Int32.le_trans
  le_antisymm := fun _ _ => Int32.le_antisymm
  le_total := Int32.le_total
  lt_iff_le_not_ge := fun x y => by
    rw [Int32.lt_iff_toInt_lt, Int32.le_iff_toInt_le, Int32.le_iff_toInt_le]
    exact Int.lt_iff_le_and_not_ge
  toDecidableLE := inferInstance
  toDecidableLT := inferInstance
  toDecidableEq := inferInstance

/-! ## Between `int` and `size_t` -/

/-- An `int` converted to `size_t`. -/
def toSize (i : Int32) : ℕ := i.toInt64.toUInt64.toNat

/-- A `size_t` converted to `int`. -/
def ofSize (n : ℕ) : Int32 := Int32.ofInt n

/-- A small size is the same `int`. -/
theorem toInt_ofSize {n : ℕ} (h : n < 2 ^ 31) : (ofSize n).toInt = n :=
  toInt_ofInt_of_fits ⟨by omega, by omega⟩

/-- An `int` that is not negative is the same size. -/
theorem toSize_of_toInt {i : Int32} {n : ℕ} (h : i.toInt = n) : toSize i = n := by
  have hpos : (0 : Int64) ≤ i.toInt64 := by
    rw [Int64.le_iff_toInt_le, Int32.toInt_toInt64, h]
    exact Int.natCast_nonneg n
  rw [toSize, Int64.toNat_toUInt64_of_le hpos, Int64.toNatClampNeg, Int32.toInt_toInt64, h]
  exact Int.toNat_natCast n

/-- There and back, of a small size. -/
theorem toSize_ofSize {n : ℕ} (h : n < 2 ^ 31) : toSize (ofSize n) = n :=
  toSize_of_toInt (toInt_ofSize h)

namespace Prog

variable {σ : Type} {s : σ} {Q : Int32 → σ → Prop} {n : ℤ}

/-- The value of an `int` expression whose exact value is `n`. -/
def signed (n : ℤ) : Prog σ Int32 :=
  if FitsInt n then pure (Int32.ofInt n) else fault .intOverflow

/-- Signed arithmetic goes on with the value if it fits, and is a fault
otherwise. -/
@[simp] theorem wp_signed : wp (signed n) Q s ↔ FitsInt n ∧ Q (Int32.ofInt n) s := by
  rw [signed, wp_ite]
  by_cases hn : FitsInt n <;> simp [hn]

end Prog

end BlocTest
