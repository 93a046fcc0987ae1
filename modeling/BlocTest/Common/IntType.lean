import BlocTest.Common.CInt
/-!
# Arithmetic over an integer type

The same text computes with the `int`s of the machine and, read as a
statement about numbers, with exact integers. `IntType ι` is what the two
readings share: each value of `ι` stands for an integer, and `ι` holds the
integers of an interval around zero. A function written over `ι` is one
definition with both meanings, and a fact that names the range it needs
holds of both.
-/

namespace BlocTest

/-- A type of signed integers. -/
class IntType (ι : Type) where
  /-- The integer a value stands for. -/
  toInt : ι → ℤ
  /-- The conversion from an integer. -/
  ofInt : ℤ → ι
  /-- The conversion to `size_t`. -/
  toIndex : ι → ℕ
  /-- The integers the type holds. -/
  Fits : ℤ → Prop
  decFits : DecidablePred Fits
  toInt_ofInt : ∀ {n : ℤ}, Fits n → toInt (ofInt n) = n
  ofInt_toInt : ∀ x : ι, ofInt (toInt x) = x
  fits_toInt : ∀ x : ι, Fits (toInt x)
  fits_zero : Fits 0
  fits_between : ∀ {a b n : ℤ}, Fits a → Fits b → a ≤ n → n ≤ b → Fits n
  toIndex_of_toInt : ∀ {x : ι} {n : ℕ}, toInt x = n → toIndex x = n

/-- The `int`s of the machine. -/
instance : IntType Int32 where
  toInt := Int32.toInt
  ofInt := Int32.ofInt
  toIndex := toSize
  Fits := FitsInt
  decFits := inferInstance
  toInt_ofInt := toInt_ofInt_of_fits
  ofInt_toInt := Int32.ofInt_toInt
  fits_toInt := fun x => ⟨x.le_toInt, x.toInt_lt⟩
  fits_zero := by decide
  fits_between := fun ha hb hle hle' => ⟨Int.le_trans ha.1 hle, Int.lt_of_le_of_lt hle' hb.2⟩
  toIndex_of_toInt := toSize_of_toInt

/-- Exact integers. -/
instance : IntType ℤ where
  toInt := id
  ofInt := id
  toIndex := Int.toNat
  Fits := fun _ => True
  decFits := fun _ => .isTrue trivial
  toInt_ofInt := fun _ => rfl
  ofInt_toInt := fun _ => rfl
  fits_toInt := fun _ => trivial
  fits_zero := trivial
  fits_between := fun _ _ _ _ => trivial
  toIndex_of_toInt := by rintro _ n rfl; exact Int.toNat_natCast n

namespace IntType

variable {ι : Type} [IntType ι] {x : ι} {m n : ℤ}

instance (n : ℤ) : Decidable (Fits ι n) := decFits n

@[simp] theorem toInt_ofInt_zero : toInt (ofInt 0 : ι) = 0 := toInt_ofInt fits_zero

/-- What lies between zero and an integer the type holds. -/
theorem fits_of_nonneg (hm : Fits ι m) (hn : 0 ≤ n) (hle : n ≤ m) : Fits ι n :=
  fits_between fits_zero hm hn hle

/-- Between a value that fits and zero all values fit. -/
theorem fits_of_nonpos (hm : Fits ι m) (hle : m ≤ n) (hn : n ≤ 0) : Fits ι n :=
  fits_between hm fits_zero hle hn

/-- So do the numbers below one that fits. -/
theorem fits_natCast {m n : ℕ} (hm : Fits ι m) (hle : n ≤ m) : Fits ι n :=
  fits_of_nonneg hm (Int.natCast_nonneg n) (Int.ofNat_le.2 hle)

/-- What a value is below, when the type does not hold it. -/
theorem toInt_lt_of_not_fits (hn : ¬ Fits ι n) (hx : 0 ≤ n) : toInt x < n := by
  by_contra hle
  exact hn (fits_of_nonneg (fits_toInt x) hx (by omega))

theorem fits_int32 : Fits Int32 n ↔ FitsInt n := Iff.rfl

@[simp] theorem toInt_int32 {x : Int32} : toInt x = x.toInt := rfl

@[simp] theorem toInt_int {x : ℤ} : toInt x = x := rfl

theorem fits_int : Fits ℤ n := trivial

end IntType

namespace Prog

open IntType

variable {ι σ : Type} [IntType ι] {s : σ} {Q : ι → σ → Prop} {n : ℤ} {x y : ι}

/-- The value of an integer expression whose exact value is `n`. -/
def arith (n : ℤ) : Prog σ ι :=
  if Fits ι n then pure (ofInt n) else fault .intOverflow

/-- Arithmetic goes on with the value if it fits the type. -/
@[simp] theorem wp_arith : wp (arith n) Q s ↔ Fits ι n ∧ Q (ofInt n) s := by
  rw [arith, wp_ite]
  by_cases hn : Fits ι n <;> simp [hn]

/-- Exact integers have every value. -/
theorem arith_int : (arith n : Prog σ ℤ) = pure n := if_pos fits_int

/-- The quotient `x / y`, rounded towards zero. -/
def quotient (x y : ι) : Prog σ ι :=
  if toInt y = 0 then fault .divByZero else arith ((toInt x).tdiv (toInt y))

/-- A quotient is a fault where the divisor is zero or the value does not fit.
-/
@[simp] theorem wp_quotient : wp (quotient x y) Q s ↔
    toInt y ≠ 0 ∧ Fits ι ((toInt x).tdiv (toInt y)) ∧
      Q (ofInt ((toInt x).tdiv (toInt y))) s := by
  rw [quotient, wp_ite]
  by_cases hy : toInt y = 0 <;> simp [hy]

end Prog

end BlocTest
