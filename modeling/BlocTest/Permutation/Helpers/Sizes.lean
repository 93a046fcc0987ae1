import BlocTest.Common.Enumerate
import BlocTest.Permutation.Model.Daima
/-!
# The size computations

When `factorial`, `calculate` and the size of the array have a value, and
which. The factorial has one exactly for the positive arguments whose
factorial the type holds: the recursion stops at one only, so below one it
never returns.
-/

namespace BlocTest

namespace Permutation

open Prog IntType
open scoped Nat

variable {ι : Type} [IntType ι] {x n : ι} {m k fuel : ℕ} {Q : ι → Unit → Prop}

/-- **Below one the recursion has no end.** -/
theorem not_wp_factorial (hx : toInt x ≤ 0) : ¬ wp (factorial fuel x) Q () := by
  induction fuel generalizing x Q with
  | zero => exact wp_fault
  | succ fuel ih =>
      rw [factorial, if_neg (by omega)]
      simp only [wp_bind, wp_arith]
      intro h
      obtain ⟨hfit, hrec⟩ := h
      refine ih ?_ hrec
      rw [toInt_ofInt hfit]
      omega

/-- **When the factorial has a value.** -/
theorem wp_factorial (hx : toInt x = m) : wp (factorial fuel x) Q () ↔
    1 ≤ m ∧ m ≤ fuel ∧ Fits ι (m ! : ℕ) ∧ Q (ofInt (m ! : ℕ)) () := by
  induction fuel generalizing x m Q with
  | zero =>
      refine iff_of_false wp_fault fun h => ?_
      omega
  | succ fuel ih =>
      rcases Nat.lt_trichotomy m 1 with hm | rfl | hm
      · refine iff_of_false (not_wp_factorial (by omega)) fun h => ?_
        omega
      · have hone : Fits ι ((1 ! : ℕ) : ℤ) := by
          rw [Nat.factorial_one, ← hx]
          exact fits_toInt x
        rw [factorial, if_pos (by omega), wp_pure]
        exact ⟨fun h => ⟨Nat.le_refl 1, by omega, hone, h⟩, fun h => h.2.2.2⟩
      · obtain ⟨m, rfl⟩ : ∃ j, m = j + 2 := ⟨m - 2, by omega⟩
        have hfit : Fits ι (toInt x - 1) := fits_of_nonneg (fits_toInt x) (by omega) (by omega)
        have hpred : toInt (ofInt (toInt x - 1) : ι) = (m + 1 : ℕ) := by
          rw [toInt_ofInt hfit]
          omega
        have hmul : toInt x * ((m + 1)! : ℕ) = ((m + 2)! : ℕ) := by
          rw [hx, Nat.factorial_succ (m + 1), Int.natCast_mul]
        rw [factorial, if_neg (by omega)]
        simp only [wp_bind, wp_arith]
        rw [and_iff_right hfit, ih hpred]
        constructor
        · intro h
          obtain ⟨-, hle, hrec, hres, hQ⟩ := h
          rw [toInt_ofInt hrec, hmul] at hres hQ
          exact ⟨by omega, by omega, hres, hQ⟩
        · intro h
          obtain ⟨-, hle, hres, hQ⟩ := h
          have hrec : Fits ι ((m + 1)! : ℕ) :=
            fits_natCast hres (Nat.factorial_le (Nat.le_succ _))
          rw [toInt_ofInt hrec, hmul]
          exact ⟨by omega, by omega, hrec, hres, hQ⟩

/-- A falling factorial divides the factorial, so it fits where that does. -/
theorem fits_descFactorial (hm : Fits ι (m ! : ℕ)) (hk : k ≤ m) :
    Fits ι (m.descFactorial k : ℕ) := by
  have hdvd := Dvd.intro_left _ (Nat.factorial_mul_descFactorial hk)
  exact fits_natCast hm (Nat.le_of_dvd (Nat.factorial_pos m) hdvd)

/-- Every quotient of factorials is exact, and a falling factorial. -/
theorem tdiv_factorial (hk : k ≤ m) :
    ((m ! : ℕ) : ℤ).tdiv ((m - k)! : ℕ) = (m.descFactorial k : ℕ) := by
  rw [← Nat.factorial_mul_descFactorial hk, Int.natCast_mul]
  exact Int.mul_tdiv_cancel_left _ (Int.natCast_ne_zero.2 (Nat.factorial_ne_zero _))

/-- **When the array has a size**: `n` is below `m`, and the factorial of
`m` has a value. -/
theorem wp_lineCount (hx : toInt x = m) (hn : toInt n = k) (hk : k ≤ m) :
    wp (lineCount fuel x n) Q () ↔
      k < m ∧ m ≤ fuel ∧ Fits ι (m ! : ℕ) ∧ Q (ofInt (m.descFactorial k : ℕ)) () := by
  have hfit : Fits ι (toInt x - toInt n) := fits_of_nonneg (fits_toInt x) (by omega) (by omega)
  have hsub : toInt (ofInt (toInt x - toInt n) : ι) = (m - k : ℕ) := by
    rw [toInt_ofInt hfit]
    omega
  simp only [lineCount, wp_bind, wp_arith, wp_quotient, wp_factorial hx, wp_factorial hsub]
  rw [and_iff_right hfit]
  constructor
  · intro h
    obtain ⟨h1, hle, hm, h2, -, hg, -, -, hQ⟩ := h
    rw [toInt_ofInt hm, toInt_ofInt hg, tdiv_factorial hk] at hQ
    exact ⟨by omega, hle, hm, hQ⟩
  · intro h
    obtain ⟨hlt, hle, hm, hQ⟩ := h
    have hg : Fits ι ((m - k)! : ℕ) := fits_natCast hm (Nat.factorial_le (Nat.sub_le m k))
    rw [toInt_ofInt hm, toInt_ofInt hg, tdiv_factorial hk]
    exact ⟨by omega, hle, hm, by omega, by omega, hg,
      Int.natCast_ne_zero.2 (Nat.factorial_ne_zero _), fits_descFactorial hm hk, hQ⟩

/-- An array that has a size has at least one element per line: `n` is below
`m`, and the factorial of `m` has a value. -/
theorem of_wp_lineCount (h : wp (lineCount fuel x n) Q ()) :
    toInt n < toInt x ∧ Fits ι ((toInt x).toNat ! : ℕ) := by
  simp only [lineCount, wp_bind, wp_arith] at h
  have hpos : 0 ≤ toInt x := by
    by_contra hneg
    exact not_wp_factorial (by omega) h
  obtain ⟨-, -, hm, hsub, hg⟩ := (wp_factorial (Int.toNat_of_nonneg hpos).symm).1 h
  refine ⟨?_, hm⟩
  by_contra hge
  refine not_wp_factorial ?_ hg
  rw [toInt_ofInt hsub]
  omega

/-- The round of `calculate` for `j` adds the arrangements of `j + 1`
elements. -/
theorem wp_calculateRound {R : (ι × ι) ⊕ ι → Unit → Prop} {sum i : ι} {j : ℕ} (hx : toInt x = m)
    (hi : toInt i = j) (hin : toInt i < toInt n) (hj : j + 1 < m) (hm : Fits ι (m ! : ℕ))
    (hsum : Fits ι (toInt sum + (m.descFactorial (j + 1) : ℕ))) (hf : m ≤ fuel) :
    wp (calculateRound fuel x n (sum, i)) R () ↔ R (.inl
      (ofInt (toInt sum + (m.descFactorial (j + 1) : ℕ)), ofInt (toInt i + 1))) () := by
  have hpred : Fits ι (toInt x - 1) := fits_of_nonneg (fits_toInt x) (by omega) (by omega)
  have hpred' : toInt (ofInt (toInt x - 1) : ι) = toInt x - 1 := toInt_ofInt hpred
  have hsub : Fits ι (toInt x - 1 - toInt i) := fits_of_nonneg hpred (by omega) (by omega)
  have hsub' : toInt (ofInt (toInt x - 1 - toInt i) : ι) = (m - (j + 1) : ℕ) := by
    rw [toInt_ofInt hsub]
    omega
  have hnext : Fits ι (toInt i + 1) := fits_of_nonneg (fits_toInt n) (by omega) (by omega)
  have hg : Fits ι ((m - (j + 1))! : ℕ) := fits_natCast hm (Nat.factorial_le (Nat.sub_le m _))
  have hq : Fits ι (m.descFactorial (j + 1) : ℕ) := fits_descFactorial hm hj.le
  rw [calculateRound, if_pos hin]
  simp only [wp_bind, wp_arith, wp_quotient, wp_pure, wp_factorial hx, hpred', wp_factorial hsub',
    toInt_ofInt hm, toInt_ofInt hg, tdiv_factorial hj.le, toInt_ofInt hq]
  constructor
  · intro h
    obtain ⟨-, -, -, -, -, -, -, -, -, -, -, -, hR⟩ := h
    exact hR
  · intro h
    exact ⟨by omega, hf, hm, hpred, hsub, by omega, by omega, hg,
      Int.natCast_ne_zero.2 (Nat.factorial_ne_zero _), hq, hsum, hnext, h⟩

/-- How many arrangements there are of one element, of two, and so on up to
`k`. -/
def arrangementsUpTo (m k : ℕ) : ℕ := ∑ i ∈ Finset.range k, m.descFactorial (i + 1)

theorem arrangementsUpTo_succ :
    arrangementsUpTo m (k + 1) = arrangementsUpTo m k + m.descFactorial (k + 1) :=
  Finset.sum_range_succ _ k

theorem arrangementsUpTo_mono (m : ℕ) : Monotone (arrangementsUpTo m) := by
  refine monotone_nat_of_le_succ fun k => ?_
  rw [arrangementsUpTo_succ]
  exact Nat.le_add_right _ _

/-- **What `calculate` computes**, when the type holds it. -/
theorem wp_calculate (hx : toInt x = m) (hn : toInt n = k) (hk : k < m) (hm : Fits ι (m ! : ℕ))
    (hfit : Fits ι (arrangementsUpTo m k : ℕ)) (hf : m ≤ fuel) :
    wp (calculate fuel x n) (fun r _ => r = ofInt (arrangementsUpTo m k : ℕ)) () := by
  refine wp_loop (fun r (b : ι × ι) _ => ∃ j : ℕ, r + j = k ∧ toInt b.2 = j ∧
    b.1 = ofInt (arrangementsUpTo m j : ℕ)) ?_ fuel k (ofInt 0, ofInt 0) () (by omega)
    ⟨0, rfl, toInt_ofInt_zero, rfl⟩
  rintro r ⟨sum, i⟩ _ ⟨j, hr, hi, hsum⟩
  change toInt i = j at hi
  change sum = _ at hsum
  by_cases hlt : toInt i < toInt n
  · have hmono := arrangementsUpTo_mono m (show j + 1 ≤ k by omega)
    rw [arrangementsUpTo_succ] at hmono
    have hsum' : toInt sum = (arrangementsUpTo m j : ℕ) := by
      rw [hsum, toInt_ofInt (fits_natCast hfit (by omega))]
    have hadd : Fits ι (toInt sum + (m.descFactorial (j + 1) : ℕ)) :=
      fits_of_nonneg hfit (by omega) (by omega)
    have hnext : Fits ι (toInt i + 1) := fits_of_nonneg (fits_toInt n) (by omega) (by omega)
    rw [wp_calculateRound hx hi hlt (by omega) hm hadd hf, round_inl]
    refine ⟨r - 1, by omega, j + 1, by omega, (toInt_ofInt hnext).trans (by omega), ?_⟩
    rw [arrangementsUpTo_succ, hsum', Int.natCast_add]
  · obtain rfl : j = k := by omega
    rw [calculateRound, if_neg hlt]
    exact wp_pure.2 hsum

end Permutation

end BlocTest
