import BlocTest.ReverseInteger.ReverseNum
/-!
# Where the Python and the C++ reversal agree

From zero on the two roundings are the same and so are the two recursions,
call for call. Below zero the rounding towards minus infinity never gets to
zero: the quotient of a negative number is negative, and the Python
recursion does not end.
-/

namespace BlocTest

namespace ReverseInteger

open Prog IntType
open Nat (digits)

variable {x res : ℤ} {fuel : ℕ}

/-- **From zero on the recursions are one.** -/
theorem reverse_eq_reverseNum (hx : 0 ≤ x) : reverse fuel x res = reverseNum fuel x res := by
  induction fuel generalizing x res with
  | zero => rw [reverse, reverseNum]
  | succ fuel ih =>
      rw [reverse, reverseNum, toInt_int]
      by_cases hzero : x = 0
      · rw [if_pos hzero, if_pos hzero]
      · have hdiv : x.fdiv 10 = x.tdiv 10 := Int.fdiv_eq_tdiv_of_nonneg hx (by omega)
        have hmod : x.fmod 10 = x.tmod 10 := Int.fmod_eq_tmod_of_nonneg hx (by omega)
        have hrest : 0 ≤ x.tdiv 10 := Int.tdiv_nonneg hx (by omega)
        rw [if_neg hzero, if_neg hzero, hdiv, hmod, ih hrest]
        simp only [arith_int, pure_bind, toInt_int]

/-- **Below zero the Python recursion never returns**, whatever its depth:
it stays below zero. -/
theorem not_wp_reverse {Q : ℤ → Unit → Prop} (hx : x < 0) : ¬ wp (reverse fuel x res) Q () := by
  induction fuel generalizing x res with
  | zero => exact wp_fault
  | succ fuel ih =>
      have hrest : x.fdiv 10 < 0 := Int.fdiv_neg_of_neg_of_pos hx (by omega)
      rw [reverse, if_neg (by omega)]
      exact ih hrest

/-- **The two reversals agree exactly** from zero on: the Python one then
returns, and returns the value the C++ one has over exact integers. -/
theorem reverse_agree_iff (x : ℤ) (fuel : ℕ) (hf : (digits 10 x.natAbs).length < fuel) :
    (∃ y, reverse fuel x 0 () = .ok (y, ()) ∧ reverseNum fuel x 0 () = .ok (y, ())) ↔ 0 ≤ x := by
  constructor
  · intro h
    obtain ⟨y, hrun, -⟩ := h
    by_contra hneg
    exact not_wp_reverse (Q := fun _ _ => True) (by omega) ⟨y, (), hrun, trivial⟩
  · intro hx
    refine ⟨signedReversal x, ?_, reverseNum_exact hf⟩
    rw [reverse_eq_reverseNum hx]
    exact reverseNum_exact hf

theorem reverse_agree_iff_987 :
    (∃ y, reverse 4 987 0 () = .ok (y, ()) ∧ reverseNum 4 (987 : ℤ) 0 () = .ok (y, ())) ↔
      (0 : ℤ) ≤ 987 :=
  reverse_agree_iff 987 4 (by norm_num)

/-- On the number the Python `main` asks for, the C++ recursion returns and
the Python one does not. -/
theorem reverse_disagree :
    reverseNum 4 (-987 : ℤ) 0 () = .ok (-789, ()) ∧
      ¬ ∃ fuel y, reverse fuel (-987) 0 () = .ok (y, ()) := by
  refine ⟨by decide, fun h => ?_⟩
  obtain ⟨fuel, y, hrun⟩ := h
  exact not_wp_reverse (Q := fun _ _ => True) (by omega) ⟨y, (), hrun, trivial⟩

end ReverseInteger

end BlocTest
