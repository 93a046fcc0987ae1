import BlocTest.ReverseInteger.Helpers.Reversal
/-!
# `reverse_num`: overflow, and the round trip

In an `int` the recursion returns the reversal when that is an `int`. Nine
digits always are; of ten, the last ones decide, in lexicographic order
against the digits of the largest `int`. Over exact integers nothing
overflows, and reversing twice loses the zeros at the end and nothing else.
-/

namespace BlocTest

namespace ReverseInteger

open Prog IntType
open Nat (digits)

variable {n : ℕ}

/-! ## In an `int` -/

/-- No magnitude of an `int` has the reversal `2 ^ 31`, so the one negative
number without an opposite is never reached. -/
theorem reversal_ne (hn : n ≤ 2 ^ 31) : reversal 10 n ≠ 2 ^ 31 := by
  intro heq
  have hle : reversal 10 (reversal 10 n) ≤ n := reversal_reversal_le (by omega)
  have htwice : reversal 10 (2 ^ 31) = 8463847412 := by
    unfold reversal
    norm_num [Nat.ofDigits]
  rw [heq, htwice] at hle
  omega

theorem natAbs_toInt_le (x : Int32) : x.toInt.natAbs ≤ 2 ^ 31 := by
  have hle := x.le_toInt
  have hlt := x.toInt_lt
  omega

theorem fits_signedReversal_iff {x : Int32} :
    Fits Int32 (signedReversal x.toInt) ↔ reversal 10 x.toInt.natAbs ≤ 2147483647 := by
  obtain ⟨σ, hσ, -, hrev⟩ := exists_sign x.toInt
  have hne := reversal_ne (natAbs_toInt_le x)
  rw [fits_int32, FitsInt, hrev]
  rcases hσ with hσ | hσ <;> rw [hσ] <;> omega

/-- Which reversals an `int` holds: of nine digits all, of ten those whose
digits, last digit first, come no later than `2147483647`. -/
theorem reversal_le_max_iff (hn : n ≤ 2 ^ 31) : reversal 10 n ≤ 2147483647 ↔
    (digits 10 n).length < 10 ∨ digits 10 n ≤ [2, 1, 4, 7, 4, 8, 3, 6, 4, 7] := by
  have hlen : (digits 10 n).length ≤ [1, 4, 7, 4, 8, 3, 6, 4, 7].length + 1 :=
    (Nat.digits_length_le_iff (by omega) n).2 (by
      simp only [List.length_cons, List.length_nil]
      omega)
  have hmax : Nat.ofDigits 10 [2, 1, 4, 7, 4, 8, 3, 6, 4, 7].reverse = 2147483647 := by
    norm_num [Nat.ofDigits]
  rw [← hmax]
  exact reversal_le_iff (by omega) hlen (by decide) (by omega)

/-- **`reverse_num` reverses exactly when** `x` has at most nine digits, or
its ten digits, last digit first, come lexicographically no later than
`2147483647`; then no value on the way overflows. -/
theorem reverseNum_reverses_iff (x : Int32) (fuel : ℕ) (hf : 10 < fuel) :
    (∃ r, reverseNum fuel x 0 () = .ok (r, ()) ∧
      r.toInt = x.toInt.sign * reversal 10 x.toInt.natAbs) ↔
    (digits 10 x.toInt.natAbs).length < 10 ∨
      digits 10 x.toInt.natAbs ≤ [2, 1, 4, 7, 4, 8, 3, 6, 4, 7] := by
  have hlen : (digits 10 x.toInt.natAbs).length < fuel := by
    have hle := (Nat.digits_length_le_iff (b := 10) (k := 10) (by omega) x.toInt.natAbs).2
      (Nat.lt_of_le_of_lt (natAbs_toInt_le x) (by omega))
    omega
  have hzero : (0 : Int32) = ofInt 0 := rfl
  rw [← reversal_le_max_iff (natAbs_toInt_le x), ← fits_signedReversal_iff, hzero]
  exact (exists_reverseNum_iff x fuel).trans (and_iff_right hlen)

/-- The digits of `1463847412`, last digit first, are those of the largest
`int` but for the last. -/
theorem reverseNum_reverses_iff_largest :
    (∃ r, reverseNum 11 (1463847412 : Int32) 0 () = .ok (r, ()) ∧
      r.toInt = (1463847412 : Int32).toInt.sign * reversal 10 (1463847412 : Int32).toInt.natAbs) ↔
    (digits 10 (1463847412 : Int32).toInt.natAbs).length < 10 ∨
      digits 10 (1463847412 : Int32).toInt.natAbs ≤ [2, 1, 4, 7, 4, 8, 3, 6, 4, 7] :=
  reverseNum_reverses_iff 1463847412 11 (by omega)

/-- The largest `int` has no reversal in an `int`. -/
theorem reverseNum_overflow : reverseNum 11 (2147483647 : Int32) 0 () = .error .intOverflow := by
  decide

/-! ## Over exact integers -/

theorem reverseNum_exact {x : ℤ} {fuel : ℕ} (hf : (digits 10 x.natAbs).length < fuel) :
    reverseNum fuel x 0 () = .ok (signedReversal x, ()) :=
  eq_of_wp (wp_reverseNum_zero.2 ⟨hf, fits_int, rfl, rfl⟩)

/-- The reversal has no more digits than the number. -/
theorem length_digits_reversal_le : (digits 10 (reversal 10 n)).length ≤ (digits 10 n).length := by
  rw [Nat.digits_length_le_iff (by omega)]
  exact ofDigits_reverse_lt_pow (by omega) fun d hd => Nat.digits_lt_base (by omega) hd

/-- **Reversing twice.** Over exact integers `reverse_num` returns, with the
sign of `x`; reversing its result gives `x` without the zeros at its end,
and so `x` itself exactly when `x` is zero or does not end in a zero. -/
theorem reverseNum_twice (x : ℤ) (fuel : ℕ) (hf : (digits 10 x.natAbs).length < fuel) :
    ∃ y z : ℤ, reverseNum fuel x 0 () = .ok (y, ()) ∧ y.sign = x.sign ∧
      reverseNum fuel y 0 () = .ok (z, ()) ∧
      (∃ k, x = z * 10 ^ k) ∧ (x ≠ 0 → ¬ 10 ∣ z) ∧ (z = x ↔ x = 0 ∨ x.tmod 10 ≠ 0) := by
  have hlen : (digits 10 (signedReversal x).natAbs).length < fuel := by
    rw [natAbs_signedReversal]
    exact Nat.lt_of_le_of_lt length_digits_reversal_le hf
  refine ⟨_, _, reverseNum_exact hf, sign_signedReversal x, reverseNum_exact hlen, ?_, ?_,
    signedReversal_twice_eq_iff⟩
  · rcases eq_or_ne x 0 with hzero | hne
    · rw [hzero]
      exact ⟨0, rfl⟩
    · obtain ⟨k, hsplit, -⟩ := exists_signedReversal_twice hne
      exact ⟨k, hsplit⟩
  · intro hne
    obtain ⟨-, -, hdvd⟩ := exists_signedReversal_twice hne
    exact hdvd

theorem reverseNum_twice_zeros :
    ∃ y z : ℤ, reverseNum 5 (-9870 : ℤ) 0 () = .ok (y, ()) ∧ y.sign = (-9870 : ℤ).sign ∧
      reverseNum 5 y 0 () = .ok (z, ()) ∧
      (∃ k, (-9870 : ℤ) = z * 10 ^ k) ∧ ((-9870 : ℤ) ≠ 0 → ¬ 10 ∣ z) ∧
      (z = -9870 ↔ (-9870 : ℤ) = 0 ∨ (-9870 : ℤ).tmod 10 ≠ 0) :=
  reverseNum_twice (-9870) 5 (by norm_num)

end ReverseInteger

end BlocTest
