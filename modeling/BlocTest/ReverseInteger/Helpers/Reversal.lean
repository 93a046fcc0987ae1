import BlocTest.Common.Reversal
import BlocTest.ReverseInteger.Model.ReverseInteger
/-!
# The recursion of `reverse_num`

The recursion is Horner's rule on the magnitude, with the sign of `x` on
every digit. Its values only grow away from zero, so all of them fit when
the last one does, and the last one is the signed reversal.
-/

namespace BlocTest

namespace ReverseInteger

open Prog IntType
open Nat (digits)

variable {ι : Type} [IntType ι] {x res : ι} {fuel n r : ℕ} {σ : ℤ}

/-- The decimal reversal of an integer, with its sign. -/
def signedReversal (n : ℤ) : ℤ := n.sign * reversal 10 n.natAbs

theorem tdiv_ten (hσ : σ = 1 ∨ σ = -1) : (σ * n).tdiv 10 = σ * (n / 10 : ℕ) := by
  rcases hσ with hσ | hσ
  · rw [hσ, one_mul, one_mul]
    rfl
  · rw [hσ, neg_one_mul, neg_one_mul, Int.neg_tdiv]
    rfl

theorem tmod_ten (hσ : σ = 1 ∨ σ = -1) : (σ * n).tmod 10 = σ * (n % 10 : ℕ) := by
  rcases hσ with hσ | hσ
  · rw [hσ, one_mul, one_mul]
    rfl
  · rw [hσ, neg_one_mul, neg_one_mul, Int.neg_tmod]
    rfl

/-- What is closer to zero fits, when the further one does. -/
theorem fits_of_le (hσ : σ = 1 ∨ σ = -1) {m : ℕ} (hm : Fits ι (σ * m)) (hle : n ≤ m) :
    Fits ι (σ * n) := by
  rcases hσ with hσ | hσ
  · rw [hσ, one_mul] at hm ⊢
    exact fits_natCast hm hle
  · rw [hσ, neg_one_mul] at hm ⊢
    exact fits_of_nonpos hm (by omega) (by omega)

/-- **One call**: the last digit of `x` goes to the end of `res`, which has
to fit. -/
theorem wp_reverseNum_succ (hσ : σ = 1 ∨ σ = -1) (hx : toInt x = σ * n) (hpos : 0 < n)
    (hr : toInt res = σ * r) {Q : ι → Unit → Prop} :
    wp (reverseNum (fuel + 1) x res) Q () ↔ Fits ι (σ * (r * 10 + n % 10 : ℕ)) ∧
      wp (reverseNum fuel (ofInt (σ * (n / 10 : ℕ))) (ofInt (σ * (r * 10 + n % 10 : ℕ)))) Q () := by
  have hne : toInt x ≠ 0 := by
    rw [hx]
    exact mul_ne_zero (by omega) (by omega)
  have hfit : Fits ι (σ * n) := hx ▸ fits_toInt x
  have hrest : Fits ι (σ * (n / 10 : ℕ)) := fits_of_le hσ hfit (Nat.div_le_self n 10)
  have hdigit : Fits ι (σ * (n % 10 : ℕ)) := fits_of_le hσ hfit (Nat.mod_le n 10)
  have hshift : σ * r * 10 = σ * (r * 10 : ℕ) := by
    rw [Nat.cast_mul, mul_assoc]
    rfl
  have hnext : σ * (r * 10 : ℕ) + σ * (n % 10 : ℕ) = σ * (r * 10 + n % 10 : ℕ) := by
    rw [Nat.cast_add, mul_add]
  rw [reverseNum, if_neg hne]
  simp only [wp_bind, wp_arith]
  rw [hx, hr, tdiv_ten hσ, tmod_ten hσ, hshift, and_iff_right hrest, and_iff_right hdigit,
    toInt_ofInt hdigit]
  constructor
  · intro h
    obtain ⟨hs, hrun⟩ := h
    rwa [toInt_ofInt hs, hnext] at hrun
  · intro h
    -- the shifted `res` is no further from zero than the sum
    have hs : Fits ι (σ * (r * 10 : ℕ)) := fits_of_le hσ h.1 (Nat.le_add_right _ _)
    rw [toInt_ofInt hs, hnext]
    exact ⟨hs, h⟩

/-- **The recursion is Horner's rule.** From `x` and `res` of one sign it
returns exactly when the value it ends with fits, and returns that value. -/
theorem wp_reverseNum (hσ : σ = 1 ∨ σ = -1) (hx : toInt x = σ * n) (hr : toInt res = σ * r)
    {Q : ι → Unit → Prop} :
    wp (reverseNum fuel x res) Q () ↔ (digits 10 n).length < fuel ∧
      Fits ι (σ * reverseOnto 10 n r) ∧ Q (ofInt (σ * reverseOnto 10 n r)) () := by
  induction fuel generalizing x res n r with
  | zero =>
      rw [reverseNum]
      exact iff_of_false wp_fault fun h => Nat.not_lt_zero _ h.1
  | succ fuel ih =>
      rcases Nat.eq_zero_or_pos n with hzero | hpos
      · subst hzero
        rw [Nat.cast_zero, mul_zero] at hx
        rw [reverseNum, if_pos hx, wp_pure, reverseOnto_zero, ← hr, ofInt_toInt, Nat.digits_zero,
          List.length_nil, and_iff_right (Nat.succ_pos _), and_iff_right (fits_toInt _)]
      · have hrest : Fits ι (σ * (n / 10 : ℕ)) :=
          fits_of_le hσ (hx ▸ fits_toInt x) (Nat.div_le_self n 10)
        have hle : r * 10 + n % 10 ≤ reverseOnto 10 (n / 10) (r * 10 + n % 10) :=
          le_reverseOnto (by omega)
        rw [wp_reverseNum_succ hσ hx hpos hr, reverseOnto_step (by omega) hpos,
          Nat.digits_def' (by omega) hpos, List.length_cons, Nat.add_lt_add_iff_right]
        constructor
        · intro h
          obtain ⟨hnext, hrun⟩ := h
          exact (ih (toInt_ofInt hrest) (toInt_ofInt hnext)).1 hrun
        · intro h
          have hnext := fits_of_le hσ h.2.1 hle
          exact ⟨hnext, (ih (toInt_ofInt hrest) (toInt_ofInt hnext)).2 h⟩

/-! ## The signed reversal -/

/-- The signed reversal in the terms of a sign that is never zero. -/
theorem exists_sign (n : ℤ) : ∃ σ : ℤ, (σ = 1 ∨ σ = -1) ∧ n = σ * n.natAbs ∧
    signedReversal n = σ * reversal 10 n.natAbs := by
  unfold signedReversal
  rcases lt_trichotomy n 0 with hneg | hzero | hpos
  · refine ⟨-1, .inr rfl, by omega, ?_⟩
    rw [Int.sign_eq_neg_one_of_neg hneg]
  · subst hzero
    exact ⟨1, .inl rfl, by simp, by simp⟩
  · refine ⟨1, .inl rfl, by omega, ?_⟩
    rw [Int.sign_eq_one_of_pos hpos]

/-- **A call with `res` zero** returns exactly when the signed reversal
fits, and returns it. -/
theorem wp_reverseNum_zero {Q : ι → Unit → Prop} :
    wp (reverseNum fuel x (ofInt 0)) Q () ↔ (digits 10 (toInt x).natAbs).length < fuel ∧
      Fits ι (signedReversal (toInt x)) ∧ Q (ofInt (signedReversal (toInt x))) () := by
  obtain ⟨σ, hσ, hx, hrev⟩ := exists_sign (toInt x)
  have hr : toInt (ofInt 0 : ι) = σ * (0 : ℕ) := by
    rw [toInt_ofInt_zero, Nat.cast_zero, mul_zero]
  rw [wp_reverseNum hσ hx hr, reverseOnto_zero_right, hrev]

theorem exists_reverseNum_iff (x : ι) (fuel : ℕ) :
    (∃ r, reverseNum fuel x (ofInt 0) () = .ok (r, ()) ∧ toInt r = signedReversal (toInt x)) ↔
      (digits 10 (toInt x).natAbs).length < fuel ∧ Fits ι (signedReversal (toInt x)) := by
  constructor
  · intro h
    obtain ⟨r, hrun, -⟩ := h
    have hwp : wp (reverseNum fuel x (ofInt 0)) (fun _ _ => True) () := ⟨r, (), hrun, trivial⟩
    obtain ⟨hlen, hfit, -⟩ := wp_reverseNum_zero.1 hwp
    exact ⟨hlen, hfit⟩
  · intro h
    obtain ⟨hlen, hfit⟩ := h
    exact ⟨_, eq_of_wp (wp_reverseNum_zero.2 ⟨hlen, hfit, rfl, rfl⟩), toInt_ofInt hfit⟩

theorem natAbs_signedReversal (n : ℤ) : (signedReversal n).natAbs = reversal 10 n.natAbs := by
  obtain ⟨σ, hσ, -, hrev⟩ := exists_sign n
  have hone : σ.natAbs = 1 := by omega
  rw [hrev, Int.natAbs_mul, hone, one_mul, Int.natAbs_natCast]

theorem sign_signedReversal (n : ℤ) : (signedReversal n).sign = n.sign := by
  rcases eq_or_ne n 0 with hzero | hne
  · rw [hzero]
    rfl
  · have hpos : 0 < reversal 10 n.natAbs := reversal_pos (by omega) (Int.natAbs_pos.2 hne)
    rw [signedReversal, Int.sign_mul, Int.sign_sign, Int.sign_natCast_of_ne_zero hpos.ne', mul_one]

theorem natAbs_signedReversal_twice (n : ℤ) :
    (signedReversal (signedReversal n)).natAbs = reversal 10 (reversal 10 n.natAbs) := by
  rw [natAbs_signedReversal, natAbs_signedReversal]

theorem signedReversal_twice (n : ℤ) :
    signedReversal (signedReversal n) = n.sign * reversal 10 (reversal 10 n.natAbs) := by
  rw [signedReversal, sign_signedReversal, natAbs_signedReversal]

/-- **Reversing twice** takes the zeros off the end. -/
theorem exists_signedReversal_twice {n : ℤ} (hn : n ≠ 0) :
    ∃ k, n = signedReversal (signedReversal n) * 10 ^ k ∧
      ¬ 10 ∣ signedReversal (signedReversal n) := by
  obtain ⟨k, m, hm, hsplit, htwice⟩ :=
    exists_reversal_reversal (b := 10) (by omega) (Int.natAbs_ne_zero.2 hn)
  refine ⟨k, ?_, fun hdvd => hm ?_⟩
  · calc n = n.sign * n.natAbs := (Int.sign_mul_natAbs n).symm
      _ = n.sign * (10 ^ k * m : ℕ) := by rw [hsplit]
      _ = n.sign * m * 10 ^ k := by
          push_cast
          ring
      _ = signedReversal (signedReversal n) * 10 ^ k := by rw [signedReversal_twice, htwice]
  · rw [← htwice, ← natAbs_signedReversal_twice]
    exact Int.natCast_dvd.1 hdvd

/-- **Reversing twice gives the number back** exactly when it does not end
in a zero. -/
theorem signedReversal_twice_eq_iff {n : ℤ} :
    signedReversal (signedReversal n) = n ↔ n = 0 ∨ n.tmod 10 ≠ 0 := by
  rw [Ne, ← Int.dvd_iff_tmod_eq_zero]
  constructor
  · intro h
    refine or_iff_not_imp_left.2 fun hn => ?_
    obtain ⟨-, -, hdvd⟩ := exists_signedReversal_twice hn
    rwa [h] at hdvd
  · intro h
    rcases h with hzero | hdvd
    · rw [hzero]
      rfl
    · have hm : ¬ 10 ∣ n.natAbs := fun h => hdvd (Int.natCast_dvd.2 h)
      rw [signedReversal_twice, reversal_reversal (by omega) hm, Int.sign_mul_natAbs]

end ReverseInteger

end BlocTest
