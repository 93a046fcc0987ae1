import Mathlib.Data.Nat.Digits.Lemmas
import Mathlib.Data.Nat.Factorization.Basic
/-!
# The digits of a number from last to first

`reversal b n` is the number that the digits of `n` in base `b` spell when
they are read from last to first. Horner's rule computes it with an
accumulator, taking the last digit off `n` at each step. Zeros at the end of
`n` are lost, and nothing else is: reversing again gives what is left of `n`
without them. Among numbers with as many digits, the order of the reversals
is the lexicographic order of the digits, last digit first.
-/

namespace BlocTest

open Nat (digits ofDigits)

variable {b n m k acc : ℕ} {xs ys : List ℕ}

/-- The number spelt by the digits of `n` from last to first. -/
def reversal (b n : ℕ) : ℕ := ofDigits b (digits b n).reverse

/-- The number spelt by the digits of `acc` and then those of `n` from last
to first. -/
def reverseOnto (b n acc : ℕ) : ℕ := reversal b n + b ^ (digits b n).length * acc

/-! ## Horner's rule -/

@[simp] theorem reversal_zero : reversal b 0 = 0 := by
  rw [reversal, Nat.digits_zero, List.reverse_nil, Nat.ofDigits_nil]

@[simp] theorem reverseOnto_zero : reverseOnto b 0 acc = acc := by
  rw [reverseOnto, reversal_zero, Nat.digits_zero, List.length_nil, pow_zero, one_mul, zero_add]

/-- The digits put behind nothing. -/
theorem reverseOnto_zero_right : reverseOnto b n 0 = reversal b n := by
  rw [reverseOnto, mul_zero, add_zero]

/-- **One step of Horner's rule**: the last digit of `n` goes to the end of
the accumulator. -/
theorem reverseOnto_step (hb : 1 < b) (hn : 0 < n) :
    reverseOnto b n acc = reverseOnto b (n / b) (acc * b + n % b) := by
  unfold reverseOnto reversal
  rw [Nat.digits_def' hb hn, Nat.ofDigits_reverse_cons, List.length_cons, pow_succ]
  ring

/-- The accumulator only grows. -/
theorem le_reverseOnto (hb : 1 < b) : acc ≤ reverseOnto b n acc := by
  have hpow : 0 < b ^ (digits b n).length := Nat.pow_pos (by omega)
  have hle : acc ≤ b ^ (digits b n).length * acc := Nat.le_mul_of_pos_left acc hpow
  unfold reverseOnto
  omega

/-! ## Reversing twice -/

/-- Zeros at the end are lost. -/
theorem reversal_pow_mul (hb : 1 < b) (hm : 0 < m) : reversal b (b ^ k * m) = reversal b m := by
  unfold reversal
  rw [Nat.digits_base_pow_mul hb hm, List.reverse_append, List.reverse_replicate,
    Nat.ofDigits_append_replicate_zero]

/-- What the base does not divide is not zero. -/
theorem pos_of_not_dvd (hm : ¬ b ∣ m) : 0 < m := by
  refine Nat.pos_of_ne_zero fun hzero => hm ?_
  rw [hzero]
  exact dvd_zero b

/-- **Nothing else is lost**: the reversal of a number that does not end in a
zero has the number's digits, and its reversal is the number. -/
theorem reversal_reversal (hb : 1 < b) (hm : ¬ b ∣ m) : reversal b (reversal b m) = m := by
  have hdigits : digits b (reversal b m) = (digits b m).reverse := by
    refine Nat.digits_ofDigits b hb _ (fun d hd => ?_) (fun hne => ?_)
    · exact Nat.digits_lt_base hb (List.mem_reverse.1 hd)
    · -- the first digit of the reversal is the last one of `m`
      rw [List.getLast_reverse]
      simp only [Nat.digits_def' hb (pos_of_not_dvd hm), List.head_cons]
      rwa [Nat.dvd_iff_mod_eq_zero] at hm
  rw [reversal, hdigits, List.reverse_reverse, Nat.ofDigits_digits]

/-- **Reversing twice** takes the zeros off the end. -/
theorem exists_reversal_reversal (hb : 1 < b) (hn : n ≠ 0) :
    ∃ k m, ¬ b ∣ m ∧ n = b ^ k * m ∧ reversal b (reversal b n) = m := by
  obtain ⟨k, m, hm, hsplit⟩ := Nat.exists_eq_pow_mul_and_not_dvd hn b (by omega)
  refine ⟨k, m, hm, hsplit, ?_⟩
  rw [hsplit, reversal_pow_mul hb (pos_of_not_dvd hm), reversal_reversal hb hm]

/-- Reversed twice a number is no larger. -/
theorem reversal_reversal_le (hb : 1 < b) : reversal b (reversal b n) ≤ n := by
  rcases Nat.eq_zero_or_pos n with hzero | hpos
  · rw [hzero, reversal_zero, reversal_zero]
  · obtain ⟨k, m, -, hsplit, htwice⟩ := exists_reversal_reversal hb hpos.ne'
    have hpow : 0 < b ^ k := Nat.pow_pos (by omega)
    have hle : m ≤ b ^ k * m := Nat.le_mul_of_pos_left m hpow
    omega

/-- A number that is not zero has a digit that is not. -/
theorem reversal_pos (hb : 1 < b) (hn : 0 < n) : 0 < reversal b n := by
  obtain ⟨k, m, hm, -, htwice⟩ := exists_reversal_reversal hb hn.ne'
  refine Nat.pos_of_ne_zero fun hzero => hm ?_
  rw [← htwice, hzero, reversal_zero]
  exact dvd_zero b

/-! ## The order of reversals -/

/-- As many digits, so the reversal is below the same power. -/
theorem ofDigits_reverse_lt_pow (hb : 1 < b) (hxs : ∀ x ∈ xs, x < b) :
    ofDigits b xs.reverse < b ^ xs.length := by
  have hlt := Nat.ofDigits_lt_base_pow_length hb (l := xs.reverse) fun x hx =>
    hxs x (List.mem_reverse.1 hx)
  rwa [List.length_reverse] at hlt

/-- **Digit lists read from last to first are ordered lexicographically.** -/
theorem ofDigits_reverse_lt_iff (hb : 1 < b) (hlen : xs.length = ys.length)
    (hxs : ∀ x ∈ xs, x < b) (hys : ∀ y ∈ ys, y < b) :
    ofDigits b xs.reverse < ofDigits b ys.reverse ↔ xs < ys := by
  induction xs generalizing ys with
  | nil =>
      rw [List.length_nil, eq_comm, List.length_eq_zero_iff] at hlen
      rw [hlen]
      exact iff_of_false (Nat.lt_irrefl _) (List.lt_irrefl [])
  | cons x xs ih =>
      obtain ⟨y, ys, rfl⟩ := List.exists_cons_of_length_eq_add_one hlen.symm
      rw [List.length_cons, List.length_cons, Nat.add_right_cancel_iff] at hlen
      rw [List.forall_mem_cons] at hxs hys
      have htail := ih hlen hxs.2 hys.2
      -- what the tails spell is below the weight of the heads
      have hx := ofDigits_reverse_lt_pow hb hxs.2
      have hy := ofDigits_reverse_lt_pow hb hys.2
      rw [hlen] at hx
      rw [Nat.ofDigits_reverse_cons, Nat.ofDigits_reverse_cons, hlen, List.cons_lt_cons_iff,
        ← htail]
      rcases Nat.lt_trichotomy x y with hlt | heq | hgt
      · have hmul := Nat.mul_le_mul_left (b ^ ys.length) (Nat.succ_le_of_lt hlt)
        rw [Nat.mul_succ] at hmul
        omega
      · subst heq
        omega
      · have hmul := Nat.mul_le_mul_left (b ^ ys.length) (Nat.succ_le_of_lt hgt)
        rw [Nat.mul_succ] at hmul
        omega

/-- **When a reversal is at most a bound** that has no fewer digits than the
number: it has fewer, or its digits, last digit first, come no later than
those of the bound. -/
theorem reversal_le_iff (hb : 1 < b) (hlen : (digits b n).length ≤ ys.length + 1)
    (hys : ∀ y ∈ m :: ys, y < b) (hm : 0 < m) :
    reversal b n ≤ ofDigits b (m :: ys).reverse ↔
      (digits b n).length < (m :: ys).length ∨ digits b n ≤ m :: ys := by
  have hdigits : ∀ d ∈ digits b n, d < b := fun d hd => Nat.digits_lt_base hb hd
  rcases Nat.lt_or_ge (digits b n).length (ys.length + 1) with hshort | hfull
  · refine iff_of_true ?_ (.inl hshort)
    calc reversal b n ≤ b ^ (digits b n).length := (ofDigits_reverse_lt_pow hb hdigits).le
      _ ≤ b ^ ys.length := Nat.pow_le_pow_right (by omega) (by omega)
      _ ≤ b ^ ys.length * m := Nat.le_mul_of_pos_right _ hm
      _ ≤ ofDigits b (m :: ys).reverse := by
          rw [Nat.ofDigits_reverse_cons]
          exact Nat.le_add_left _ _
  · have heq : (digits b n).length = (m :: ys).length := Nat.le_antisymm hlen hfull
    rw [or_iff_right heq.not_lt, reversal, ← Nat.not_lt, ← not_lt,
      ofDigits_reverse_lt_iff hb heq.symm hys hdigits]

end BlocTest
