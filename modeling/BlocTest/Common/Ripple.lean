import Mathlib.Data.Nat.Digits.Defs
import Mathlib.Tactic.Common
/-!
# Adding digit lists column by column

Two numbers in base `b`, least significant digit first, are added by adding
their columns and letting carries ripple. `forgetful` is the ripple whose
carry is the column's own and forgets the carry that came in. It never
overshoots, and it is exact when every incoming carry is absorbed by its
column and none is left over.
-/

namespace BlocTest

open Nat (ofDigits)

variable {b c x y : ℕ} {xs ys z : List ℕ}

/-- The columns of a sum: digit by digit, a missing digit being `0`. -/
def addColumns : List ℕ → List ℕ → List ℕ
  | [], ys => ys
  | xs, [] => xs
  | x :: xs, y :: ys => (x + y) :: addColumns xs ys

@[simp] theorem addColumns_nil_left : addColumns [] ys = ys := by
  rw [addColumns]

@[simp] theorem addColumns_nil_right : addColumns xs [] = xs := by
  cases xs <;> rfl

/-- The first column, whichever list it comes from. -/
theorem addColumns_cons (h : ¬ (xs = [] ∧ ys = [])) :
    addColumns xs ys = (xs.headD 0 + ys.headD 0) :: addColumns xs.tail ys.tail := by
  cases xs with
  | nil =>
      cases ys with
      | nil => exact absurd ⟨rfl, rfl⟩ h
      | cons y ys => simp
  | cons x xs =>
      cases ys with
      | nil => simp
      | cons y ys => rfl

/-- The columns are worth the sum. -/
theorem ofDigits_addColumns : ofDigits b (addColumns xs ys) = ofDigits b xs + ofDigits b ys := by
  fun_induction addColumns xs ys with
  | case1 ys => simp
  | case2 xs => simp
  | case3 x xs y ys ih =>
      simp only [Nat.ofDigits_cons, ih, Nat.mul_add]
      omega

/-- Columns of digits below a bound are below twice the bound. -/
theorem le_of_mem_addColumns {k : ℕ} (hxs : ∀ x ∈ xs, x ≤ k) (hys : ∀ y ∈ ys, y ≤ k) :
    ∀ x ∈ addColumns xs ys, x ≤ k + k := by
  fun_induction addColumns xs ys with
  | case1 ys =>
      intro y hy
      have := hys y hy
      omega
  | case2 xs =>
      intro x hx
      have := hxs x hx
      omega
  | case3 x xs y ys ih =>
      intro w hw
      obtain rfl | hw := List.mem_cons.1 hw
      · have hx := hxs x (by simp)
        have hy := hys y (by simp)
        omega
      · exact ih (fun v hv => hxs v (by simp [hv])) (fun v hv => hys v (by simp [hv])) w hw

/-! ## The ripple that forgets -/

/-- Digits of the columns, each carry computed from its column alone. -/
def forgetful (b c : ℕ) : List ℕ → List ℕ
  | [] => []
  | x :: z => ((x + c) % b) :: forgetful b (x / b) z

/-- Every carry is absorbed: adding it to its column does not change what
that column carries, and none is left over. -/
def Absorbed (b c : ℕ) : List ℕ → Prop
  | [] => c = 0
  | x :: z => (x + c) / b = x / b ∧ Absorbed b (x / b) z

/-- What one column loses: the carry it should have passed on. -/
theorem ofDigits_forgetful_cons : ofDigits b (forgetful b c (x :: z)) + b * ((x + c) / b) =
    x + c + b * ofDigits b (forgetful b (x / b) z) := by
  have h := Nat.mod_add_div (x + c) b
  simp only [forgetful, Nat.ofDigits_cons]
  omega

/-- The forgetful ripple never overshoots. -/
theorem ofDigits_forgetful_le : ofDigits b (forgetful b c z) ≤ ofDigits b z + c := by
  induction z generalizing c with
  | nil => simp [forgetful]
  | cons x z ih =>
      have hcol := ofDigits_forgetful_cons (b := b) (c := c) (x := x) (z := z)
      have hle : x / b ≤ (x + c) / b := Nat.div_le_div_right (by omega)
      have hmul := Nat.mul_le_mul_left b (ih (c := x / b))
      have hmul' := Nat.mul_le_mul_left b hle
      rw [Nat.mul_add] at hmul
      rw [Nat.ofDigits_cons]
      omega

/-- **The forgetful ripple is exact just when every carry is absorbed.** -/
theorem ofDigits_forgetful_eq_iff (hb : 0 < b) :
    ofDigits b (forgetful b c z) = ofDigits b z + c ↔ Absorbed b c z := by
  induction z generalizing c with
  | nil =>
      simp only [forgetful, Nat.ofDigits_nil, Absorbed]
      omega
  | cons x z ih =>
      have hcol := ofDigits_forgetful_cons (b := b) (c := c) (x := x) (z := z)
      have hle : x / b ≤ (x + c) / b := Nat.div_le_div_right (by omega)
      have hrest := ofDigits_forgetful_le (b := b) (c := x / b) (z := z)
      have hmul' := Nat.mul_le_mul_left b hle
      rw [Absorbed, ← ih, Nat.ofDigits_cons]
      constructor
      · intro heq
        have hcarry : b * ((x + c) / b) + b * ofDigits b z =
            b * ofDigits b (forgetful b (x / b) z) := by
          omega
        rw [← Nat.mul_add] at hcarry
        have hcarry := Nat.eq_of_mul_eq_mul_left hb hcarry
        omega
      · intro h
        obtain ⟨hkeep, heq⟩ := h
        rw [hkeep, heq, Nat.mul_add] at hcol
        omega

/-- The same, read off the columns: neighbours, and the last one. -/
theorem absorbed_div_iff : Absorbed b (x / b) z ↔
    (x :: z).IsChain (fun x y => (y + x / b) / b = y / b) ∧
      ∀ y ∈ (x :: z).getLast?, y / b = 0 := by
  induction z generalizing x with
  | nil => simp [Absorbed]
  | cons y z ih =>
      rw [Absorbed, ih, List.isChain_cons_cons, List.getLast?_cons_cons, and_assoc]

/-- Without a carry in front, a column absorbs what the one before it hands
on. -/
theorem absorbed_zero_iff : Absorbed b 0 z ↔
    z.IsChain (fun x y => (y + x / b) / b = y / b) ∧ ∀ y ∈ z.getLast?, y / b = 0 := by
  cases z with
  | nil => simp [Absorbed]
  | cons x z =>
      rw [Absorbed, absorbed_div_iff]
      simp only [Nat.add_zero, true_and]

end BlocTest
