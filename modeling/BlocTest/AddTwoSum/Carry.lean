import BlocTest.AddTwoSum.Model.AddTwoNum
import BlocTest.Common.Ripple
import Mathlib.Data.List.Chain
/-!
# `add_two_num`

The recursion spells the columns of the sum with the forgetful ripple: the
carry is computed from the two digits alone. So the result is a list of
digits for every pair of operands, and worth their sum exactly when each
carry stays within its column.
-/

namespace BlocTest

namespace AddTwoSum

open Prog

variable {l l1 l2 dst : List Int32} {x y : Int32} {carry : UInt8}

/-- The number a digit stands for. -/
def dig (x : Int32) : ℕ := x.toInt.toNat

/-- A list of decimal digits. -/
def Digits (l : List Int32) : Prop := ∀ x ∈ l, 0 ≤ x.toInt ∧ x.toInt ≤ 9

instance (l : List Int32) : Decidable (Digits l) :=
  decidable_of_iff (l.all fun x => decide (0 ≤ x.toInt) && decide (x.toInt ≤ 9)) (by simp [Digits])

/-- The number a list of digits stands for, least significant first. -/
def value (l : List Int32) : ℕ := Nat.ofDigits 10 (l.map dig)

/-- The digit sums of the two numbers, column by column. -/
def columns (l1 l2 : List Int32) : List ℕ := addColumns (l1.map dig) (l2.map dig)

/-! ## One column -/

theorem Digits.getListElem (h : Digits l) :
    (getListElem l).toInt = (l.map dig).headD 0 ∧ (getListElem l).toInt ≤ 9 := by
  cases l with
  | nil => decide
  | cons x l =>
      have hx := h x List.mem_cons_self
      have hx0 : AddTwoSum.getListElem (x :: l) = x := by
        rw [AddTwoSum.getListElem]
        split
        · assumption
        · rfl
      rw [hx0, List.map_cons, List.headD_cons, dig]
      omega

theorem length_deleteList : (deleteList l).length = l.length - 1 := by
  cases l <;> rfl

theorem map_deleteList : (deleteList l).map dig = (l.map dig).tail := by
  cases l <;> rfl

theorem Digits.deleteList (h : Digits l) : Digits (deleteList l) := by
  cases l with
  | nil => exact h
  | cons x l => exact fun y hy => h y (List.mem_cons_of_mem x hy)

/-- One more digit at the end. -/
theorem Digits.concat (h : Digits l) (hx : 0 ≤ x.toInt ∧ x.toInt ≤ 9) : Digits (l ++ [x]) := by
  intro y hy
  rcases List.mem_append.1 hy with hy | hy
  · exact h y hy
  · rw [List.mem_singleton.1 hy]
    exact hx

/-- The columns are the column at hand and those that remain. -/
theorem columns_deleteList (hne : ¬ (l1 = [] ∧ l2 = [])) :
    columns l1 l2 = ((l1.map dig).headD 0 + (l2.map dig).headD 0) ::
      columns (deleteList l1) (deleteList l2) := by
  rw [columns, columns, map_deleteList, map_deleteList]
  exact addColumns_cons (by simpa only [List.map_eq_nil_iff] using hne)

theorem Digits.le_of_mem (h : Digits l) : ∀ d ∈ l.map dig, d ≤ 9 := by
  intro d hd
  obtain ⟨x, hx, rfl⟩ := List.mem_map.1 hd
  have := h x hx
  unfold dig
  omega

/-- A digit of the sum: the total is at most `19`. -/
theorem toInt_mod_ten {n : ℕ} (hn : n ≤ 19) : (Int32.ofInt n % 10).toInt = ↑(n % 10) := by
  have hfit : FitsInt (n : ℤ) := by
    unfold FitsInt
    omega
  rw [Int32.toInt_mod, toInt_ofInt_of_fits hfit]
  exact Int.tmod_eq_emod_of_nonneg (by omega)

/-- A carry: the two digits add up to at most `18`. -/
theorem toNat_div_ten {n : ℕ} (hn : n ≤ 18) :
    (UInt8.ofInt (Int32.ofInt n / 10).toInt).toNat = n / 10 := by
  have hall : ∀ k < 19, (UInt8.ofInt (Int32.ofInt (k : ℕ) / 10).toInt).toNat = k / 10 := by decide
  exact hall n (by omega)

/-! ## The recursion -/

/-- **What the recursion builds.** The operands are consumed and the digits
of the forgetful ripple are appended to the result. -/
theorem wp_addTwoNum {fuel : ℕ} (h1 : Digits l1) (h2 : Digits l2) (hd : Digits dst)
    (hc : carry.toNat ≤ 1) (hf1 : l1.length < fuel) (hf2 : l2.length < fuel) :
    wp (addTwoNum fuel) (fun _ m => m.l1 = [] ∧ m.l2 = [] ∧ Digits m.dst ∧
      m.dst.map dig = dst.map dig ++ forgetful 10 carry.toNat (columns l1 l2))
      { l1, l2, dst, carry } := by
  induction fuel generalizing l1 l2 dst carry with
  | zero => omega
  | succ fuel ih =>
      rw [addTwoNum, wp_bind, wp_get, wp_ite]
      constructor
      · intro h
        obtain ⟨hl1, hl2⟩ := h
        rw [List.isEmpty_iff] at hl1 hl2
        subst hl1 hl2
        rw [wp_pure]
        exact ⟨rfl, rfl, hd, (List.append_nil _).symm⟩
      · intro hne
        simp only [List.isEmpty_iff] at hne
        have hpos : 0 < fuel := by
          by_contra hzero
          exact hne ⟨List.length_eq_zero_iff.1 (by omega), List.length_eq_zero_iff.1 (by omega)⟩
        obtain ⟨he1, hle1⟩ := h1.getListElem
        obtain ⟨he2, hle2⟩ := h2.getListElem
        have hcol := columns_deleteList hne
        generalize (l1.map dig).headD 0 = d1 at he1 hcol
        generalize (l2.map dig).headD 0 = d2 at he2 hcol
        have hsum : FitsInt ((d1 + d2 : ℕ) : ℤ) := by rw [FitsInt]; omega
        have htotal : FitsInt ((d1 + d2 + carry.toNat : ℕ) : ℤ) := by rw [FitsInt]; omega
        have hmod := toInt_mod_ten (n := d1 + d2 + carry.toNat) (by omega)
        have hdiv := toNat_div_ten (n := d1 + d2) (by omega)
        rw [he1, he2, ← Int.natCast_add]
        simp only [wp_bind, wp_signed, wp_set, toInt_ofInt_of_fits hsum]
        rw [← Int.natCast_add]
        have hlen1 : (deleteList l1).length < fuel := by
          rw [length_deleteList]
          omega
        have hlen2 : (deleteList l2).length < fuel := by
          rw [length_deleteList]
          omega
        refine ⟨hsum, htotal, wp_mono (ih h1.deleteList h2.deleteList (hd.concat (by omega))
          (by omega) hlen1 hlen2) ?_⟩
        rintro _ m ⟨hm1, hm2, hmd, hdst⟩
        refine ⟨hm1, hm2, hmd, ?_⟩
        rw [hdst, hcol, forgetful, hdiv, List.map_append, List.append_assoc]
        simp only [List.map_cons, List.map_nil, dig, hmod, List.singleton_append,
          Int.toNat_natCast]

/-- What the two-argument `add_two_num` builds. -/
theorem wp_fresh {fuel : ℕ} (h1 : Digits l1) (h2 : Digits l2) (hf1 : l1.length < fuel)
    (hf2 : l2.length < fuel) :
    wp (addTwoNum fuel) (fun _ m => Digits m.dst ∧
      value m.dst = Nat.ofDigits 10 (forgetful 10 0 (columns l1 l2))) (fresh l1 l2) := by
  refine wp_mono (wp_addTwoNum h1 h2 (by decide) (by decide) hf1 hf2) ?_
  rintro _ m ⟨-, -, hmd, hdst⟩
  refine ⟨hmd, ?_⟩
  rw [value, hdst]
  rfl

/-! ## When the sum is right -/

theorem value_add_value : value l1 + value l2 = Nat.ofDigits 10 (columns l1 l2) + 0 :=
  ofDigits_addColumns.symm

/-- Columns of two digits absorb their carries when no nine follows a ten
or more, and none is left over when the last is below ten. -/
theorem absorbed_columns_iff (h1 : Digits l1) (h2 : Digits l2) :
    Absorbed 10 0 (columns l1 l2) ↔
      (columns l1 l2).IsChain (fun x y => ¬ (10 ≤ x ∧ y = 9)) ∧
        ∀ x ∈ (columns l1 l2).getLast?, x ≤ 9 := by
  have hle : ∀ x ∈ columns l1 l2, x ≤ 18 := le_of_mem_addColumns h1.le_of_mem h2.le_of_mem
  rw [absorbed_zero_iff]
  refine and_congr (List.IsChain.iff_of_mem_imp fun x y hx hy => ?_)
    (forall_congr' fun x => imp_congr_right fun _ => ?_)
  · have hx := hle x hx
    have hy := hle y hy
    omega
  · omega

/-- **`add_two_num` adds exactly when** no column whose digits add up to
nine follows one whose digits add up to ten or more, and the last column
stays below ten. -/
theorem addTwoNum_adds_iff (l1 l2 : List Int32) (fuel : ℕ) (h1 : Digits l1) (h2 : Digits l2)
    (hf1 : l1.length < fuel) (hf2 : l2.length < fuel) :
    (∃ m, addTwoNum fuel (fresh l1 l2) = .ok ((), m) ∧ Digits m.dst ∧
      value m.dst = value l1 + value l2) ↔
    (columns l1 l2).IsChain (fun x y => ¬ (10 ≤ x ∧ y = 9)) ∧
      ∀ x ∈ (columns l1 l2).getLast?, x ≤ 9 := by
  obtain ⟨_, m, hm, hmd, hvalue⟩ := wp_fresh h1 h2 hf1 hf2
  have hadd : value m.dst = value l1 + value l2 ↔ Absorbed 10 0 (columns l1 l2) := by
    rw [hvalue, value_add_value]
    exact ofDigits_forgetful_eq_iff (by decide)
  rw [exists_run_iff hm, ← absorbed_columns_iff h1 h2, ← hadd]
  exact and_iff_right hmd

/-- The operands `main` runs on. -/
theorem addTwoNum_adds_iff_run :
    (∃ m, addTwoNum 5 (fresh [2, 4, 3, 6] [5, 6, 4]) = .ok ((), m) ∧ Digits m.dst ∧
      value m.dst = value [2, 4, 3, 6] + value [5, 6, 4]) ↔
    (columns [2, 4, 3, 6] [5, 6, 4]).IsChain (fun x y => ¬ (10 ≤ x ∧ y = 9)) ∧
      ∀ x ∈ (columns [2, 4, 3, 6] [5, 6, 4]).getLast?, x ≤ 9 :=
  addTwoNum_adds_iff [2, 4, 3, 6] [5, 6, 4] 5 (by decide) (by decide) (by decide) (by decide)

/-- `5 + 5` is `0`: the last carry is dropped. -/
theorem addTwoNum_five_five :
    addTwoNum 2 (fresh [5] [5]) = .ok ((), { l1 := [], l2 := [], dst := [0], carry := 1 }) ∧
      value [0] ≠ value [5] + value [5] := by
  decide

end AddTwoSum

end BlocTest
