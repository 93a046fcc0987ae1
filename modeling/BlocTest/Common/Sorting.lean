import Mathlib.Data.List.Chain
import Mathlib.Data.List.Sort
/-!
# Sorting with a comparison function

A comparison function sorts by a key if, on the elements at hand, it says
which key is smaller. If the keys are distinct as well, there is only one
arrangement in which no two neighbours are out of order, so that it does not
matter which algorithm finds it.
-/

namespace BlocTest

namespace Sorting

variable {α κ : Type*} [LinearOrder κ] {cmp : α → α → ℤ} {f : α → κ} {l l' : List α}

/-- On the elements of `l`, `cmp` compares the keys. -/
def ComparesBy (cmp : α → α → ℤ) (f : α → κ) (l : List α) : Prop :=
  ∀ a ∈ l, ∀ b ∈ l, (cmp a b ≤ 0 ↔ f a ≤ f b)

/-- The order of the elements does not matter. -/
theorem ComparesBy.perm (h : ComparesBy cmp f l) (hp : l'.Perm l) : ComparesBy cmp f l' :=
  fun a ha b hb => h a (hp.mem_iff.1 ha) b (hp.mem_iff.1 hb)

/-- Sorting by the function is sorting by the key. -/
theorem ComparesBy.mergeSort_eq (h : ComparesBy cmp f l) :
    l.mergeSort (fun a b => cmp a b ≤ 0) = l.mergeSort (fun a b => f a ≤ f b) := by
  have hmap := List.map_mergeSort (f := id) (r := fun a b => decide (cmp a b ≤ 0))
    (s := fun a b => decide (f a ≤ f b)) (l := l)
    fun a ha b hb => decide_eq_decide.2 (h a ha b hb)
  rwa [List.map_id, List.map_id] at hmap

/-- The sorted list has increasing keys. -/
theorem ComparesBy.pairwise (h : ComparesBy cmp f l) :
    (l.mergeSort (fun a b => cmp a b ≤ 0)).Pairwise fun a b => f a ≤ f b := by
  rw [h.mergeSort_eq]
  refine (List.pairwise_mergeSort ?_ ?_ l).imp fun hab => of_decide_eq_true hab
  · intro a b c hab hbc
    exact decide_eq_true (le_trans (of_decide_eq_true hab) (of_decide_eq_true hbc))
  · intro a b
    rw [Bool.or_eq_true, decide_eq_true_iff, decide_eq_true_iff]
    exact le_total (f a) (f b)

/-- Neighbours in order are enough. -/
theorem ComparesBy.pairwise_of_isChain (h : ComparesBy cmp f l)
    (hc : l.IsChain fun a b => cmp a b ≤ 0) : l.Pairwise fun a b => f a ≤ f b := by
  have hkeys : (l.map f).IsChain (· ≤ ·) := by
    rw [List.isChain_map]
    refine hc.imp_of_mem_imp ?_
    intro a b ha hb hab
    exact (h a ha b hb).1 hab
  exact List.pairwise_map.1 hkeys.pairwise

/-- **There is one sorted arrangement.** -/
theorem ComparesBy.eq_mergeSort (h : ComparesBy cmp f l)
    (hinj : ∀ a ∈ l, ∀ b ∈ l, f a = f b → a = b) (hp : l'.Perm l)
    (hc : l'.IsChain fun a b => cmp a b ≤ 0) :
    l' = l.mergeSort (fun a b => cmp a b ≤ 0) := by
  have hsort := List.mergeSort_perm l fun a b => decide (cmp a b ≤ 0)
  have hin : l'.Pairwise fun a b => f a ≤ f b := (h.perm hp).pairwise_of_isChain hc
  refine List.Perm.eq_of_pairwise ?_ hin h.pairwise (hp.trans hsort.symm)
  intro a b ha hb hab hba
  exact hinj a (hp.mem_iff.1 ha) b (hsort.mem_iff.1 hb) (le_antisymm hab hba)

end Sorting

end BlocTest
