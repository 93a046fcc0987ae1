import BlocTest.FastSort.Helpers.Calls
/-!
# `fast_sort` sorts

Whatever the memory around the array holds: when the length is at most one,
the value read into `key` is not used.
-/

namespace BlocTest

namespace FastSort

open Prog

/-- **The array is sorted**: the call returns, and the array then holds the
elements it held before, none of them before a smaller one. -/
theorem fastSort_sorts (s : Memory) (a : ℕ) (dataLen : Int32) (n fuel : ℕ)
    (hn : dataLen.toInt = n) (hf : n < fuel) :
    ∃ t, fastSort fuel (some a) dataLen s = .ok ((), t) ∧
      (slice t.cells a n).Pairwise (· ≤ ·) ∧
      (slice t.cells a n).Perm (slice s.cells a n) := by
  obtain ⟨_, t, hrun, hsorts⟩ := wp_fastSort (a := a) (s := s) hn hf
  exact ⟨t, hrun, hsorts.sorted, hsorts.perm⟩

/-- A memory that holds `xs` at its beginning, and zeros behind it. -/
def holding (xs : List Int32) : Memory := ⟨fun i => xs.getD i 0, [], []⟩

theorem fastSort_sorts_five :
    ∃ t, fastSort 6 (some 0) 5 (holding [3, 5, 1, 3, 4]) = .ok ((), t) ∧
      (slice t.cells 0 5).Pairwise (· ≤ ·) ∧
      (slice t.cells 0 5).Perm (slice (holding [3, 5, 1, 3, 4]).cells 0 5) :=
  fastSort_sorts (holding [3, 5, 1, 3, 4]) 0 5 5 6 rfl (by decide)

end FastSort

end BlocTest
