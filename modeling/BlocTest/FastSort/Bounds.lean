import BlocTest.FastSort.Sorted
/-!
# Where `fast_sort` reads

Each call reads the first element of its array before it looks at the length.
A call on an empty left part reads the key of the call it is made from. A call
on an empty right part reads the cell behind the array of that call, and in
the last of the right parts that is the cell behind the whole array.
-/

namespace BlocTest

namespace FastSort

open Prog

/-- **Every access is inside the array exactly when the right parts end in a
single element**: the array is not empty, and taking the elements above the
first one, again and again, comes down to one element and never to none. -/
theorem fastSort_inside_iff (s : Memory) (a : ℕ) (dataLen : Int32) (n fuel : ℕ)
    (hn : dataLen.toInt = n) (hf : n < fuel) :
    (∃ t, fastSort fuel (some a) dataLen s = .ok ((), t) ∧
        ∃ new, t.accesses = s.accesses ++ new ∧ ∀ p ∈ new, Within a n p) ↔
      EndsAlone (slice s.cells a n) := by
  obtain ⟨_, t, hrun, hsorts⟩ := wp_fastSort (a := a) (s := s) hn hf
  obtain ⟨new, hlog, hin, hend⟩ := hsorts.logs
  rw [exists_run_iff hrun]
  constructor
  · intro h
    obtain ⟨new', hlog', hin'⟩ := h
    rw [hlog] at hlog'
    obtain rfl := List.append_cancel_left hlog'
    by_contra hnot
    exact Nat.lt_irrefl _ (hin' _ (hend.2 hnot)).2
  · intro halone
    refine ⟨new, hlog, fun p hp => ?_⟩
    have hne : p ≠ a + n := by
      rintro rfl
      exact hend.1 hp halone
    have hp' := hin p hp
    unfold Within at hp' ⊢
    omega

theorem fastSort_inside_iff_ascending :
    (∃ t, fastSort 3 (some 0) 2 (holding [1, 2]) = .ok ((), t) ∧
        ∃ new, t.accesses = (holding [1, 2]).accesses ++ new ∧ ∀ p ∈ new, Within 0 2 p) ↔
      EndsAlone (slice (holding [1, 2]).cells 0 2) :=
  fastSort_inside_iff (holding [1, 2]) 0 2 2 3 rfl (by decide)

/-- Sorting `2, 1` reads the cell at `2`. -/
theorem fastSort_past_end :
    (∃ t, fastSort 3 (some 0) 2 (holding [2, 1]) = .ok ((), t) ∧ 2 ∈ t.accesses) ∧
    ¬ ∃ t, fastSort 3 (some 0) 2 (holding [2, 1]) = .ok ((), t) ∧
        ∃ new, t.accesses = (holding [2, 1]).accesses ++ new ∧ ∀ p ∈ new, Within 0 2 p := by
  have hrun : ∃ t, fastSort 3 (some 0) 2 (holding [2, 1]) = .ok ((), t) ∧ 2 ∈ t.accesses :=
    ⟨_, rfl, by decide⟩
  refine ⟨hrun, ?_⟩
  obtain ⟨t, hrun, hmem⟩ := hrun
  rw [exists_run_iff hrun]
  intro h
  obtain ⟨new, hlog, hin⟩ := h
  rw [hlog] at hmem
  have hpast : ¬ Within 0 2 2 := by decide
  exact hpast (hin 2 hmem)

end FastSort

end BlocTest
