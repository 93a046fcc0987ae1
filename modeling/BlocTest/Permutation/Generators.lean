import BlocTest.Permutation.Helpers.Generate
/-!
# `permutation` and `combine` are complete and print nothing twice

The lines are described by positions of the vector, so that equal elements
do not matter: for each tuple of positions that qualifies there is one line,
and the lines come in the lexicographic order of the tuples. Both generators
do this exactly as long as the loop counter, an `int`, can run through the
vector.
-/

namespace BlocTest

namespace Permutation

open Prog IntType

variable {α ι : Type} [IntType ι] {s s' : Refs α} {n : ι} {k fuel : ℕ} {c : Cut}
variable {erase : List α → ι → Prog (Refs α) (List α)}

/-- A line has been printed for each of the tuples of positions, after what
`dst` held, and the references are as they were. -/
structure Prints (s : Refs α) (tuples : List (List (Fin s.a.length))) (s' : Refs α) : Prop where
  a : s'.a = s.a
  dst : s'.dst = s.dst
  cout : s'.cout = s.cout ++ tuples.flatMap fun p => line (s.dst ++ p.map s.a.get)

theorem Generated.prints (hg : Generated c k s s') :
    Prints s (enumerate c k (List.finRange s.a.length)) s' := by
  refine ⟨hg.a, hg.dst, ?_⟩
  rw [hg.cout, enumerate_positions, List.flatMap_map]

/-- A generator with nothing to choose prints the tuple it was given. -/
theorem Generated.cout_zero (hg : Generated c 0 s s') : s'.cout = s.cout ++ line s.dst := by
  rw [hg.cout, enumerate_zero, List.flatMap_singleton, List.append_nil]

/-- A generator that runs out of elements prints nothing. -/
theorem Generated.cout_of_length (hg : Generated c k s s')
    (hzero : (enumerate c k s.a).length = 0) : s'.cout = s.cout := by
  rw [hg.cout, List.length_eq_zero_iff.1 hzero, List.flatMap_nil, List.append_nil]

/-- A generator that has returned had nothing to choose, or a counter that
can run through the vector. -/
theorem counter_of_run (he : Erases erase c) (hn : toInt n = k)
    (hrun : generate erase fuel n s = .ok ((), s')) : k = 0 ∨ Fits ι s.a.length := by
  by_contra hnot
  push Not at hnot
  have hne : toInt n ≠ 0 := by
    rw [hn]
    exact Int.natCast_ne_zero.2 hnot.1
  exact not_wp_generate (Q := fun _ _ => True) he hne hnot.2 ⟨(), s', hrun, trivial⟩

/-- **A generator does its work exactly when** there is nothing to choose
or its counter can run through the vector. -/
theorem exists_generated_iff (he : Erases erase c) (hn : toInt n = k) (hf : s.a.length < fuel)
    {R : Refs α → Prop} (hR : ∀ s', Generated c k s s' → R s') :
    (∃ s', generate erase fuel n s = .ok ((), s') ∧ R s') ↔ k = 0 ∨ Fits ι s.a.length := by
  constructor
  · intro h
    obtain ⟨s', hrun, -⟩ := h
    exact counter_of_run he hn hrun
  · intro hfit
    obtain ⟨_, s', hrun, hg⟩ := wp_generate he hn hfit hf
    exact ⟨s', hrun, hR s' hg⟩

/-- When an `int` counter can run through a vector. -/
theorem counter_iff {n : Int32} {m : ℕ} (hn : n.toInt = k) :
    (k = 0 ∨ Fits Int32 m) ↔ (n = 0 ∨ m < 2 ^ 31) := by
  have hzero : k = 0 ↔ n = 0 := by
    rw [← Int32.toInt_inj, hn, Int32.toInt_zero, Int.natCast_eq_zero]
  rw [hzero, fits_int32, FitsInt]
  refine or_congr_right ?_
  omega

/-- With something to choose, no run goes through `2 ^ 31` elements. -/
theorem not_run_of_long {erase : List α → Int32 → Prog (Refs α) (List α)} {n : Int32}
    (he : Erases erase c) (hn : n.toInt = k) (hk : k ≠ 0) (hlong : 2 ^ 31 ≤ s.a.length) :
    generate erase fuel n s ≠ .ok ((), s') := by
  intro hrun
  rcases counter_of_run he hn hrun with hzero | hfit
  · exact hk hzero
  · have hlt := (fits_int32.1 hfit).2
    omega

/-- **`permutation` prints the arrangements exactly when** `n` is zero or
the vector has fewer than `2 ^ 31` elements: it then returns with the
references as they were, and has printed a line for each tuple of `n`
distinct positions, in lexicographic order. -/
theorem permutation_complete_iff (s : Refs α) (n : Int32) (fuel : ℕ) (hn : 0 ≤ n.toInt)
    (hf : s.a.length < fuel) :
    (∃ s', permutation fuel n s = .ok ((), s') ∧
      (∃ tuples, Exhausts tuples (fun p => (p.length : ℤ) = n.toInt ∧ p.Nodup) ∧
        Prints s tuples s') ∧
      (s.a.length < n.toInt → s'.cout = s.cout) ∧
      (n = 0 → s'.cout = s.cout ++ line s.dst)) ↔
    n = 0 ∨ s.a.length < 2 ^ 31 := by
  obtain ⟨k, hk⟩ := Int.eq_ofNat_of_zero_le hn
  rw [permutation, ← counter_iff hk]
  refine exists_generated_iff erases_eraseAt hk hf fun s' hg => ⟨⟨_, ?_, hg.prints⟩, ?_, ?_⟩
  · simp only [hk, Int.natCast_inj]
    exact exhausts_arrangements
  · intro hlt
    refine hg.cout_of_length ?_
    rw [length_enumerate_others, Nat.descFactorial_eq_zero_iff_lt]
    omega
  · rintro rfl
    obtain rfl : k = 0 := by simpa using hk.symm
    exact hg.cout_zero

/-- Two out of three. -/
theorem permutation_complete_iff_three :
    (∃ s', permutation 4 (2 : Int32) { a := [7, 8, 7], dst := [9], cout := [], pushes := 0 } =
        .ok ((), s') ∧
      (∃ tuples, Exhausts tuples (fun p => (p.length : ℤ) = (2 : Int32).toInt ∧ p.Nodup) ∧
        Prints { a := [7, 8, 7], dst := [9], cout := [], pushes := 0 } tuples s') ∧
      (([7, 8, 7] : List ℕ).length < (2 : Int32).toInt → s'.cout = []) ∧
      ((2 : Int32) = 0 → s'.cout = [] ++ line [9])) ↔
    (2 : Int32) = 0 ∨ ([7, 8, 7] : List ℕ).length < 2 ^ 31 :=
  permutation_complete_iff { a := [7, 8, 7], dst := [9], cout := [], pushes := 0 } 2 4 (by decide)
    (by decide)

/-- On a vector of `2 ^ 31 + 1` elements the counter overflows. -/
theorem permutation_overflow : ¬ ∃ fuel s', permutation fuel (1 : Int32)
    { a := List.replicate (2 ^ 31 + 1) (7 : Int32), dst := [], cout := [], pushes := 0 } =
      .ok ((), s') := by
  intro h
  obtain ⟨fuel, s', hrun⟩ := h
  refine not_run_of_long erases_eraseAt (k := 1) (by decide) (by decide) ?_ hrun
  rw [List.length_replicate]
  omega

/-- **`combine` prints the combinations exactly when** `n` is zero or the
vector has fewer than `2 ^ 31` elements: it then returns with the references
as they were, and has printed a line for each increasing tuple of `n`
positions, in lexicographic order. -/
theorem combine_complete_iff (s : Refs α) (n : Int32) (fuel : ℕ) (hn : 0 ≤ n.toInt)
    (hf : s.a.length < fuel) :
    (∃ s', combine fuel n s = .ok ((), s') ∧
      (∃ tuples, Exhausts tuples (fun p => (p.length : ℤ) = n.toInt ∧ p.Pairwise (· < ·)) ∧
        tuples.length = s.a.length.choose n.toInt.toNat ∧ Prints s tuples s') ∧
      (s.a.length < n.toInt → s'.cout = s.cout)) ↔
    n = 0 ∨ s.a.length < 2 ^ 31 := by
  obtain ⟨k, hk⟩ := Int.eq_ofNat_of_zero_le hn
  rw [combine, ← counter_iff hk]
  refine exists_generated_iff erases_eraseUpTo hk hf fun s' hg =>
    ⟨⟨_, ?_, ?_, hg.prints⟩, ?_⟩
  · simp only [hk, Int.natCast_inj]
    exact exhausts_combinations
  · rw [length_enumerate_following, List.length_finRange, hk, Int.toNat_natCast]
  · intro hlt
    refine hg.cout_of_length ?_
    rw [length_enumerate_following, Nat.choose_eq_zero_iff]
    omega

/-- Two out of three. -/
theorem combine_complete_iff_three :
    (∃ s', combine 4 (2 : Int32) { a := [7, 8, 7], dst := [9], cout := [], pushes := 0 } =
        .ok ((), s') ∧
      (∃ tuples, Exhausts tuples
          (fun p => (p.length : ℤ) = (2 : Int32).toInt ∧ p.Pairwise (· < ·)) ∧
        tuples.length = ([7, 8, 7] : List ℕ).length.choose (2 : Int32).toInt.toNat ∧
        Prints { a := [7, 8, 7], dst := [9], cout := [], pushes := 0 } tuples s') ∧
      (([7, 8, 7] : List ℕ).length < (2 : Int32).toInt → s'.cout = [])) ↔
    (2 : Int32) = 0 ∨ ([7, 8, 7] : List ℕ).length < 2 ^ 31 :=
  combine_complete_iff { a := [7, 8, 7], dst := [9], cout := [], pushes := 0 } 2 4 (by decide)
    (by decide)

/-- On a vector of `2 ^ 31 + 1` elements the counter overflows. -/
theorem combine_overflow : ¬ ∃ fuel s', combine fuel (1 : Int32)
    { a := List.replicate (2 ^ 31 + 1) (7 : Int32), dst := [], cout := [], pushes := 0 } =
      .ok ((), s') := by
  intro h
  obtain ⟨fuel, s', hrun⟩ := h
  refine not_run_of_long erases_eraseUpTo (k := 1) (by decide) (by decide) ?_ hrun
  rw [List.length_replicate]
  omega

end Permutation

end BlocTest
