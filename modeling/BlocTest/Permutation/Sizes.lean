import BlocTest.Permutation.Generators
import BlocTest.Permutation.Helpers.Sizes
/-!
# What the wrappers compute before they generate

Over exact integers the two sizes are what they are meant to be: `calculate`
counts the `push_back`s of `permutation` and the size of the array counts
its lines. In an `int` they have a value only for `n` below `m` and for `m`
up to twelve, the last number whose factorial an `int` holds.
-/

namespace BlocTest

namespace Permutation

open Prog IntType
open scoped Nat

variable {α ι : Type} [IntType ι] {s s' : Refs α} {n : ι} {m k fuel : ℕ} {c : Cut}

/-! ## Over exact integers -/

theorem choices_eq_arrangementsUpTo {l : List α} :
    choices others k l = arrangementsUpTo l.length k := choices_others

theorem calculate_exact (h1 : k < m) (hf : m ≤ fuel) :
    calculate fuel (m : ℤ) (k : ℤ) () = .ok ((arrangementsUpTo m k : ℤ), ()) := by
  refine eq_of_wp (wp_mono (wp_calculate rfl rfl h1 fits_int fits_int hf) fun r _ hr => ?_)
  exact ⟨hr, rfl⟩

theorem factorial_exact (h1 : 1 ≤ m) (hf : m ≤ fuel) :
    factorial fuel (m : ℤ) () = .ok ((m ! : ℕ), ()) :=
  eq_of_wp ((wp_factorial rfl).2 ⟨h1, hf, fits_int, rfl, rfl⟩)

theorem lineCount_exact (h1 : k < m) (hf : m ≤ fuel) :
    lineCount fuel (m : ℤ) (k : ℤ) () = .ok ((m.descFactorial k : ℕ), ()) :=
  eq_of_wp ((wp_lineCount rfl rfl h1.le).2 ⟨h1, hf, fits_int, rfl, rfl⟩)

/-- **The sizes predict the work.** Over exact integers, for `n` from one to
below the number of elements, `calculate` is the number of `push_back`s that
`permutation` executes, the size of the array is the number of lines it
prints, and the divisions of both are exact: their divisors are the
factorials of `m - n` up to `m - 1`. -/
theorem calculate_predicts (s : Refs α) (n : ℤ) (fuel : ℕ) (h1 : 1 ≤ n) (hn : n < s.a.length)
    (hf : s.a.length < fuel) :
    ∃ (s' : Refs α) (lines : List (List α)), permutation fuel n s = .ok ((), s') ∧
      s'.cout = s.cout ++ lines.flatMap line ∧
      calculate fuel (s.a.length : ℤ) n () = .ok ((s'.pushes : ℤ) - s.pushes, ()) ∧
      lineCount fuel (s.a.length : ℤ) n () = .ok ((lines.length : ℤ), ()) ∧
      ∀ d : ℤ, s.a.length - n ≤ d → d < s.a.length →
        ∃ f g, factorial fuel (s.a.length : ℤ) () = .ok (f, ()) ∧
          factorial fuel d () = .ok (g, ()) ∧ g ∣ f := by
  obtain ⟨k, rfl⟩ := Int.eq_ofNat_of_zero_le (by omega : 0 ≤ n)
  have hk : k < s.a.length := by omega
  obtain ⟨_, s', hrun, hg⟩ := wp_generate (s := s) (n := (k : ℤ)) erases_eraseAt rfl
    (.inr fits_int) hf
  refine ⟨s', (enumerate others k s.a).map (s.dst ++ ·), hrun, ?_, ?_, ?_, fun d hd hdm => ?_⟩
  · rw [hg.cout, List.flatMap_map]
  · have hpushes : (s'.pushes : ℤ) - s.pushes = arrangementsUpTo s.a.length k := by
      rw [hg.pushes, choices_eq_arrangementsUpTo]
      omega
    rw [hpushes]
    exact calculate_exact hk hf.le
  · rw [List.length_map, length_enumerate_others]
    exact lineCount_exact hk hf.le
  · obtain ⟨j, rfl⟩ := Int.eq_ofNat_of_zero_le (by omega : 0 ≤ d)
    refine ⟨_, _, factorial_exact (by omega) hf.le, factorial_exact (by omega) (by omega), ?_⟩
    exact Int.natCast_dvd_natCast.2 (Nat.factorial_dvd_factorial (by omega))

theorem calculate_predicts_four :
    ∃ (s' : Refs ℕ) (lines : List (List ℕ)),
      permutation 5 (3 : ℤ) { a := [1, 2, 3, 4], dst := [], cout := [], pushes := 0 } =
        .ok ((), s') ∧
      s'.cout = [] ++ lines.flatMap line ∧
      calculate 5 (([1, 2, 3, 4] : List ℕ).length : ℤ) 3 () =
        .ok ((s'.pushes : ℤ) - (0 : ℕ), ()) ∧
      lineCount 5 (([1, 2, 3, 4] : List ℕ).length : ℤ) 3 () = .ok ((lines.length : ℤ), ()) ∧
      ∀ d : ℤ, ([1, 2, 3, 4] : List ℕ).length - 3 ≤ d → d < ([1, 2, 3, 4] : List ℕ).length →
        ∃ f g, factorial 5 (([1, 2, 3, 4] : List ℕ).length : ℤ) () = .ok (f, ()) ∧
          factorial 5 d () = .ok (g, ()) ∧ g ∣ f :=
  calculate_predicts { a := [1, 2, 3, 4], dst := [], cout := [], pushes := 0 } 3 5 (by decide)
    (by decide) (by decide)

/-! ## In an `int` -/

/-- Twelve is the last number whose factorial an `int` holds. -/
theorem fits_factorial_iff : Fits Int32 (m ! : ℕ) ↔ m ≤ 12 := by
  constructor
  · intro hfit
    by_contra hlt
    have hle : (13)! ≤ m ! := Nat.factorial_le (by omega)
    have hbig : 2 ^ 31 ≤ (13)! := by decide
    obtain ⟨-, hmax⟩ := hfit
    omega
  · intro hle
    have hfac : m ! ≤ (12)! := Nat.factorial_le hle
    have hsmall : (12)! < 2 ^ 31 := by decide
    exact ⟨by omega, by omega⟩

/-- And so it holds what `calculate` adds up. -/
theorem fits_arrangementsUpTo (hm : m ≤ 12) (hk : k < m) :
    Fits Int32 (arrangementsUpTo m k : ℕ) := by
  have hall : ∀ m ≤ 12, arrangementsUpTo m 12 < 2 ^ 31 := by decide +kernel
  have hle := arrangementsUpTo_mono m (show k ≤ 12 by omega)
  have hlt := hall m hm
  exact ⟨by omega, by omega⟩

theorem wp_sizes {n : Int32} (hn : n.toInt = k) (hk : k < s.a.length) (hm : s.a.length ≤ 12)
    (hf : s.a.length < fuel) : wp (sizes fuel n) (fun _ s' => s' = s) s := by
  have hm' : toInt (ofInt (s.a.length : ℤ) : Int32) = s.a.length :=
    toInt_ofInt ⟨by omega, by omega⟩
  have hfac : Fits Int32 (s.a.length ! : ℕ) := fits_factorial_iff.2 hm
  simp only [sizes, wp_bind, wp_get, wp_call, wp_pure]
  refine wp_mono (wp_calculate hm' hn hk hfac (fits_arrangementsUpTo hm hk) hf.le) fun _ _ _ => ?_
  exact (wp_lineCount hm' hn hk.le).2 ⟨hk, hf.le, hfac, trivial⟩

section Wrapper

variable {erase : List α → Int32 → Prog (Refs α) (List α)} {n : Int32}

/-- **A wrapper that returns** has had sizes to compute, and a generator
that ran through the vector. -/
theorem of_wp_wrapper (he : Erases erase c) (hn : n.toInt = k) (h1 : 1 ≤ k)
    {Q : Unit → Refs α → Prop} (h : wp (wrapper (generate erase fuel) fuel n) Q s) :
    k < s.a.length ∧ s.a.length ≤ 12 := by
  simp only [wrapper, sizes, wp_bind, wp_get, wp_call, wp_pure, wp_zoom] at h
  obtain ⟨_, _, -, hcount⟩ := h
  obtain ⟨hlt, hfac⟩ := of_wp_lineCount hcount
  obtain ⟨_, _, -, hgen⟩ := hcount
  -- the generator has run through the vector, so its size is an `int`
  have hfit : Fits Int32 s.a.length := by
    by_contra hnot
    refine not_wp_generate (s := { s with dst := [] }) he ?_ hnot hgen
    rw [toInt_int32]
    omega
  rw [toInt_ofInt hfit] at hlt hfac
  rw [Int.toNat_natCast, fits_factorial_iff] at hfac
  rw [toInt_int32, hn] at hlt
  exact ⟨by omega, hfac⟩

/-- **A wrapper that can compute its sizes** reaches its generator. -/
theorem wp_wrapper (he : Erases erase c) (hn : n.toInt = k) (hk : k < s.a.length)
    (hm : s.a.length ≤ 12) (hf : s.a.length < fuel) :
    wp (wrapper (generate erase fuel) fuel n) (fun _ s' => ∃ t,
      Generated c k { s with dst := [] } t ∧ s' = { t with dst := s.dst }) s := by
  have hfit : Fits Int32 s.a.length := ⟨by omega, by omega⟩
  have hgen := wp_generate (s := { s with dst := [] }) he hn (.inr hfit) hf
  simp only [wrapper, wp_bind, wp_zoom]
  refine wp_mono (wp_sizes hn hk hm hf) fun _ t ht => ?_
  subst ht
  exact wp_mono hgen fun _ t hg => ⟨t, hg, rfl⟩

/-- **A wrapper does its work exactly when** `n` is below the number of
elements and that is at most twelve. -/
theorem wrapper_iff (he : Erases erase c) (hn : n.toInt = k) (h1 : 1 ≤ k)
    (hf : s.a.length < fuel) {R : Refs α → Prop}
    (hR : ∀ s', Generated c k { s with dst := [] } s' → R { s' with dst := s.dst }) :
    ((∃ sz, sizes fuel n s = .ok (sz, s)) ∧
      ∃ s', wrapper (generate erase fuel) fuel n s = .ok ((), s') ∧ R s') ↔
    k < s.a.length ∧ s.a.length ≤ 12 := by
  constructor
  · intro h
    obtain ⟨-, s', hrun, -⟩ := h
    exact of_wp_wrapper (Q := fun _ _ => True) he hn h1 ⟨(), s', hrun, trivial⟩
  · intro h
    obtain ⟨hk, hm⟩ := h
    obtain ⟨sz, _, hsizes, rfl⟩ := wp_sizes hn hk hm hf
    obtain ⟨_, _, hrun, t, hg, rfl⟩ := wp_wrapper he hn hk hm hf
    exact ⟨⟨sz, hsizes⟩, _, hrun, hR t hg⟩

end Wrapper

/-- **The wrappers reach their generator exactly when** `n` is below the
number of elements and that is at most twelve: the sizes then have a value,
and the lines for all `n`-arrangements, or all `n`-combinations, are
printed. -/
theorem wrappers_reach_iff (s : Refs α) (n : Int32) (fuel : ℕ) (h1 : 1 ≤ n.toInt)
    (hf : s.a.length < fuel) :
    (((∃ sz, sizes fuel n s = .ok (sz, s)) ∧
      ∃ s', permutationOf fuel n s = .ok ((), s') ∧
        ∃ tuples, Exhausts tuples (fun p => (p.length : ℤ) = n.toInt ∧ p.Nodup) ∧
          s'.cout = s.cout ++ tuples.flatMap fun p => line (p.map s.a.get)) ↔
      n.toInt < s.a.length ∧ s.a.length ≤ 12) ∧
    (((∃ sz, sizes fuel n s = .ok (sz, s)) ∧
      ∃ s', combineOf fuel n s = .ok ((), s') ∧
        ∃ tuples, Exhausts tuples (fun p => (p.length : ℤ) = n.toInt ∧ p.Pairwise (· < ·)) ∧
          s'.cout = s.cout ++ tuples.flatMap fun p => line (p.map s.a.get)) ↔
      n.toInt < s.a.length ∧ s.a.length ≤ 12) := by
  obtain ⟨k, hk⟩ := Int.eq_ofNat_of_zero_le (by omega : 0 ≤ n.toInt)
  have hlt : (n.toInt < s.a.length ∧ s.a.length ≤ 12) ↔ (k < s.a.length ∧ s.a.length ≤ 12) := by
    omega
  rw [hlt]
  constructor
  · refine wrapper_iff erases_eraseAt hk (by omega) hf fun s' hg => ⟨_, ?_, hg.prints.cout⟩
    simp only [hk, Int.natCast_inj]
    exact exhausts_arrangements
  · refine wrapper_iff erases_eraseUpTo hk (by omega) hf fun s' hg => ⟨_, ?_, hg.prints.cout⟩
    simp only [hk, Int.natCast_inj]
    exact exhausts_combinations

theorem wrappers_reach_iff_three :
    (((∃ sz, sizes 4 (2 : Int32) { a := [1, 2, 3], dst := [], cout := [], pushes := 0 } =
        .ok (sz, { a := [1, 2, 3], dst := [], cout := [], pushes := 0 })) ∧
      ∃ s', permutationOf 4 (2 : Int32) { a := [1, 2, 3], dst := [], cout := [], pushes := 0 } =
          .ok ((), s') ∧
        ∃ tuples, Exhausts tuples (fun p => (p.length : ℤ) = (2 : Int32).toInt ∧ p.Nodup) ∧
          s'.cout = [] ++ tuples.flatMap fun p => line (p.map ([1, 2, 3] : List ℕ).get)) ↔
      (2 : Int32).toInt < ([1, 2, 3] : List ℕ).length ∧ ([1, 2, 3] : List ℕ).length ≤ 12) ∧
    (((∃ sz, sizes 4 (2 : Int32) { a := [1, 2, 3], dst := [], cout := [], pushes := 0 } =
        .ok (sz, { a := [1, 2, 3], dst := [], cout := [], pushes := 0 })) ∧
      ∃ s', combineOf 4 (2 : Int32) { a := [1, 2, 3], dst := [], cout := [], pushes := 0 } =
          .ok ((), s') ∧
        ∃ tuples, Exhausts tuples
            (fun p => (p.length : ℤ) = (2 : Int32).toInt ∧ p.Pairwise (· < ·)) ∧
          s'.cout = [] ++ tuples.flatMap fun p => line (p.map ([1, 2, 3] : List ℕ).get)) ↔
      (2 : Int32).toInt < ([1, 2, 3] : List ℕ).length ∧ ([1, 2, 3] : List ℕ).length ≤ 12) :=
  wrappers_reach_iff { a := [1, 2, 3], dst := [], cout := [], pushes := 0 } 2 4 (by decide)
    (by decide)

/-- One element and `n = 1`: `factorial(0)` has no value. -/
theorem sizes_one : ¬ ∃ fuel sz s', sizes fuel (1 : Int32)
    { a := [(7 : Int32)], dst := [], cout := [], pushes := 0 } = .ok (sz, s') := by
  intro h
  obtain ⟨fuel, sz, s', hrun⟩ := h
  have hwp : wp (sizes fuel (1 : Int32)) (fun _ _ => True)
      { a := [(7 : Int32)], dst := [], cout := [], pushes := 0 } := ⟨sz, s', hrun, trivial⟩
  simp only [sizes, wp_bind, wp_get, wp_call, wp_pure] at hwp
  obtain ⟨_, _, -, hcount⟩ := hwp
  exact absurd (of_wp_lineCount hcount).1 (by decide)

end Permutation

end BlocTest
