import BlocTest.FastSort.Helpers.Partition
/-!
# What a call of `fast_sort` does

A call sorts the array it is given and changes nothing else. It reads one
cell past the end of the array exactly when the recursion on the right part
comes down to an empty array: every call on one reads what would be its first
element.
-/

namespace BlocTest

namespace FastSort

open Prog

variable {s t u v : Memory} {a n fuel : ℕ} {key dataLen : Int32} {xs left right : List Int32}

/-- `t` comes of `s` by accesses to the `n` cells from `a` on and the one
after them, and to this one exactly when `xs` does not end alone. -/
def Logs (a n : ℕ) (xs : List Int32) (s t : Memory) : Prop :=
  ∃ new, t.accesses = s.accesses ++ new ∧ (∀ p ∈ new, Within a (n + 1) p) ∧
    (a + n ∈ new ↔ ¬ EndsAlone xs)

/-- `t` comes of `s` by sorting the `n` cells from `a` on. -/
structure Sorts (a n : ℕ) (s t : Memory) : Prop where
  sorted : (slice t.cells a n).Pairwise (· ≤ ·)
  perm : (slice t.cells a n).Perm (slice s.cells a n)
  off : ∀ p, ¬ Within a n p → t.cells p = s.cells p
  logs : Logs a n (slice s.cells a n) s t

theorem within_mono {b m p : ℕ} (h : Within b m p) (ha : a ≤ b) (hn : b + m ≤ a + n) :
    Within a n p := by
  unfold Within at h ⊢
  omega

/-- **A call that returns at once** has read one element, there or not. -/
theorem sorts_short (h : n ≤ 1) : Sorts a n s (s.reads a) := by
  have hin : ∀ p ∈ [a], Within a (n + 1) p :=
    List.forall_mem_singleton.2 ⟨Nat.le_refl a, by omega⟩
  rcases Nat.lt_or_ge n 1 with h0 | h1
  · obtain rfl : n = 0 := by omega
    have hlogs : a + 0 ∈ [a] ↔ ¬ EndsAlone ([] : List Int32) :=
      iff_of_true List.mem_cons_self not_endsAlone_nil
    exact ⟨List.Pairwise.nil, List.Perm.refl _, fun _ _ => rfl, [a], rfl, hin, hlogs⟩
  · obtain rfl : n = 1 := by omega
    have hlogs : a + 1 ∈ [a] ↔ ¬ EndsAlone [s.cells a] :=
      iff_of_false (by simp) (not_not_intro (EndsAlone.single (s.cells a)))
    exact ⟨List.pairwise_singleton _ _, List.Perm.refl _, fun _ _ => rfl, [a], rfl, hin, hlogs⟩

/-! ## A call that recurses -/

/-- The cell past the end is accessed by the second call, if at all. -/
theorem logs_parts {ys zs : List Int32} {l r : ℕ} (hst : Touches a n s t) (hn : n = l + (r + 1))
    (hl : Logs a l ys t u) (hr : Logs (a + (l + 1)) r zs u v) : Logs a n zs s v := by
  obtain ⟨new₁, hlog₁, hin₁⟩ := hst.log
  obtain ⟨new₂, hlog₂, hin₂, -⟩ := hl
  obtain ⟨new₃, hlog₃, hin₃, hend⟩ := hr
  have hpast : a + (l + 1) + r = a + n := by omega
  have hbefore : a + n ∉ new₁ ++ new₂ := by
    intro hmem
    rcases List.mem_append.1 hmem with hmem | hmem
    · exact Nat.lt_irrefl _ (hin₁ _ hmem).2
    · have := (hin₂ _ hmem).2
      omega
  refine ⟨new₁ ++ new₂ ++ new₃, ?_, ?_, ?_⟩
  · rw [hlog₃, hlog₂, hlog₁, List.append_assoc, List.append_assoc, List.append_assoc]
  · intro p hmem
    rcases List.mem_append.1 hmem with hmem | hmem
    · rcases List.mem_append.1 hmem with hmem | hmem
      · exact within_mono (hin₁ p hmem) (Nat.le_refl a) (by omega)
      · exact within_mono (hin₂ p hmem) (Nat.le_refl a) (by omega)
    · exact within_mono (hin₃ p hmem) (by omega) (by omega)
  · rw [List.mem_append, or_iff_right hbefore, ← hpast, hend]

/-- **The two calls sort the whole.** -/
theorem sorts_parts (hs : slice s.cells a n = key :: xs) (hxs : xs ≠ [])
    (hp : Parted key (key :: xs) left right) (ht : slice t.cells a n = left ++ key :: right)
    (hst : Touches a n s t) (hl : Sorts a left.length t u)
    (hr : Sorts (a + (left.length + 1)) right.length u v) : Sorts a n s v := by
  have hlen := length_of_slice ht
  rw [List.length_append, List.length_cons] at hlen
  obtain ⟨htl, htk, htr⟩ := slice_parts ht
  -- each call leaves alone what the other one sorts, and the key
  have hur : slice u.cells (a + (left.length + 1)) right.length = right := by
    refine (slice_congr fun p hp => hl.off p fun hin => ?_).trans htr
    unfold Within at hp hin
    omega
  have hvl : slice v.cells a left.length = slice u.cells a left.length := by
    refine slice_congr fun p hp => hr.off p fun hin => ?_
    unfold Within at hp hin
    omega
  have hkey : v.cells (a + left.length) = key := by
    rw [hr.off _ (by unfold Within; omega), hl.off _ (by unfold Within; omega), htk]
  have hv : slice v.cells a n = slice v.cells a left.length ++
      key :: slice v.cells (a + (left.length + 1)) right.length := by
    rw [hlen, slice_around, hkey]
  have hperm := hl.perm
  have hperm' := hr.perm
  have hlogs := logs_parts hst hlen hl.logs hr.logs
  rw [htl, ← hvl] at hperm
  rw [hur] at hperm' hlogs
  obtain ⟨hsorted, hall⟩ := hp.sorted (hvl ▸ hl.sorted) hr.sorted hperm hperm'
  refine ⟨hv ▸ hsorted, by rw [hv, hs]; exact hall, fun p hp => ?_, ?_⟩
  · rw [hr.off p fun hin => hp (within_mono hin (by omega) (by omega)),
      hl.off p fun hin => hp (within_mono hin (by omega) (by omega)), hst.off p hp]
  · rw [hs]
    obtain ⟨new, hlog, hin, hend⟩ := hlogs
    exact ⟨new, hlog, hin, by rw [hend, endsAlone_cons hxs, hp.above]⟩

/-- **A call sorts its array.** -/
theorem wp_fastSort (hn : dataLen.toInt = n) (hf : n < fuel) :
    wp (fastSort fuel (some a) dataLen) (fun _ t => Sorts a n s t) s := by
  induction fuel generalizing a n dataLen s with
  | zero => omega
  | succ fuel ih =>
      have hmax := dataLen.toInt_lt
      have h0 : (0 : Int32).toInt = (0 : ℕ) := rfl
      unfold fastSort
      simp only [wp_bind, wp_load h0, wp_ite, wp_pure, reduceCtorEq, false_or, Nat.add_zero]
      have hle : dataLen ≤ 1 ↔ n ≤ 1 := by
        have h1 : (1 : Int32).toInt = 1 := rfl
        rw [Int32.le_iff_toInt_le, hn, h1]
        omega
      rw [hle]
      refine ⟨fun hshort => sorts_short hshort, fun hlong => ?_⟩
      refine wp_mono (wp_printLoop hn hf) fun _ t ht => ?_
      obtain ⟨hcells, htouch⟩ := ht
      -- there are at least two elements, and the first one is the key
      obtain ⟨m, rfl⟩ : ∃ m, n = m + 1 := ⟨n - 1, by omega⟩
      have hs : slice s.cells a (m + 1) = s.cells a :: slice s.cells (a + 1) m := slice_succ
      have hxs : slice s.cells (a + 1) m ≠ [] := by
        rw [← List.length_pos_iff, length_slice]
        omega
      have hexact : dataLen.toInt - 1 = (slice s.cells (a + 1) m).length := by
        rw [length_slice, hn]
        omega
      obtain ⟨hfit, hlast⟩ := fits_and_toInt hexact (by rw [length_slice]; omega)
      rw [wp_print, wp_signed]
      refine ⟨hfit, ?_⟩
      have ht : slice t.cells a (m + 1) = s.cells a :: slice s.cells (a + 1) m := by
        rw [hcells, cells_reads, hs]
      refine wp_mono (wp_partitionLoop ht hxs (by omega) hlast (Nat.le_of_lt hf)) fun i u hu => ?_
      obtain ⟨left, right, hparted, hu, hi, htouch'⟩ := hu
      have hlen := length_of_slice hu
      rw [List.length_append, List.length_cons] at hlen
      have hst : Touches a (m + 1) s u := by
        have hfirst : Within a (m + 1) a := ⟨Nat.le_refl a, by omega⟩
        exact ((touches_reads hfirst).trans htouch).trans (touches_print.trans htouch')
      -- the two calls, on what the key has to its left and to its right
      rw [wp_address h0]
      refine wp_mono (ih hi (by omega)) fun _ v hv => ?_
      have hexact' : (Int32.ofInt (dataLen.toInt - 1)).toInt - i.toInt = right.length := by
        rw [hlast, length_slice, hi]
        omega
      obtain ⟨hfit', hnext⟩ := fits_and_toInt_succ hi (by omega)
      obtain ⟨hfit'', hrest⟩ := fits_and_toInt hexact' (by omega)
      simp only [wp_signed, wp_address hnext]
      refine ⟨hfit', hfit, hfit'', ?_⟩
      refine wp_mono (ih hrest (by omega)) fun _ w hw => ?_
      exact sorts_parts hs hxs hparted hu hst hv hw

end FastSort

end BlocTest
