import BlocTest.TwoSum.Model.TwoSum
/-!
# What the search finds

The loop over `i` keeps two facts: `data` holds what each earlier position
is waiting for, in order, and no pair has been closed so far. An element is
appended after it was looked up, so no position is paired with itself.
-/

namespace BlocTest

namespace TwoSum

open Prog

/-- The elements at `j` and `i` sum to `target`. -/
def Sums (nums : List ℤ) (target : ℤ) (j i : ℕ) : Prop :=
  ∃ x y, nums[j]? = some x ∧ nums[i]? = some y ∧ x + y = target

/-- `i` is the first position that closes a pair, and `j` its first partner. -/
structure FirstPair (nums : List ℤ) (target : ℤ) (j i : ℕ) : Prop where
  lt : j < i
  sums : Sums nums target j i
  first : ∀ j' i', j' < i' → Sums nums target j' i' → i ≤ i'
  partner : ∀ j', j' ≠ i → Sums nums target j' i → j ≤ j'

/-- What `twoSum` is to return. -/
def Answers (nums : List ℤ) (target : ℤ) : Option (List ℕ) → Prop
  | none => ∀ j i, j ≠ i → ¬ Sums nums target j i
  | some r => ∃ j i, r = [j, i] ∧ FirstPair nums target j i

variable {nums : List ℤ} {target x : ℤ} {i j k : ℕ} {s : Locals}

theorem Sums.symm (h : Sums nums target j i) : Sums nums target i j := by
  obtain ⟨x, y, hx, hy, hsum⟩ := h
  exact ⟨y, x, hy, hx, by rw [Int.add_comm, hsum]⟩

theorem Sums.lt_length (h : Sums nums target j i) : i < nums.length := by
  obtain ⟨-, y, -, hy, -⟩ := h
  exact (List.getElem?_eq_some_iff.1 hy).1

/-! ## The statements of the loops -/

variable {Q : Unit → Locals → Prop} {R : ℤ → Locals → Prop}

theorem wp_print : wp (print x) Q s ↔ Q () { s with printed := s.printed ++ [x] } := wp_modify

theorem wp_append : wp (append x) Q s ↔ Q () { s with data := s.data ++ [x] } := wp_modify

theorem wp_item {xs : List ℤ} (hx : xs[i]? = some x) : wp (item xs i) R s ↔ R x s := by
  rw [item, hx]
  exact wp_pure

/-! ## One position -/

/-- The positions before `k` have been looked up and none closes a pair. -/
structure Searched (nums : List ℤ) (target : ℤ) (k : ℕ) (s : Locals) : Prop where
  data : s.data = (nums.take k).map (target - ·)
  unclosed : ∀ j i, j < i → i < k → ¬ Sums nums target j i

theorem Searched.length_data (h : Searched nums target k s) (hk : k ≤ nums.length) :
    s.data.length = k := by
  rw [h.data, List.length_map, List.length_take, Nat.min_eq_left hk]

theorem Searched.getElem?_data (h : Searched nums target k s) (hj : j < k) :
    s.data[j]? = nums[j]?.map (target - ·) := by
  rw [h.data, List.getElem?_map, List.getElem?_take_of_lt hj]

/-- No partner of `i` is before `m`. -/
def Alone (nums : List ℤ) (target : ℤ) (i m : ℕ) : Prop := ∀ j < m, ¬ Sums nums target j i

/-- **A comparison** answers with the pair it closes, and otherwise moves the
search for a partner on by one. -/
theorem wp_compare (hi : i < nums.length) (hj : j < i) (hs : Searched nums target i s)
    (halone : Alone nums target i j) :
    wp (compare nums i j)
      (Pass (fun t => Searched nums target i t ∧ Alone nums target i (j + 1))
        fun r _ => Answers nums target r) s := by
  have hx := List.getElem?_eq_getElem hi
  have hw := List.getElem?_eq_getElem (Nat.lt_trans hj hi)
  have hy := hs.getElem?_data hj
  rw [hw, Option.map_some] at hy
  unfold compare
  simp only [wp_bind, wp_get, wp_item hx, wp_item hy, wp_ite, wp_print, wp_pure, pass_none,
    pass_some]
  refine ⟨fun hne => ⟨⟨hs.data, hs.unclosed⟩, fun j' hj' => ?_⟩, fun heq => ?_⟩
  · rcases Nat.lt_succ_iff_lt_or_eq.1 hj' with hlt | rfl
    · exact halone j' hlt
    · intro hsum
      obtain ⟨x', y', hx', hy', hsum⟩ := hsum
      rw [hw] at hx'
      rw [hx] at hy'
      cases hx'
      cases hy'
      omega
  · have hsum : Sums nums target j i := ⟨_, _, hw, hx, by omega⟩
    refine ⟨j, i, rfl, hj, hsum, fun j' i' hlt h => ?_, fun j' _ h => ?_⟩
    · exact Nat.le_of_not_lt fun hi' => hs.unclosed j' i' hlt hi' h
    · exact Nat.le_of_not_lt fun hj' => halone j' hj' h

/-- **A visit** to `i` answers with its first partner before it, and otherwise
adds what `i` is waiting for. -/
theorem wp_visit (hi : i < nums.length) (hs : Searched nums target i s) :
    wp (visit nums target i)
      (Pass (Searched nums target (i + 1)) fun r _ => Answers nums target r) s := by
  unfold visit
  simp only [wp_bind, wp_get, wp_print, hs.length_data (Nat.le_of_lt hi)]
  refine wp_forReturn_range (fun m t => Searched nums target i t ∧ Alone nums target i m) ?_ ?_
    ⟨⟨hs.data, hs.unclosed⟩, fun j hj => absurd hj (Nat.not_lt_zero j)⟩
  · intro j t hj ht
    refine wp_mono (wp_compare hi hj ht.1 ht.2) fun r u hr => ?_
    cases r with
    | none => exact hr
    | some a => exact wp_pure.2 hr
  · intro t ht
    have hx := List.getElem?_eq_getElem hi
    simp only [wp_bind, wp_item hx, wp_append, wp_pure, pass_none]
    refine ⟨?_, fun j i' hlt hi' => ?_⟩
    · rw [ht.1.data, List.take_add_one, hx, List.map_append]
      rfl
    · rcases Nat.lt_succ_iff_lt_or_eq.1 hi' with hlt' | rfl
      · exact ht.1.unclosed j i' hlt hlt'
      · exact ht.2 j hlt

/-! ## The whole search -/

theorem wp_twoSum (nums : List ℤ) (target : ℤ) (s : Locals) :
    wp (twoSum nums target) (fun r _ => Answers nums target r) s := by
  unfold twoSum
  simp only [wp_bind, wp_modify, wp_print]
  refine wp_forReturn_range (Searched nums target) (fun i t hi ht => wp_visit hi ht) ?_
    ⟨rfl, fun j i _ hi => absurd hi (Nat.not_lt_zero i)⟩
  intro t ht j i hne hsum
  rcases Nat.lt_or_gt_of_ne hne with hlt | hgt
  · exact ht.unclosed j i hlt hsum.lt_length hsum
  · exact ht.unclosed i j hgt hsum.symm.lt_length hsum.symm

/-- **The first pair.** `twoSum` returns `None` exactly when no two positions
sum to the target, and otherwise the first position that closes a pair,
together with its first partner. -/
theorem twoSum_first (nums : List ℤ) (target : ℤ) (s : Locals) :
    ∃ r s', twoSum nums target s = .ok (r, s') ∧
      (r = none ↔ ∀ j i, j ≠ i → ¬ Sums nums target j i) ∧
      (r ≠ none → ∃ j i, r = some [j, i] ∧ j < i ∧ Sums nums target j i ∧
        (∀ j' i', j' < i' → Sums nums target j' i' → i ≤ i') ∧
        ∀ j', j' ≠ i → Sums nums target j' i → j ≤ j') := by
  obtain ⟨r, s', hrun, hr⟩ := wp_twoSum nums target s
  refine ⟨r, s', hrun, ?_⟩
  cases r with
  | none => exact ⟨iff_of_true rfl hr, fun h => absurd rfl h⟩
  | some answer =>
      obtain ⟨j, i, rfl, hpair⟩ := hr
      refine ⟨iff_of_false (Option.some_ne_none _) fun hnone => ?_, fun _ => ?_⟩
      · exact hnone j i (Nat.ne_of_lt hpair.lt) hpair.sums
      · exact ⟨j, i, rfl, hpair.lt, hpair.sums, hpair.first, hpair.partner⟩

/-- A pair of equal elements, each half of the target. -/
example : (twoSum [22222, 22222] 44444 ⟨[], []⟩).toOption.map Prod.fst = some (some [0, 1]) := by
  decide

end TwoSum

end BlocTest
