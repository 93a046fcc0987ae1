import Mathlib.Data.List.FinRange
import Mathlib.Algebra.BigOperators.Ring.Finset
import Mathlib.Data.List.InsertIdx
import Mathlib.Data.List.Lex
import Mathlib.Data.List.Sort
import Mathlib.Data.Nat.Choose.Basic
import Mathlib.Data.Nat.Factorial.Basic
/-!
# Enumerating tuples by choosing one element at a time

A tuple of `n` elements of a list is chosen head first, and what is left to
choose its tail from depends on the position of the head: `Cut.rest` says
what. Dropping just the head gives the arrangements of `n` elements,
dropping everything up to it the combinations. Either way the tuples come in
lexicographic order of their positions, each once.

Nothing here knows of any particular program.
-/

namespace BlocTest

variable {α β : Type}

/-- What a choice at a position leaves to choose from. -/
structure Cut where
  rest : {β : Type} → List β → ℕ → List β
  rest_map : ∀ {β γ : Type} (f : β → γ) (l : List β) (i : ℕ), rest (l.map f) i = (rest l i).map f
  rest_sublist : ∀ {β : Type} (l : List β) (i : ℕ), (rest l i).Sublist l
  rest_length_lt : ∀ {β : Type} {l : List β} {i : ℕ}, i < l.length → (rest l i).length < l.length

/-- Leave all but the element chosen. -/
def others : Cut where
  rest := List.eraseIdx
  rest_map := fun f l i => List.eraseIdx_map f l i
  rest_sublist := List.eraseIdx_sublist
  rest_length_lt := fun hi => by rw [List.length_eraseIdx_of_lt hi]; omega

/-- Leave what follows the element chosen. -/
def following : Cut where
  rest := fun l i => l.drop (i + 1)
  rest_map := fun _ _ _ => List.map_drop.symm
  rest_sublist := fun _ _ => List.drop_sublist _ _
  rest_length_lt := fun hi => by rw [List.length_drop]; omega

variable {c : Cut} {n k : ℕ} {l t : List β} {x : β}

/-- The tuples of `n` elements of `l`, in the order of the choices. -/
def enumerate (c : Cut) : ℕ → List β → List (List β)
  | 0, _ => [[]]
  | n + 1, l => l.zipIdx.flatMap fun p => (enumerate c n (c.rest l p.2)).map (p.1 :: ·)

/-- The tuples of `n + 1` elements whose head is at position `k` or later. -/
def enumerateFrom (c : Cut) (n k : ℕ) (l : List β) : List (List β) :=
  (l.zipIdx.drop k).flatMap fun p => (enumerate c n (c.rest l p.2)).map (p.1 :: ·)

/-- How many choices are made on the way, those that lead nowhere
included. -/
def choices (c : Cut) : ℕ → List β → ℕ
  | 0, _ => 0
  | n + 1, l => (l.zipIdx.map fun p => choices c n (c.rest l p.2) + 1).sum

/-- The choices of a head at position `k` or later, and all that follow
them. -/
def choicesFrom (c : Cut) (n k : ℕ) (l : List β) : ℕ :=
  ((l.zipIdx.drop k).map fun p => choices c n (c.rest l p.2) + 1).sum

@[simp] theorem enumerate_zero : enumerate c 0 l = [[]] := rfl

theorem enumerate_succ : enumerate c (n + 1) l = enumerateFrom c n 0 l := rfl

theorem choices_succ : choices c (n + 1) l = choicesFrom c n 0 l := rfl

/-! ## Head by head -/

/-- The elements from a place on, with their places. -/
theorem drop_zipIdx (hk : l[k]? = some x) : l.zipIdx.drop k = (x, k) :: l.zipIdx.drop (k + 1) := by
  obtain ⟨hlt, hget⟩ := List.getElem?_eq_some_iff.1 hk
  rw [List.drop_eq_getElem_cons (by rwa [List.length_zipIdx]), List.getElem_zipIdx, hget,
    Nat.zero_add]

/-- The arrangements that start with the element at a place, and then those
that start further on. -/
theorem enumerateFrom_cons (hk : l[k]? = some x) : enumerateFrom c n k l =
    (enumerate c n (c.rest l k)).map (x :: ·) ++ enumerateFrom c n (k + 1) l := by
  rw [enumerateFrom, drop_zipIdx hk, List.flatMap_cons]
  rfl

/-- The same of their number. -/
theorem choicesFrom_cons (hk : l[k]? = some x) :
    choicesFrom c n k l = choices c n (c.rest l k) + 1 + choicesFrom c n (k + 1) l := by
  rw [choicesFrom, drop_zipIdx hk, List.map_cons, List.sum_cons]
  rfl

theorem drop_zipIdx_of_le (hk : l.length ≤ k) : l.zipIdx.drop k = [] :=
  List.drop_eq_nil_of_le (by rwa [List.length_zipIdx])

/-- So no arrangement starts there. -/
theorem enumerateFrom_of_le (hk : l.length ≤ k) : enumerateFrom c n k l = [] := by
  rw [enumerateFrom, drop_zipIdx_of_le hk, List.flatMap_nil]

/-- And none is counted. -/
theorem choicesFrom_of_le (hk : l.length ≤ k) : choicesFrom c n k l = 0 := by
  rw [choicesFrom, drop_zipIdx_of_le hk]
  rfl

/-- A tuple is a head and a tuple of what the head leaves. -/
theorem mem_enumerate_succ : t ∈ enumerate c (n + 1) l ↔
    ∃ x k, l[k]? = some x ∧ ∃ u ∈ enumerate c n (c.rest l k), x :: u = t := by
  simp only [enumerate, List.mem_flatMap, List.mem_map, Prod.exists, List.mk_mem_zipIdx_iff_getElem?]

/-- The choices are of positions, so they commute with any change of the
elements. -/
theorem enumerate_map (f : α → β) (l : List α) :
    enumerate c n (l.map f) = (enumerate c n l).map (List.map f) := by
  induction n generalizing l with
  | zero => rfl
  | succ n ih =>
      rw [enumerate, enumerate, List.zipIdx_map, List.flatMap_map, List.map_flatMap]
      refine List.flatMap_congr fun p _ => ?_
      simp only [Prod.map_fst, Prod.map_snd, id_eq, c.rest_map, ih, List.map_map]
      rfl

/-- **The tuples come in lexicographic order, each once.** -/
theorem enumerate_pairwise [LinearOrder β] (hl : l.Pairwise (· < ·)) :
    (enumerate c n l).Pairwise (· < ·) := by
  induction n generalizing l with
  | zero => exact List.pairwise_singleton _ _
  | succ n ih =>
      rw [enumerate, List.pairwise_flatMap]
      constructor
      · -- tuples with one head are ordered as their tails are
        rintro ⟨x, k⟩ -
        rw [List.pairwise_map]
        refine (ih (hl.sublist (c.rest_sublist l k))).imp fun h => ?_
        exact List.cons_lt_cons_iff.2 (.inr ⟨rfl, h⟩)
      · -- and heads come in the order of the list
        have hheads : (l.zipIdx.map Prod.fst).Pairwise (· < ·) := by rwa [List.zipIdx_map_fst]
        refine (List.pairwise_map.1 hheads).imp ?_
        rintro ⟨x, i⟩ ⟨y, j⟩ hxy t ht u hu
        obtain ⟨t', -, rfl⟩ := List.mem_map.1 ht
        obtain ⟨u', -, rfl⟩ := List.mem_map.1 hu
        exact List.cons_lt_cons_iff.2 (.inl hxy)

/-! ## Arrangements -/

/-- **Arrangements of distinct elements**: the tuples of `n` of them without
a repeat. -/
theorem mem_enumerate_others (hl : l.Nodup) :
    t ∈ enumerate others n l ↔ t.length = n ∧ t.Nodup ∧ t ⊆ l := by
  classical
  induction n generalizing l t with
  | zero =>
      rw [enumerate_zero, List.mem_singleton, List.length_eq_zero_iff]
      exact ⟨by rintro rfl; simp, fun h => h.1⟩
  | succ n ih =>
      rw [mem_enumerate_succ]
      constructor
      · rintro ⟨x, k, hx, u, hu, rfl⟩
        obtain ⟨hlt, rfl⟩ := List.getElem?_eq_some_iff.1 hx
        have hrest : others.rest l k = l.erase l[k] := (hl.erase_getElem k hlt).symm
        rw [hrest, ih (hl.erase _)] at hu
        obtain ⟨hlen, hnd, hsub⟩ := hu
        have hnot : l[k] ∉ u := fun hmem => hl.not_mem_erase (hsub hmem)
        refine ⟨by rw [List.length_cons, hlen], List.nodup_cons.2 ⟨hnot, hnd⟩, ?_⟩
        exact List.cons_subset.2 ⟨List.getElem_mem hlt, fun y hy => List.mem_of_mem_erase (hsub hy)⟩
      · intro h
        obtain ⟨hlen, hnd, hsub⟩ := h
        obtain ⟨x, u, rfl⟩ := List.exists_cons_of_length_eq_add_one hlen
        obtain ⟨hx, hu⟩ := List.nodup_cons.1 hnd
        obtain ⟨hxl, hul⟩ := List.cons_subset.1 hsub
        obtain ⟨k, hlt, rfl⟩ := List.getElem_of_mem hxl
        have hrest : others.rest l k = l.erase l[k] := (hl.erase_getElem k hlt).symm
        refine ⟨l[k], k, List.getElem?_eq_getElem hlt, u, ?_, rfl⟩
        rw [hrest, ih (hl.erase _)]
        refine ⟨by simpa using hlen, hu, fun y hy => ?_⟩
        exact (List.mem_erase_of_ne (ne_of_mem_of_not_mem hy hx)).2 (hul hy)

/-- Over the positions of a list, a constant sums to a product. -/
theorem sum_zipIdx {f : β × ℕ → ℕ} {d : ℕ} (h : ∀ p ∈ l.zipIdx, f p = d) :
    (l.zipIdx.map f).sum = l.length * d := by
  rw [List.map_congr_left h, List.map_const', List.sum_replicate_nat, List.length_zipIdx]

/-- Without one of the elements there is one less. -/
theorem length_others {p : β × ℕ} (hp : p ∈ l.zipIdx) :
    (others.rest l p.2).length = l.length - 1 := by
  have hlt := (List.getElem?_eq_some_iff.1 (List.mem_zipIdx_iff_getElem?.1 hp)).1
  exact List.length_eraseIdx_of_lt hlt

/-- A falling factorial, one factor at a time. -/
theorem mul_descFactorial_pred {m : ℕ} :
    m * (m - 1).descFactorial k = m.descFactorial (k + 1) := by
  cases m with
  | zero => rw [Nat.zero_mul, Nat.zero_descFactorial_succ]
  | succ m => rw [Nat.succ_descFactorial_succ, Nat.add_sub_cancel]

/-- There are as many arrangements as the falling factorial says. -/
theorem length_enumerate_others :
    (enumerate others n l).length = l.length.descFactorial n := by
  induction n generalizing l with
  | zero => rfl
  | succ n ih =>
      rw [enumerate, List.length_flatMap, sum_zipIdx (d := (l.length - 1).descFactorial n)]
      · exact mul_descFactorial_pred
      · intro p hp
        rw [List.length_map, ih, length_others hp]

/-- **The choices on the way to the arrangements** are as many as there are
arrangements of one element, of two, and so on. -/
theorem choices_others :
    choices others n l = ∑ i ∈ Finset.range n, l.length.descFactorial (i + 1) := by
  induction n generalizing l with
  | zero => rfl
  | succ n ih =>
      rw [choices, sum_zipIdx (d := ∑ i ∈ Finset.range n, (l.length - 1).descFactorial (i + 1) + 1)]
      · rw [Finset.sum_range_succ', Nat.zero_add, Nat.descFactorial_one, Nat.mul_add, Nat.mul_one,
          Finset.mul_sum]
        refine congrArg (· + l.length) (Finset.sum_congr rfl fun i _ => ?_)
        exact mul_descFactorial_pred
      · intro p hp
        rw [ih, length_others hp]

/-! ## Combinations -/

/-- **Take the first element or skip it.** -/
theorem enumerate_following_cons : enumerate following (n + 1) (x :: l) =
    (enumerate following n l).map (x :: ·) ++ enumerate following (n + 1) l := by
  have hskip : enumerateFrom following n 1 (x :: l) = enumerate following (n + 1) l := by
    rw [enumerateFrom, List.zipIdx_cons, List.drop_succ_cons, List.drop_zero, List.zipIdx_succ,
      List.flatMap_map]
    rfl
  rw [enumerate_succ, enumerateFrom_cons (x := x) rfl, hskip]
  rfl

theorem enumerate_following_nil : enumerate following (n + 1) ([] : List β) = [] := rfl

/-- **Combinations**: the sublists of `n` elements. -/
theorem mem_enumerate_following : t ∈ enumerate following n l ↔ t.length = n ∧ t.Sublist l := by
  induction l generalizing n t with
  | nil =>
      rw [List.sublist_nil]
      cases n with
      | zero => simp
      | succ n =>
          rw [enumerate_following_nil]
          refine iff_of_false List.not_mem_nil ?_
          rintro ⟨hlen, rfl⟩
          cases hlen
  | cons x l ih =>
      cases n with
      | zero =>
          rw [enumerate_zero, List.mem_singleton, List.length_eq_zero_iff]
          exact ⟨by rintro rfl; simp, fun h => h.1⟩
      | succ n =>
          rw [enumerate_following_cons, List.mem_append, List.mem_map, ih, List.sublist_cons_iff]
          constructor
          · rintro (⟨u, hu, rfl⟩ | ⟨hlen, hsub⟩)
            · obtain ⟨hlen, hsub⟩ := ih.1 hu
              exact ⟨by rw [List.length_cons, hlen], .inr ⟨u, rfl, hsub⟩⟩
            · exact ⟨hlen, .inl hsub⟩
          · rintro ⟨hlen, hsub | ⟨u, rfl, hsub⟩⟩
            · exact .inr ⟨hlen, hsub⟩
            · exact .inl ⟨u, ih.2 ⟨by simpa using hlen, hsub⟩, rfl⟩

/-- There are as many combinations as the binomial coefficient says. -/
theorem length_enumerate_following :
    (enumerate following n l).length = l.length.choose n := by
  induction l generalizing n with
  | nil =>
      cases n with
      | zero => rfl
      | succ n => rw [enumerate_following_nil, List.length_nil, List.length_nil, Nat.choose_zero_succ]
  | cons x l ih =>
      cases n with
      | zero => rw [enumerate_zero, Nat.choose_zero_right, List.length_singleton]
      | succ n =>
          rw [enumerate_following_cons, List.length_append, List.length_map, ih, ih,
            List.length_cons, Nat.choose_succ_succ]

/-! ## Tuples of positions -/

section Positions

variable {m : ℕ}

/-- `tuples` lists the tuples of positions with the property `P`, each once
and in lexicographic order. -/
structure Exhausts (tuples : List (List (Fin m))) (P : List (Fin m) → Prop) : Prop where
  sorted : tuples.Pairwise (· < ·)
  mem_iff : ∀ p, p ∈ tuples ↔ P p

theorem pairwise_finRange (m : ℕ) : (List.finRange m).Pairwise (· < ·) :=
  (List.sortedLT_finRange m).pairwise

/-- The arrangements of positions: the tuples without a repeat. -/
theorem exhausts_arrangements :
    Exhausts (enumerate others n (List.finRange m)) fun p => p.length = n ∧ p.Nodup := by
  refine ⟨enumerate_pairwise (pairwise_finRange m), fun p => ?_⟩
  rw [mem_enumerate_others (List.nodup_finRange m)]
  simp only [List.subset_def, List.mem_finRange, implies_true, and_true]

/-- The combinations of positions: the increasing tuples. -/
theorem exhausts_combinations :
    Exhausts (enumerate following n (List.finRange m)) fun p =>
      p.length = n ∧ p.Pairwise (· < ·) := by
  refine ⟨enumerate_pairwise (pairwise_finRange m), fun p => ?_⟩
  rw [mem_enumerate_following]
  refine and_congr_right fun _ => ⟨fun h => (pairwise_finRange m).sublist h, fun h => ?_⟩
  have hsub : p ⊆ List.finRange m := fun i _ => List.mem_finRange i
  exact List.sublist_of_subperm_of_pairwise (List.Nodup.subperm (h.imp ne_of_lt) hsub) h
    (pairwise_finRange m)

/-- The tuples of elements of a list are those at the tuples of its
positions. -/
theorem enumerate_positions (l : List β) : enumerate c n l =
    (enumerate c n (List.finRange l.length)).map fun p => p.map l.get := by
  rw [← enumerate_map, List.map_get_finRange]

end Positions

end BlocTest
