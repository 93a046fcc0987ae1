import Mathlib.Data.Nat.Notation
import Mathlib.Tactic.Common
/-!
# Overwriting stretches of an array

An array is a map from positions, `overwrite d a xs` has `xs` written at
`a`, and `slice` reads a stretch back. Writes at one place compose by laying
one list over the other, writes at adjoining places by appending, and a
sequence of writes is decided, position by position, by the last one that
covers it.
-/

namespace BlocTest

variable {β ρ : Type} {d d' : ℕ → β} {xs ys : List β} {a b i k m n : ℕ}

/-- Position `i` is among the `n` positions from `a` on. -/
def Within (a n i : ℕ) : Prop := a ≤ i ∧ i < a + n

instance (a n i : ℕ) : Decidable (Within a n i) := inferInstanceAs (Decidable (_ ∧ _))

/-- The `n` elements from `a` on. -/
def slice (d : ℕ → β) (a n : ℕ) : List β := (List.range n).map fun i => d (a + i)

/-- Write `xs` at `a`. -/
def overwrite (d : ℕ → β) (a : ℕ) (xs : List β) : ℕ → β :=
  fun i => if a ≤ i then xs[i - a]?.getD (d i) else d i

/-- Lay `ys` over the front of `xs`. -/
def layer (xs ys : List β) : List β := ys ++ xs.drop ys.length

/-! ## One write -/

@[simp] theorem length_slice : (slice d a n).length = n := by
  rw [slice, List.length_map, List.length_range]

theorem length_of_slice (h : slice d a n = xs) : n = xs.length := by
  rw [← h, length_slice]

/-- The elements of a stretch are those at its places. -/
theorem getElem?_slice (hi : i < n) : (slice d a n)[i]? = some (d (a + i)) := by
  rw [slice, List.getElem?_map, List.getElem?_range hi, Option.map_some]

/-- A stretch starts with its first element. -/
theorem slice_succ : slice d a (n + 1) = d a :: slice d (a + 1) n := by
  unfold slice
  rw [List.range_succ_eq_map, List.map_cons, List.map_map, Nat.add_zero]
  refine congrArg _ (List.map_congr_left fun i _ => ?_)
  rw [Function.comp_apply, Nat.succ_eq_add_one, Nat.add_assoc, Nat.add_comm 1 i]

/-- A stretch is taken apart at any place. -/
theorem slice_append : slice d a (m + n) = slice d a m ++ slice d (a + m) n := by
  unfold slice
  rw [List.range_add, List.map_append, List.map_map]
  refine congrArg _ (List.map_congr_left fun i _ => ?_)
  rw [Function.comp_apply, Nat.add_assoc]

/-- A stretch around the element at `m`. -/
theorem slice_around :
    slice d a (m + (n + 1)) = slice d a m ++ d (a + m) :: slice d (a + (m + 1)) n := by
  rw [slice_append, slice_succ, Nat.add_assoc]

/-- What agrees on a stretch has one stretch. -/
theorem slice_congr (h : ∀ i, Within a n i → d i = d' i) : slice d a n = slice d' a n :=
  List.map_congr_left fun i hi =>
    h (a + i) ⟨Nat.le_add_right a i, Nat.add_lt_add_left (List.mem_range.1 hi) a⟩

/-- The parts of a stretch around one of its elements. -/
theorem slice_parts {x : β} (h : slice d a n = xs ++ x :: ys) :
    slice d a xs.length = xs ∧ d (a + xs.length) = x ∧
      slice d (a + (xs.length + 1)) ys.length = ys := by
  have hlen := length_of_slice h
  rw [List.length_append, List.length_cons] at hlen
  rw [hlen, slice_around] at h
  obtain ⟨hleft, hright⟩ := List.append_inj h length_slice
  exact ⟨hleft, List.cons.inj hright⟩

/-- Reading an element of a stretch. -/
theorem apply_of_slice {x : β} (h : slice d a n = xs ++ x :: ys) : d (a + xs.length) = x :=
  (slice_parts h).2.1

/-- Where it is written there is what was written. -/
theorem overwrite_within (h : Within a xs.length i) : some (overwrite d a xs i) = xs[i - a]? := by
  obtain ⟨hle, hlt⟩ := h
  rw [overwrite, if_pos hle, List.getElem?_eq_getElem (by omega), Option.getD_some]

/-- And elsewhere what was there. -/
theorem overwrite_off (h : ¬ Within a xs.length i) : overwrite d a xs i = d i := by
  unfold overwrite
  split
  · rename_i hle
    have hlen : xs.length ≤ i - a := by
      unfold Within at h
      omega
    rw [List.getElem?_eq_none_iff.2 hlen, Option.getD_none]
  · rfl

@[simp] theorem overwrite_nil : overwrite d a [] = d :=
  funext fun i => overwrite_off fun h => by
    obtain ⟨hle, hlt⟩ := h
    rw [List.length_nil] at hlt
    omega

/-- Two writes agree where what they write agrees, and elsewhere where what
was there does. -/
theorem overwrite_congr (h : Within a xs.length i → xs[i - a]? = ys[i - a]?)
    (hlen : xs.length = ys.length) (hd : ¬ Within a xs.length i → d i = d' i) :
    overwrite d a xs i = overwrite d' a ys i := by
  by_cases hi : Within a xs.length i
  · have heq := h hi
    rw [← overwrite_within hi, ← overwrite_within (hlen ▸ hi)] at heq
    exact Option.some.inj heq
  · rw [overwrite_off hi, overwrite_off (hlen ▸ hi), hd hi]

/-- Writing an element of a stretch. -/
theorem slice_overwrite_single {x y : β} (h : slice d a n = xs ++ x :: ys) :
    slice (overwrite d (a + xs.length) [y]) a n = xs ++ y :: ys := by
  have hset : xs ++ y :: ys = (xs ++ x :: ys).set xs.length y := by simp
  rw [hset, ← h]
  refine List.ext_getElem? fun i => ?_
  by_cases hi : i < n
  · rw [getElem?_slice hi, List.getElem?_set]
    by_cases heq : xs.length = i
    · have hin : Within (a + xs.length) [y].length (a + xs.length) :=
        ⟨Nat.le_refl _, Nat.lt_succ_self _⟩
      rw [← heq, if_pos rfl, if_pos (by rwa [length_slice, heq]), overwrite_within hin,
        Nat.sub_self]
      rfl
    · have hoff : ¬ Within (a + xs.length) [y].length (a + i) := by
        unfold Within
        rw [List.length_singleton]
        omega
      rw [if_neg heq, getElem?_slice hi, overwrite_off hoff]
  · rw [List.getElem?_eq_none_iff.2 (by rw [length_slice]; omega),
      List.getElem?_eq_none_iff.2 (by rw [List.length_set, length_slice]; omega)]

/-- A write that stops before a stretch leaves it alone. -/
theorem slice_overwrite_before (h : a + xs.length ≤ b) :
    slice (overwrite d a xs) b n = slice d b n := by
  refine List.map_congr_left fun i _ => overwrite_off fun hi => ?_
  unfold Within at hi
  omega

/-! ## Two writes -/

/-- A write may be cut in two. -/
theorem overwrite_append :
    overwrite d a (xs ++ ys) = overwrite (overwrite d a xs) (a + xs.length) ys := by
  funext i
  by_cases hi : a + xs.length ≤ i
  · rw [overwrite, if_pos (by omega), List.getElem?_append_right (by omega), overwrite, if_pos hi,
      overwrite_off (fun h => by rw [Within] at h; omega), Nat.sub_add_eq]
  · rw [overwrite, overwrite, if_neg hi, overwrite]
    split
    · rw [List.getElem?_append_left (by omega)]
    · rfl

theorem length_layer : (layer xs ys).length = max xs.length ys.length := by
  rw [layer, List.length_append, List.length_drop]
  omega

theorem getElem?_layer_top (h : i < ys.length) : (layer xs ys)[i]? = ys[i]? := by
  rw [layer, List.getElem?_append_left h]

theorem getElem?_layer_below (h : ys.length ≤ i) : (layer xs ys)[i]? = xs[i]? := by
  rw [layer, List.getElem?_append_right h, List.getElem?_drop, Nat.add_sub_cancel' h]

/-- A write at the front of a stretch is laid over it. -/
theorem slice_overwrite (h : ys.length ≤ n) :
    slice (overwrite d a ys) a n = layer (slice d a n) ys := by
  refine List.ext_getElem? fun i => ?_
  by_cases hi : i < n
  · rw [getElem?_slice hi]
    by_cases hys : i < ys.length
    · have hin : Within a ys.length (a + i) := ⟨Nat.le_add_right a i, Nat.add_lt_add_left hys a⟩
      rw [getElem?_layer_top hys, overwrite_within hin, Nat.add_sub_cancel_left]
    · have hoff : ¬ Within a ys.length (a + i) := fun hin => hys (Nat.lt_of_add_lt_add_left hin.2)
      rw [getElem?_layer_below (Nat.le_of_not_lt hys), getElem?_slice hi, overwrite_off hoff]
  · have hlen : (layer (slice d a n) ys).length = n := by
      rw [length_layer, length_slice, Nat.max_eq_left h]
    rw [List.getElem?_eq_none_iff.2 (by rw [length_slice]; omega),
      List.getElem?_eq_none_iff.2 (by rw [hlen]; omega)]

/-- **A second write at the same place** lays over the first. -/
theorem overwrite_overwrite :
    overwrite (overwrite d a xs) a ys = overwrite d a (layer xs ys) := by
  funext i
  by_cases hi : a ≤ i
  · rw [overwrite, if_pos hi, overwrite, if_pos hi, overwrite, if_pos hi]
    by_cases hys : i - a < ys.length
    · rw [getElem?_layer_top hys, List.getElem?_eq_getElem hys, Option.getD_some, Option.getD_some]
    · rw [getElem?_layer_below (by omega), List.getElem?_eq_none_iff.2 (by omega), Option.getD_none]
  · rw [overwrite, if_neg hi, overwrite, if_neg hi, overwrite, if_neg hi]

/-- **A second write that starts inside the first and reaches past its end**
leaves only the front of the first. -/
theorem overwrite_past (hn : n ≤ xs.length) (hle : xs.length ≤ n + ys.length) :
    overwrite (overwrite d a xs) (a + n) ys = overwrite d a (xs.take n ++ ys) := by
  have hlen : (xs.take n).length = n := by
    rw [List.length_take]
    omega
  rw [overwrite_append, hlen]
  funext i
  refine overwrite_congr (fun _ => rfl) rfl fun hi => ?_
  -- off the second write both are the front of the first
  by_cases hin : Within a n i
  · have hxs : Within a xs.length i := ⟨hin.1, Nat.lt_of_lt_of_le hin.2 (by omega)⟩
    have hfront := overwrite_within (d := d) (hlen.symm ▸ hin : Within a (xs.take n).length i)
    rw [List.getElem?_take_of_lt (by rw [Within] at hin; omega), ← overwrite_within hxs] at hfront
    exact (Option.some.inj hfront).symm
  · have hxs : ¬ Within a xs.length i := by
      unfold Within at hin hi ⊢
      omega
    rw [overwrite_off hxs, overwrite_off (hlen.symm ▸ hin)]

/-! ## A sequence of writes -/

/-- What holds of every element together with those around it, taken one
element at a time. -/
theorem forall_parts_cons {P : List ρ → ρ → List ρ → Prop} {r : ρ} {rs : List ρ} :
    (∀ before x after, r :: rs = before ++ x :: after → P before x after) ↔
      P [] r rs ∧ ∀ before x after, rs = before ++ x :: after → P (r :: before) x after := by
  constructor
  · intro h
    refine ⟨h [] r rs rfl, fun before x after heq => h (r :: before) x after ?_⟩
    rw [heq, List.cons_append]
  · intro h before x after heq
    cases before with
    | nil =>
        obtain ⟨rfl, rfl⟩ := List.cons.inj heq
        exact h.1
    | cons r' before =>
        obtain ⟨rfl, hrest⟩ := List.cons.inj heq
        exact h.2 before x after hrest

/-- The same, for what only looks at the elements after it. -/
theorem forall_split_cons {P : ρ → List ρ → Prop} {r : ρ} {rs : List ρ} :
    (∀ before x after, r :: rs = before ++ x :: after → P x after) ↔
      P r rs ∧ ∀ before x after, rs = before ++ x :: after → P x after :=
  forall_parts_cons

section Sequence

variable {place : ρ → ℕ} {f g : ρ → List β} {rs : List ρ} {r : ρ}

/-- Write `f r` at `place r`, for each `r` in turn. -/
def overwriteAll (place : ρ → ℕ) (f : ρ → List β) (rs : List ρ) (d : ℕ → β) : ℕ → β :=
  rs.foldl (fun d r => overwrite d (place r) (f r)) d

@[simp] theorem overwriteAll_nil : overwriteAll place f [] d = d := rfl

@[simp] theorem overwriteAll_cons :
    overwriteAll place f (r :: rs) d = overwriteAll place f rs (overwrite d (place r) (f r)) := rfl

/-- The last write goes over the others. -/
theorem overwriteAll_concat :
    overwriteAll place f (rs ++ [r]) d = overwrite (overwriteAll place f rs d) (place r) (f r) := by
  rw [overwriteAll, List.foldl_append]
  rfl

/-- Writes of one value leave it where it was before. -/
theorem overwriteAll_const {c : β} (hf : ∀ r ∈ rs, ∀ x ∈ f r, x = c) (hd : d i = c) :
    overwriteAll place f rs d i = c := by
  induction rs generalizing d with
  | nil => exact hd
  | cons r rs ih =>
      rw [List.forall_mem_cons] at hf
      rw [overwriteAll_cons]
      refine ih hf.2 ?_
      by_cases hi : Within (place r) (f r).length i
      · exact hf.1 _ (List.mem_of_getElem? (overwrite_within hi).symm)
      · rw [overwrite_off hi, hd]

/-- Position `i` is not covered by any of the writes. -/
def Uncovered (place : ρ → ℕ) (f : ρ → List β) (rs : List ρ) (i : ℕ) : Prop :=
  ∀ r ∈ rs, ¬ Within (place r) (f r).length i

/-- Where no write goes there is what was there. -/
theorem overwriteAll_uncovered (h : Uncovered place f rs i) : overwriteAll place f rs d i = d i := by
  induction rs generalizing d with
  | nil => rfl
  | cons r rs ih =>
      rw [overwriteAll_cons, ih fun r' hr' => h r' (List.mem_cons_of_mem r hr')]
      exact overwrite_off (h r List.mem_cons_self)

/-- Two sequences of writes agree at a position when the last writes that
cover it do, or none does and the arrays agreed before. -/
theorem overwriteAll_apply_eq_iff (hlen : ∀ r ∈ rs, (f r).length = (g r).length) :
    overwriteAll place f rs d i = overwriteAll place g rs d' i ↔
      (∀ before r after, rs = before ++ r :: after → Within (place r) (f r).length i →
        Uncovered place f after i → (f r)[i - place r]? = (g r)[i - place r]?) ∧
      (Uncovered place f rs i → d i = d' i) := by
  induction rs generalizing d d' with
  | nil => simp [Uncovered]
  | cons r rs ih =>
      have hr := hlen r List.mem_cons_self
      rw [overwriteAll_cons, overwriteAll_cons,
        ih fun r' hr' => hlen r' (List.mem_cons_of_mem r hr'), forall_split_cons]
      have hcons : Uncovered place f (r :: rs) i ↔
          ¬ Within (place r) (f r).length i ∧ Uncovered place f rs i := List.forall_mem_cons
      rw [hcons]
      by_cases hi : Within (place r) (f r).length i
      · -- what was there before `r` is gone, and `r` shows where nothing follows
        rw [← Option.some.injEq, overwrite_within hi, overwrite_within (hr ▸ hi)]
        simp only [hi, true_implies, not_true_eq_false, false_and, false_implies, and_true]
        exact and_comm
      · rw [overwrite_off hi, overwrite_off (hr ▸ hi)]
        simp only [hi, false_implies, not_false_eq_true, true_and]

/-- **Two sequences of writes leave the same array exactly when** they agree
wherever a write is the last one. -/
theorem overwriteAll_eq_iff (hlen : ∀ r ∈ rs, (f r).length = (g r).length) :
    overwriteAll place f rs d = overwriteAll place g rs d ↔
      ∀ before r after, rs = before ++ r :: after → ∀ k < (f r).length,
        Uncovered place f after (place r + k) → (f r)[k]? = (g r)[k]? := by
  rw [funext_iff]
  constructor
  · intro h before r after heq k hk hun
    have := ((overwriteAll_apply_eq_iff hlen).1 (h (place r + k))).1 before r after heq
      ⟨by omega, by omega⟩ hun
    rwa [Nat.add_sub_cancel_left] at this
  · intro h i
    refine (overwriteAll_apply_eq_iff hlen).2 ⟨fun before r after heq hi hun => ?_, fun _ => rfl⟩
    unfold Within at hi
    refine h before r after heq (i - place r) (by omega) ?_
    rwa [Nat.add_sub_cancel' hi.1]

end Sequence

end BlocTest
