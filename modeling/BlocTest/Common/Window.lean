import Mathlib.Data.List.Nodup
import Mathlib.Data.List.Perm.Subperm
import Mathlib.Order.Minimal
/-!
# Repeat-free windows of a list

A window is a contiguous stretch of a list, given by its two ends, and
windows are ordered by inclusion. The maximal windows without a repeat can
be listed from left to right: from a start that the element before it
blocks, the window that runs up to the first repeat is maximal, and the next
blocked start is just after the earlier of the two equal elements.
-/

namespace BlocTest

variable {α : Type}

/-- A contiguous stretch of `s`. -/
@[ext] structure Window (s : List α) where
  start : ℕ
  stop : ℕ
  start_le : start ≤ stop
  stop_le : stop ≤ s.length

namespace Window

variable {s : List α} {w v x : Window s} {ws : List (Window s)} {p q k : ℕ}

/-- The elements of a window. -/
def text (w : Window s) : List α := (s.take w.stop).drop w.start

/-- How many elements a window has. -/
def size (w : Window s) : ℕ := w.stop - w.start

/-- No element occurs twice in the window. -/
def Free (w : Window s) : Prop := w.text.Nodup

/-- Windows are ordered by inclusion. -/
instance : LE (Window s) := ⟨fun w v => v.start ≤ w.start ∧ w.stop ≤ v.stop⟩

theorem le_iff : w ≤ v ↔ v.start ≤ w.start ∧ w.stop ≤ v.stop := Iff.rfl

/-- Two windows that lie in each other are one. -/
theorem le_antisymm (h : w ≤ v) (h' : v ≤ w) : w = v := by
  rw [le_iff] at h h'
  exact Window.ext (by omega) (by omega)

/-- What lies in a window is no longer. -/
theorem size_le (h : w ≤ v) : w.size ≤ v.size := by
  rw [le_iff] at h
  simp only [size]
  omega

/-- A window inside another of the same size is that window. -/
theorem eq_of_size_le (h : w ≤ v) (hs : v.size ≤ w.size) : w = v := by
  have hw := w.start_le
  have hv := v.start_le
  rw [le_iff] at h
  simp only [size] at hs
  exact Window.ext (by omega) (by omega)

/-- The text of a window is as long as the window. -/
@[simp] theorem length_text : w.text.length = w.size := by
  have := w.stop_le
  simp only [text, size, List.length_drop, List.length_take]
  omega

/-- The characters of a window are those of the string. -/
theorem getElem?_text {i : ℕ} (hi : w.start + i < w.stop) : w.text[i]? = s[w.start + i]? := by
  rw [text, List.getElem?_drop, List.getElem?_take_of_lt hi]

/-- Freedom, by positions in the whole list. -/
theorem free_iff :
    w.Free ↔ ∀ i j, w.start ≤ i → i < j → j < w.stop → s[i]? ≠ s[j]? := by
  have hw := w.start_le
  rw [Free, List.nodup_iff_getElem?_ne_getElem?, length_text, size]
  constructor
  · intro h i j hi hij hj
    have hne := h (i - w.start) (j - w.start) (by omega) (by omega)
    rw [getElem?_text (by omega), getElem?_text (by omega)] at hne
    rwa [Nat.add_sub_cancel' hi, Nat.add_sub_cancel' (by omega)] at hne
  · intro h i j hij hj
    rw [getElem?_text (by omega), getElem?_text (by omega)]
    exact h _ _ (by omega) (by omega) (by omega)

/-- A window without repeats has none in any part of it. -/
theorem Free.mono (hv : v.Free) (h : w ≤ v) : w.Free := by
  rw [free_iff] at hv ⊢
  rw [le_iff] at h
  intro i j hi hij hj
  exact hv i j (by omega) hij (by omega)

/-- A free window that holds one of two equal elements stops before it
reaches the other. -/
theorem Free.stop_le_of_eq (hw : w.Free) {i j : ℕ} (hi : w.start ≤ i) (hij : i < j)
    (heq : s[i]? = s[j]?) : w.stop ≤ j := by
  rw [free_iff] at hw
  by_contra hlt
  exact hw i j hi hij (by omega) heq

/-- Every free window is part of a maximal one. -/
theorem Free.exists_maximal {w : Window s} (hw : w.Free) : ∃ v, Maximal Free v ∧ w ≤ v := by
  by_cases hmax : Maximal Free w
  · exact ⟨w, hmax, le_iff.2 ⟨Nat.le_refl _, Nat.le_refl _⟩⟩
  · -- a free window that properly includes `w` is larger
    have hnot : ¬ ∀ y : Window s, y.Free → w ≤ y → y ≤ w := fun h => hmax ⟨hw, fun y hy => h y hy⟩
    push Not at hnot
    obtain ⟨y, hy, hwy, hyw⟩ := hnot
    have hsize : w.size < y.size := by
      by_contra hle
      have heq := eq_of_size_le hwy (by omega)
      exact hyw (heq ▸ hwy)
    have hbound : y.size ≤ s.length := by
      have := y.stop_le
      unfold size
      omega
    obtain ⟨v, hv, hyv⟩ := hy.exists_maximal
    rw [le_iff] at hwy hyv
    exact ⟨v, hv, le_iff.2 ⟨by omega, by omega⟩⟩
  termination_by s.length - w.size

/-- **A free window is maximal just when it cannot be extended** at either
end: a larger free window would leave room for one that keeps the other
end. -/
theorem maximal_free_iff : Maximal Free w ↔ w.Free ∧
    (∀ v : Window s, v.Free → v.stop = w.stop → w.start ≤ v.start) ∧
    ∀ v : Window s, v.Free → v.start = w.start → v.stop ≤ w.stop := by
  have hw := w.start_le
  constructor
  · intro hmax
    refine ⟨hmax.1, fun v hv hstop => ?_, fun v hv hstart => ?_⟩
    · by_contra hlt
      have hle := hmax.2 hv (le_iff.2 ⟨by omega, by omega⟩)
      exact hlt (le_iff.1 hle).1
    · by_contra hlt
      have hle := hmax.2 hv (le_iff.2 ⟨by omega, by omega⟩)
      exact hlt (le_iff.1 hle).2
  · intro h
    obtain ⟨hfree, hleft, hright⟩ := h
    refine ⟨hfree, fun v hv hwv => ?_⟩
    have hstop := v.stop_le
    rw [le_iff] at hwv ⊢
    refine ⟨hleft ⟨v.start, w.stop, by omega, by omega⟩ (hv.mono ?_) rfl,
      hright ⟨w.start, v.stop, by omega, hstop⟩ (hv.mono ?_) rfl⟩
    · exact le_iff.2 ⟨Nat.le_refl _, hwv.2⟩
    · exact le_iff.2 ⟨hwv.1, Nat.le_refl _⟩

/-! ## Listing the maximal windows from left to right -/

/-- No free window from `p` on can be extended to the left: the element
before `p` is repeated in one of them. -/
def Blocked (s : List α) (p : ℕ) : Prop :=
  p = 0 ∨ ∃ w : Window s, w.start = p ∧ w.Free ∧ p < w.stop ∧ s[p - 1]? = s[w.stop - 1]?

/-- `ws` lists the maximal windows that start before `p`, each once and in
order. -/
structure Lists (ws : List (Window s)) (p : ℕ) : Prop where
  sorted : ws.Pairwise fun w v => w.start < v.start
  mem_iff : ∀ w, w ∈ ws ↔ Maximal Free w ∧ w.start < p

theorem lists_nil : Lists ([] : List (Window s)) 0 :=
  ⟨List.Pairwise.nil, fun w => by simp⟩

/-- From a blocked start, a free window that takes in every free window
from the same start is maximal. -/
theorem maximal_of_blocked (hb : Blocked s w.start) (hw : w.Free)
    (hall : ∀ v : Window s, v.Free → w.start ≤ v.start → v.start < q → v ≤ w) (hq : w.start < q) :
    Maximal Free w := by
  refine ⟨hw, fun v hv hwv => ?_⟩
  rw [le_iff] at hwv
  obtain hzero | ⟨u, hu, hufree, hpos, heq⟩ := hb
  · exact hall v hv (by omega) (by omega)
  · by_cases hleft : w.start ≤ v.start
    · exact hall v hv hleft (by omega)
    · -- `v` would hold the element before the start and its repeat
      have huw := hall u hufree (by omega) (by omega)
      rw [le_iff] at huw
      have := hv.stop_le_of_eq (i := w.start - 1) (j := u.stop - 1) (by omega) (by omega) heq
      omega

/-- **One more window.** If `w` starts at a blocked `p` and takes in every
free window that starts from `p` up to `q`, then it is the only maximal one
that starts there. -/
theorem Lists.push (hl : Lists ws w.start) (hb : Blocked s w.start) (hw : w.Free)
    (hall : ∀ v : Window s, v.Free → w.start ≤ v.start → v.start < q → v ≤ w) (hq : w.start < q) :
    Lists (ws ++ [w]) q := by
  have hmax := maximal_of_blocked hb hw hall hq
  constructor
  · refine List.pairwise_append.2 ⟨hl.sorted, List.pairwise_singleton _ _, fun v hv x hx => ?_⟩
    obtain rfl := List.mem_singleton.1 hx
    exact ((hl.mem_iff v).1 hv).2
  · intro v
    rw [List.mem_append, hl.mem_iff, List.mem_singleton]
    constructor
    · rintro (⟨hv, hlt⟩ | rfl)
      · exact ⟨hv, by omega⟩
      · exact ⟨hmax, hq⟩
    · intro h
      obtain ⟨hv, hlt⟩ := h
      by_cases hp : v.start < w.start
      · exact .inl ⟨hv, hp⟩
      · have hvw := hall v hv.1 (by omega) hlt
        exact .inr (le_antisymm hvw (hv.2 hw hvw))

/-- Their starts are distinct, so there are no more of them than positions. -/
theorem Lists.length_le (hl : Lists ws p) : ws.length ≤ p := by
  have hsub : ws.map start ⊆ List.range p := by
    intro a ha
    obtain ⟨w, hw, rfl⟩ := List.mem_map.1 ha
    exact List.mem_range.2 ((hl.mem_iff w).1 hw).2
  have hnd : (ws.map start).Nodup := (List.pairwise_map.2 hl.sorted).imp Nat.ne_of_lt
  have hle := (List.Nodup.subperm hnd hsub).length_le
  rwa [List.length_map, List.length_range] at hle

/-- **A window that runs into a repeat.** The element after `w` repeats the
one at `k`, so the next maximal window starts after `k`, at the earliest and
at the latest. -/
theorem Lists.cut (hl : Lists ws w.start) (hb : Blocked s w.start) (hw : w.Free)
    (hk : w.start ≤ k) (hks : k < w.stop) (hs : w.stop < s.length) (heq : s[k]? = s[w.stop]?) :
    Lists (ws ++ [w]) (k + 1) ∧ Blocked s (k + 1) := by
  constructor
  · refine hl.push hb hw (fun v hv hpv hvk => le_iff.2 ⟨hpv, ?_⟩) (by omega)
    exact hv.stop_le_of_eq (by omega) hks heq
  · -- the window after `k` that ends with the repeat
    refine .inr ⟨⟨k + 1, w.stop + 1, by omega, hs⟩, rfl, ?_, Nat.succ_lt_succ hks, heq⟩
    rw [free_iff] at hw ⊢
    intro i j hi hij hj
    simp only at hi hj
    by_cases hend : j = w.stop
    · rw [hend, ← heq]
      exact (hw k i hk (by omega) (by omega)).symm
    · exact hw i j (by omega) hij (by omega)

/-- **A window that runs to the end** is the last one. -/
theorem Lists.last (hl : Lists ws w.start) (hb : Blocked s w.start) (hw : w.Free)
    (hs : w.stop = s.length) : Lists (ws ++ [w]) (s.length + 1) := by
  have hle := w.start_le
  refine hl.push hb hw (fun v _ hpv _ => le_iff.2 ⟨hpv, ?_⟩) (by omega)
  rw [hs]
  exact v.stop_le

/-- A list that has passed the end has all of them. -/
theorem Lists.mem_iff_maximal (hl : Lists ws (s.length + 1)) (v : Window s) :
    v ∈ ws ↔ Maximal Free v := by
  have hle := v.start_le
  have hlen := v.stop_le
  rw [hl.mem_iff]
  constructor
  · exact fun h => h.1
  · exact fun h => ⟨h, by omega⟩

/-- There is always one: the empty window is part of it. -/
theorem Lists.ne_nil (hl : Lists ws (s.length + 1)) : ws ≠ [] := by
  rintro rfl
  have hfree : Free (⟨0, 0, Nat.le_refl _, Nat.zero_le _⟩ : Window s) := List.nodup_nil
  obtain ⟨v, hv, -⟩ := hfree.exists_maximal
  cases (hl.mem_iff_maximal v).2 hv

/-! ## The leftmost longest window -/

/-- `w` is longest among the windows without a repeat, and starts first
among those. -/
structure LeftmostLongest (w : Window s) : Prop where
  free : w.Free
  longest : ∀ v : Window s, v.Free → v.size ≤ w.size
  leftmost : ∀ v : Window s, v.Free → v.size = w.size → w.start ≤ v.start

/-- **The first longest of the maximal windows is the leftmost longest of
all.** -/
theorem Lists.leftmostLongest {pre post : List (Window s)}
    (hl : Lists (pre ++ w :: post) (s.length + 1)) (hpre : ∀ v ∈ pre, v.size < w.size)
    (hpost : ∀ v ∈ post, v.size ≤ w.size) : LeftmostLongest w := by
  have hmem : ∀ v : Window s, Maximal Free v → v ∈ pre ∨ v = w ∨ v ∈ post := by
    intro v hv
    have := (hl.mem_iff_maximal v).2 hv
    rwa [List.mem_append, List.mem_cons] at this
  have hle : ∀ v : Window s, Maximal Free v → v.size ≤ w.size := by
    intro v hv
    rcases hmem v hv with hv | rfl | hv
    · exact Nat.le_of_lt (hpre v hv)
    · exact Nat.le_refl _
    · exact hpost v hv
  refine ⟨((hl.mem_iff_maximal w).1 (by simp)).1, fun v hv => ?_, fun v hv heq => ?_⟩
  · obtain ⟨u, hu, hvu⟩ := hv.exists_maximal
    exact Nat.le_trans (size_le hvu) (hle u hu)
  · -- a window of the largest size is maximal itself, so it is listed
    obtain ⟨u, hu, hvu⟩ := hv.exists_maximal
    have huw := hle u hu
    obtain rfl := eq_of_size_le hvu (by omega)
    rcases hmem v hu with hin | rfl | hin
    · have := hpre v hin
      omega
    · exact Nat.le_refl _
    · have hsorted := (List.pairwise_append.1 hl.sorted).2.1
      exact Nat.le_of_lt ((List.pairwise_cons.1 hsorted).1 v hin)

end Window

end BlocTest
