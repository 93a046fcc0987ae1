import BlocTest.Common.Partition
import BlocTest.FastSort.Model.FastSort
/-!
# The two scans of a partition

`Scanning` ties the memory to the abstract invariant `Parting`: the array
holds the elements passed from the left, the element at `i`, those up to `j`
and those passed from the right. Each scan moves one of its boundaries.
-/

namespace BlocTest

namespace FastSort

open Prog

variable {s t u : Memory} {a k n fuel : ℕ} {i j x y key : Int32}
variable {xs pre post mid lows highs : List Int32}

/-! ## Reading and writing the array -/

/-- `t` comes of `s` by reading and writing among the `n` cells from `a` on. -/
structure Touches (a n : ℕ) (s t : Memory) : Prop where
  log : ∃ new, t.accesses = s.accesses ++ new ∧ ∀ p ∈ new, Within a n p
  off : ∀ p, ¬ Within a n p → t.cells p = s.cells p

theorem Touches.refl (a n : ℕ) (s : Memory) : Touches a n s s :=
  ⟨⟨[], (List.append_nil _).symm, fun _ hp => absurd hp List.not_mem_nil⟩, fun _ _ => rfl⟩

theorem Touches.trans (h₁ : Touches a n s t) (h₂ : Touches a n t u) : Touches a n s u where
  log := by
    obtain ⟨new₁, hlog₁, hin₁⟩ := h₁.log
    obtain ⟨new₂, hlog₂, hin₂⟩ := h₂.log
    exact ⟨new₁ ++ new₂, by rw [hlog₂, hlog₁, List.append_assoc],
      List.forall_mem_append.2 ⟨hin₁, hin₂⟩⟩
  off := fun p hp => (h₂.off p hp).trans (h₁.off p hp)

/-- The memory after a read at `p`. -/
def Memory.reads (s : Memory) (p : ℕ) : Memory := { s with accesses := s.accesses ++ [p] }

/-- The memory after `x` is written at `p`. -/
def Memory.writes (s : Memory) (p : ℕ) (x : Int32) : Memory :=
  { s with cells := overwrite s.cells p [x], accesses := s.accesses ++ [p] }

@[simp] theorem cells_reads : (s.reads k).cells = s.cells := rfl

@[simp] theorem cells_writes : (s.writes k x).cells = overwrite s.cells k [x] := rfl

theorem touches_reads (h : Within a n k) : Touches a n s (s.reads k) :=
  ⟨⟨[k], rfl, List.forall_mem_singleton.2 h⟩, fun _ _ => rfl⟩

theorem touches_writes (h : Within a n k) : Touches a n s (s.writes k x) := by
  refine ⟨⟨[k], rfl, List.forall_mem_singleton.2 h⟩, fun p hp => overwrite_off fun hk => hp ?_⟩
  unfold Within at hk ⊢
  rw [List.length_singleton] at hk
  unfold Within at h
  omega

/-- `print` touches nothing. -/
theorem touches_print {out : Output} :
    Touches a n s { s with printed := s.printed ++ [out] } :=
  ⟨(Touches.refl a n s).log, fun _ _ => rfl⟩

theorem wp_address {Q : ℕ → Memory → Prop} (hi : i.toInt = k) :
    wp (address (some a) i) Q s ↔ Q (a + k) s := by
  have hpos : ¬ (a : ℤ) + i.toInt < 0 := by omega
  have hnat : ((a : ℤ) + i.toInt).toNat = a + k := by omega
  rw [address, if_neg hpos, hnat]
  exact wp_pure

theorem wp_load {Q : Int32 → Memory → Prop} (hi : i.toInt = k) :
    wp (load (some a) i) Q s ↔ Q (s.cells (a + k)) (s.reads (a + k)) := by
  unfold load
  simp only [wp_bind, wp_address hi, wp_modify, wp_get, wp_pure]
  rfl

theorem wp_store {Q : Unit → Memory → Prop} (hi : i.toInt = k) :
    wp (store (some a) i x) Q s ↔ Q () (s.writes (a + k) x) := by
  unfold store
  simp only [wp_bind, wp_address hi, wp_modify]
  rfl

theorem wp_print {Q : Unit → Memory → Prop} {out : Output} :
    wp (print out) Q s ↔ Q () { s with printed := s.printed ++ [out] } := wp_modify

/-- A position of the array, given by what is before it. -/
theorem within_of_slice (h : slice s.cells a n = pre ++ x :: post) :
    Within a n (a + pre.length) := by
  have hlen := length_of_slice h
  rw [List.length_append, List.length_cons] at hlen
  exact ⟨Nat.le_add_right _ _, by omega⟩

/-- **An exchange** of two elements of the array. -/
theorem wp_exchange (hs : slice s.cells a n = pre ++ x :: mid ++ y :: post)
    (hi : i.toInt = pre.length) (hj : j.toInt = (pre ++ x :: mid).length) :
    wp (exchange (some a) i j)
      (fun _ t => slice t.cells a n = pre ++ y :: mid ++ x :: post ∧ Touches a n s t) s := by
  have hs' : slice s.cells a n = pre ++ x :: (mid ++ y :: post) := by
    rw [hs, List.append_assoc, List.cons_append]
  have hset := slice_overwrite_single (y := y) hs'
  have hlen : (pre ++ y :: mid).length = (pre ++ x :: mid).length := by
    rw [List.length_append, List.length_append, List.length_cons, List.length_cons]
  have hset' : slice (overwrite s.cells (a + pre.length) [y]) a n =
      pre ++ y :: mid ++ y :: post := by
    rw [hset, List.append_assoc, List.cons_append]
  have hdone := slice_overwrite_single (y := x) hset'
  have hini := within_of_slice hs'
  have hinj := within_of_slice hs
  unfold exchange
  simp only [wp_bind, wp_load hi, wp_load hj, wp_store hi, wp_store hj, cells_reads, cells_writes,
    apply_of_slice hs', apply_of_slice hs]
  rw [← hlen]
  rw [← hlen] at hinj
  exact ⟨hdone, ((touches_reads hini).trans (touches_reads hinj)).trans
    ((touches_writes hini).trans (touches_writes hinj))⟩

/-- An exchange of an element with itself. -/
theorem wp_exchange_self (hs : slice s.cells a n = pre ++ x :: post) (hi : i.toInt = pre.length)
    (hj : j.toInt = pre.length) :
    wp (exchange (some a) i j)
      (fun _ t => slice t.cells a n = pre ++ x :: post ∧ Touches a n s t) s := by
  have hset := slice_overwrite_single (y := x) hs
  have hin := within_of_slice hs
  unfold exchange
  simp only [wp_bind, wp_load hi, wp_load hj, wp_store hi, wp_store hj, cells_reads, cells_writes,
    apply_of_slice hs]
  exact ⟨slice_overwrite_single hset, ((touches_reads hin).trans (touches_reads hin)).trans
    ((touches_writes hin).trans (touches_writes hin))⟩

/-! ## The scans -/

/-- The array in the middle of a partition: `lows` are before position `i`,
`x` is there, `mid` are up to position `j` and `highs` behind it. -/
structure Scanning (s t : Memory) (a n : ℕ) (key : Int32) (xs lows : List Int32) (x : Int32)
    (mid highs : List Int32) : Prop where
  holds : slice t.cells a n = lows ++ x :: mid ++ highs
  parting : Parting key xs lows (x :: mid) highs
  touches : Touches a n s t

/-- The last of these elements is not above the key. -/
def LastLow (key : Int32) (xs : List Int32) : Prop := ∀ y ∈ xs.getLast?, y ≤ key

theorem Scanning.length (hs : Scanning s t a n key xs lows x mid highs) :
    lows.length + mid.length + 1 + highs.length = n := by
  have hlen := length_of_slice hs.holds
  rw [List.length_append, List.length_append, List.length_cons] at hlen
  omega

/-- Reading the array does not disturb it. -/
theorem Scanning.reads (hs : Scanning s t a n key xs lows x mid highs) (h : Within a n k) :
    Scanning s (t.reads k) a n key xs lows x mid highs :=
  ⟨hs.holds, hs.parting, hs.touches.trans (touches_reads h)⟩

/-- The scan from the right passes an element. -/
theorem Scanning.passHigh (hs : Scanning s t a n key xs lows x (mid ++ [y]) highs)
    (hy : key < y) : Scanning s t a n key xs lows x mid (y :: highs) :=
  ⟨by simpa using hs.holds, hs.parting.passHigh hy, hs.touches⟩

/-- The scan from the left passes an element. -/
theorem Scanning.passLow (hs : Scanning s t a n key xs lows x (y :: mid) highs) (hx : x ≤ key) :
    Scanning s t a n key xs (lows ++ [x]) y mid highs :=
  ⟨by simpa using hs.holds, hs.parting.passLow hx, hs.touches⟩

theorem lastLow_singleton (hx : x ≤ key) : LastLow key [x] := by
  intro y hy
  cases hy
  exact hx

theorem lastLow_concat (hy : y ≤ key) : LastLow key (xs ++ [y]) := by
  intro z hz
  rw [List.getLast?_concat] at hz
  cases hz
  exact hy

/-- **The scan from the right** stops at `x` or at an element that is not
above the key. -/
theorem wp_scanDown (hs : Scanning s t a n key xs lows x mid highs) (hn : (n : ℤ) < 2 ^ 31)
    (hi : i.toInt = lows.length) (hj : j.toInt = (lows.length + mid.length : ℕ)) (hx : x ≤ key)
    (hmid : mid ≠ []) (hf : mid.length < fuel) :
    wp (loop (scanDownRound key (some a) i) fuel j) (fun j' t => ∃ mid' highs',
      Scanning s t a n key xs lows x mid' highs' ∧ LastLow key (x :: mid') ∧
        mid'.length ≤ mid.length ∧ j'.toInt = (lows.length + mid'.length : ℕ)) t := by
  refine wp_loop (fun l (j : Int32) t => ∃ mid' highs', mid'.length = l ∧ mid' ≠ [] ∧
    Scanning s t a n key xs lows x mid' highs' ∧ mid'.length ≤ mid.length ∧
    j.toInt = (lows.length + mid'.length : ℕ)) ?_ fuel mid.length j t hf
    ⟨mid, highs, rfl, hmid, hs, Nat.le_refl _, hj⟩
  intro l j t h
  obtain ⟨mid', highs', rfl, hne, hs, hle, hj⟩ := h
  obtain ⟨m, y, rfl⟩ := (List.eq_nil_or_concat' mid').resolve_left hne
  have hlen := hs.length
  rw [List.length_append, List.length_singleton] at hlen hle
  have hy : slice t.cells a n = lows ++ x :: m ++ y :: highs' := by simpa using hs.holds
  have hpos : j.toInt = (lows ++ x :: m).length := by
    rw [hj]
    simp
  have hin := within_of_slice hy
  unfold scanDownRound
  simp only [wp_bind, wp_load hpos, apply_of_slice hy, wp_ite, wp_signed, wp_pure]
  constructor
  · intro hhigh
    have hexact : j.toInt - 1 = (lows.length + m.length : ℕ) := by
      rw [hj, List.length_append, List.length_singleton]
      omega
    obtain ⟨hfit, hj'⟩ := fits_and_toInt hexact (by omega)
    have hpass := (hs.passHigh hhigh).reads hin
    refine ⟨hfit, fun hge => ?_, fun hlt => ?_⟩
    · rw [ge_iff_le, Int32.le_iff_toInt_le, hi, hj'] at hge
      obtain rfl : m = [] := List.eq_nil_of_length_eq_zero (by omega)
      exact ⟨[], y :: highs', hpass, lastLow_singleton hx, Nat.zero_le _, hj'⟩
    · rw [ge_iff_le, Int32.le_iff_toInt_le, hi, hj'] at hlt
      have hm : m ≠ [] := by
        rintro rfl
        exact hlt (by simp)
      exact ⟨m.length, by simp, m, y :: highs', rfl, hm, hpass, by omega, hj'⟩
  · intro hlow
    rw [gt_iff_lt, not_lt] at hlow
    have hlast : LastLow key (x :: m ++ [y]) := lastLow_concat hlow
    exact ⟨m ++ [y], highs', hs.reads hin, hlast, by simpa using hle, hj⟩

/-- **The scan from the left** stops at an element above the key, or where
the scan from the right has stopped. -/
theorem wp_scanUp (hs : Scanning s t a n key xs lows x mid highs) (hn : (n : ℤ) < 2 ^ 31)
    (hi : i.toInt = lows.length) (hj : j.toInt = (lows.length + mid.length : ℕ)) (hx : x ≤ key)
    (hlast : LastLow key (x :: mid)) (hf : mid.length < fuel) :
    wp (loop (scanUpRound key (some a) j) fuel i) (fun i' t => ∃ lows' x' mid',
      Scanning s t a n key xs lows' x' mid' highs ∧ LastLow key (x' :: mid') ∧
        i'.toInt = lows'.length ∧ j.toInt = (lows'.length + mid'.length : ℕ) ∧
        (mid' = [] ∨ key < x' ∧ lows.length < lows'.length)) t := by
  refine wp_loop (fun l (i : Int32) t => ∃ lows' x' mid', mid'.length = l ∧
    Scanning s t a n key xs lows' x' mid' highs ∧ LastLow key (x' :: mid') ∧
    i.toInt = lows'.length ∧ j.toInt = (lows'.length + mid'.length : ℕ) ∧
    lows.length ≤ lows'.length ∧ (x' ≤ key ∨ lows.length < lows'.length))
    ?_ fuel mid.length i t hf ⟨lows, x, mid, rfl, hs, hlast, hi, hj, Nat.le_refl _, .inl hx⟩
  intro l i t h
  obtain ⟨lows', x', mid', rfl, hs, hlast, hi, hj, hle, hmoved⟩ := h
  have hlen := hs.length
  have hhere : slice t.cells a n = lows' ++ x' :: (mid' ++ highs) := by simpa using hs.holds
  have hin := within_of_slice hhere
  unfold scanUpRound
  simp only [wp_bind, wp_load hi, apply_of_slice hhere, wp_ite, wp_signed, wp_pure]
  have hread := hs.reads hin
  refine ⟨fun hlow => ⟨fun hge => ?_, fun hlt => ?_⟩, fun hhigh => ?_⟩
  · rw [ge_iff_le, Int32.le_iff_toInt_le, hi, hj] at hge
    obtain rfl : mid' = [] := List.eq_nil_of_length_eq_zero (by omega)
    exact ⟨lows', x', [], hread, hlast, hi, hj, .inl rfl⟩
  · rw [ge_iff_le, Int32.le_iff_toInt_le, hi, hj] at hlt
    cases mid' with
    | nil => exact absurd (by simp) hlt
    | cons y mid' =>
        obtain ⟨hfit, hi'⟩ := fits_and_toInt_succ hi (by omega)
        have hgrown : (lows' ++ [x']).length = lows'.length + 1 := by
          rw [List.length_append, List.length_singleton]
        rw [← hgrown] at hi'
        have hj' : j.toInt = ((lows' ++ [x']).length + mid'.length : ℕ) := by
          rw [hj, hgrown, List.length_cons]
          omega
        refine ⟨hfit, mid'.length, by simp, lows' ++ [x'], y, mid', rfl, hread.passLow hlow, ?_,
          hi', hj', by omega, .inr (by omega)⟩
        rwa [LastLow, List.getLast?_cons_cons] at hlast
  · exact ⟨lows', x', mid', hread, hlast, hi, hj,
      .inr ⟨lt_of_not_ge hhigh, hmoved.resolve_left hhigh⟩⟩

end FastSort

end BlocTest
