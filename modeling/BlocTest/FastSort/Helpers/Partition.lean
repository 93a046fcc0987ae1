import BlocTest.FastSort.Helpers.Scans
/-!
# The partition loop

A round either exchanges the two elements its scans stop at, and then more
lies to the left of the scan from the left than before, or the scans meet and
the key is put between the two parts.
-/

namespace BlocTest

namespace FastSort

open Prog

variable {s t : Memory} {a l n fuel : ℕ} {i key x y : Int32} {xs lows mid highs : List Int32}

/-- The array is parted around the key, which is at position `i`. -/
def Partitioned (s t : Memory) (a n : ℕ) (key : Int32) (xs : List Int32) (i : Int32) : Prop :=
  ∃ left right, Parted key xs left right ∧ slice t.cells a n = left ++ key :: right ∧
    i.toInt = left.length ∧ Touches a n s t

/-- What holds at the head of the loop, with the number of elements that are
still between the scans. -/
inductive Partitioning (s : Memory) (a n : ℕ) (key : Int32) (xs : List Int32) :
    ℕ → Int32 × Int32 → Memory → Prop where
  /-- The scans are apart. -/
  | apart {t : Memory} {i j x : Int32} {lows mid highs : List Int32} :
      Scanning s t a n key xs lows x mid highs → x ≤ key → mid ≠ [] → i.toInt = lows.length →
      j.toInt = (lows.length + mid.length : ℕ) → Partitioning s a n key xs mid.length (i, j) t
  /-- The scans have met. -/
  | met {t : Memory} {i j : Int32} :
      Partitioned s t a n key xs i → ¬ i < j → Partitioning s a n key xs 0 (i, j) t

/-- **Where the scans meet** the key is exchanged with what is there. -/
theorem wp_place (hs : Scanning s t a n key xs lows x [] highs) (hx : x ≤ key)
    (hi : i.toInt = lows.length) :
    wp (exchange (some a) 0 i) (fun _ t => Partitioned s t a n key xs i) t := by
  have h0 : (0 : Int32).toInt = ([] : List Int32).length := rfl
  cases lows with
  | nil =>
      have hkey := hs.parting.low_of_nil
      have hholds : slice t.cells a n = [] ++ x :: highs := hs.holds
      refine wp_mono (wp_exchange_self hholds h0 hi) fun _ u hu => ?_
      exact ⟨[], highs, hs.parting.parted_nil, hkey ▸ hu.1, hi, hs.touches.trans hu.2⟩
  | cons y lows =>
      obtain ⟨rfl, hparted⟩ := hs.parting.parted_cons hx
      have hholds : slice t.cells a n = [] ++ y :: lows ++ x :: highs := by simpa using hs.holds
      refine wp_mono (wp_exchange hholds h0 hi) fun _ u hu => ?_
      exact ⟨x :: lows, highs, hparted, hu.1, hi, hs.touches.trans hu.2⟩

/-- **An exchange** leaves the element the scan from the right stopped at
where the scan from the left did. -/
theorem wp_swap {j : Int32} (hs : Scanning s t a n key xs lows x (mid ++ [y]) highs)
    (hx : key < x) (hy : y ≤ key) (hi : i.toInt = lows.length)
    (hj : j.toInt = (lows.length + (mid ++ [y]).length : ℕ)) :
    wp (exchange (some a) i j)
      (fun _ t => Scanning s t a n key xs lows y (mid ++ [x]) highs) t := by
  have hholds : slice t.cells a n = lows ++ x :: mid ++ y :: highs := by simpa using hs.holds
  have hj' : j.toInt = (lows ++ x :: mid).length := by
    rw [hj]
    simp
  refine wp_mono (wp_exchange hholds hi hj') fun _ u hu => ⟨?_, ?_, hs.touches.trans hu.2⟩
  · simpa using hu.1
  · exact hs.parting.exchange hx hy

/-- **A round** brings the scans closer together. -/
theorem wp_partitionRound {b : Int32 × Int32} (hn : (n : ℤ) < 2 ^ 31) (hf : n ≤ fuel)
    (hp : Partitioning s a n key xs l b t) :
    wp (partitionRound fuel key (some a) b)
      (Round (Partitioning s a n key xs) (fun i t => Partitioned s t a n key xs i) l) t := by
  cases hp with
  | met hdone hij =>
      simp only [partitionRound, if_neg hij]
      exact wp_pure.2 hdone
  | @apart t i j x lows mid highs hs hx hmid hi hj =>
      have hpos := List.length_pos_iff.2 hmid
      have hlen := hs.length
      have hij : i < j := by
        rw [Int32.lt_iff_toInt_lt, hi, hj]
        omega
      simp only [partitionRound, if_pos hij, wp_bind]
      refine wp_mono (wp_scanDown hs hn hi hj hx hmid (by omega)) fun j' t' h => ?_
      obtain ⟨mid', highs', hs', hlast', hle', hj'⟩ := h
      have hlen' := hs'.length
      refine wp_mono (wp_scanUp hs' hn hi hj' hx hlast' (by omega)) fun i' u h => ?_
      obtain ⟨lows', x', rest, hs'', hlast, hi', hj'', hend⟩ := h
      rw [wp_ite]
      cases List.eq_nil_or_concat' rest with
      | inl hrest =>
          -- the scans have met
          subst hrest
          have hmet : ¬ i' < j' := by
            rw [Int32.lt_iff_toInt_lt, hi', hj'']
            simp
          refine ⟨fun hlt => absurd hlt hmet, fun _ => ?_⟩
          simp only [wp_bind, wp_print, wp_pure, round_inl]
          refine wp_mono (wp_place hs'' (hlast x' rfl) hi') fun _ v hv => ?_
          obtain ⟨left, right, hparted, hholds, hleft, htouch⟩ := hv
          exact ⟨0, hpos, .met ⟨left, right, hparted, hholds, hleft,
            htouch.trans touches_print⟩ hmet⟩
      | inr hrest =>
          -- both scans have stopped at an element that is on the wrong side
          obtain ⟨m, y, rfl⟩ := hrest
          have hapart : i' < j' := by
            rw [Int32.lt_iff_toInt_lt, hi', hj'', List.length_append, List.length_singleton]
            omega
          obtain ⟨hhigh, hmoved⟩ := hend.resolve_left (by simp)
          have hlow : y ≤ key := hlast y (List.getLast?_concat (l := x' :: m))
          refine ⟨fun _ => ?_, fun hlt => absurd hapart hlt⟩
          simp only [wp_bind, wp_pure, round_inl]
          refine wp_mono (wp_swap hs'' hhigh hlow hi' hj'') fun _ v hv => ?_
          have hcount : (m ++ [x']).length = (m ++ [y]).length := by simp
          refine ⟨(m ++ [x']).length, ?_, .apart hv hlow (by simp) hi' (by rw [hcount, hj''])⟩
          omega

/-- **The loop parts the array around its first element.** -/
theorem wp_partitionLoop {last : Int32} (hs : slice s.cells a n = key :: xs) (hxs : xs ≠ [])
    (hn : (n : ℤ) < 2 ^ 31) (hlast : last.toInt = xs.length) (hf : n ≤ fuel) :
    wp (loop (partitionRound fuel key (some a)) fuel (0, last))
      (fun i t => Partitioned s t a n key (key :: xs) i) s := by
  have hlen := length_of_slice hs
  rw [List.length_cons] at hlen
  have hstart : Scanning s s a n key (key :: xs) [] key xs [] :=
    ⟨by rw [hs]; simp, Parting.start, Touches.refl a n s⟩
  have hlast' : last.toInt = (([] : List Int32).length + xs.length : ℕ) := by
    rw [hlast]
    simp
  refine wp_loop (Partitioning s a n key (key :: xs)) ?_ fuel xs.length (0, last) s (by omega)
    (.apart hstart le_rfl hxs rfl hlast')
  exact fun l b t hp => wp_partitionRound hn hf hp

/-! ## Printing the array -/

/-- Printing reads the array and changes nothing. -/
theorem wp_printLoop {dataLen : Int32} (hn : dataLen.toInt = n) (hf : n < fuel) :
    wp (loop (printRound (some a) dataLen) fuel 0)
      (fun _ t => t.cells = s.cells ∧ Touches a n s t) s := by
  have hmax := dataLen.toInt_lt
  refine wp_loop (fun l (i : Int32) t => ∃ k, i.toInt = (k : ℕ) ∧ k + l = n ∧
    t.cells = s.cells ∧ Touches a n s t) ?_ fuel n 0 s hf
    ⟨0, rfl, Nat.zero_add n, rfl, Touches.refl a n s⟩
  intro l i t h
  obtain ⟨k, hi, hk, hcells, htouch⟩ := h
  unfold printRound
  simp only [wp_ite, wp_bind, wp_load hi, wp_print, wp_signed, wp_pure]
  refine ⟨fun hlt => ?_, fun _ => ⟨hcells, htouch⟩⟩
  rw [Int32.lt_iff_toInt_lt, hi, hn] at hlt
  obtain ⟨hfit, hi'⟩ := fits_and_toInt_succ hi (by omega)
  have hin : Within a n (a + k) := ⟨Nat.le_add_right a k, by omega⟩
  exact ⟨hfit, l - 1, by omega, k + 1, hi', by omega, hcells,
    (htouch.trans (touches_reads hin)).trans touches_print⟩

end FastSort

end BlocTest
