import Mathlib.Data.List.Perm.Basic
import Mathlib.Data.Nat.Notation
import Mathlib.Order.Lattice
/-!
# Partitioning by exchanges

A scan from the right passes the elements above a key, a scan from the left
those that are not, and where both stop the two elements change places. What
this does to the elements above the key is determined by the list alone:
those already in the right part stay where they are, and the places of the
others are taken, from right to left, by the elements above the key in the
left part, first one first. `above` is that list.

`Parting` is the invariant of the two scans and `EndsAlone` what becomes of
the right part when it is partitioned again and again.
-/

namespace BlocTest

variable {α : Type} [LinearOrder α] {key x y : α} {xs mid lows highs : List α}

/-! ## The elements above a key -/

/-- Put `bs`, in order, in the places of the elements that are not above the
key. -/
def fill (key : α) : List α → List α → List α
  | [], _ => []
  | x :: xs, [] => x :: xs
  | x :: xs, b :: bs => if x ≤ key then b :: fill key xs bs else x :: fill key xs (b :: bs)

/-- The number of elements that are not above the key. -/
def notAbove (key : α) (xs : List α) : ℕ := xs.countP (· ≤ key)

/-- The elements above the key, in the order a partition leaves them. -/
def above (key : α) (xs : List α) : List α :=
  fill key (xs.drop (notAbove key xs)) ((xs.take (notAbove key xs)).filter (key < ·)).reverse

/-- An element that is not above the key is counted. -/
theorem notAbove_cons_low (hx : x ≤ key) : notAbove key (x :: xs) = notAbove key xs + 1 :=
  List.countP_cons_of_pos (decide_eq_true hx)

theorem notAbove_cons_high (hx : key < x) : notAbove key (x :: xs) = notAbove key xs :=
  List.countP_cons_of_neg (by simpa using hx)

theorem notAbove_append {ys : List α} :
    notAbove key (xs ++ ys) = notAbove key xs + notAbove key ys := List.countP_append

theorem notAbove_le_length : notAbove key xs ≤ xs.length := List.countP_le_length

/-- With nothing to put, nothing is replaced. -/
theorem fill_nil : fill key xs [] = xs := by
  cases xs <;> rfl

/-- An element above the key keeps its place. -/
theorem fill_high {bs : List α} (hx : key < x) : fill key (x :: xs) bs = x :: fill key xs bs := by
  cases bs with
  | nil => rw [fill, fill_nil]
  | cons b bs => rw [fill, if_neg (not_le_of_gt hx)]

/-- At the end too. -/
theorem fill_concat_high {bs : List α} (hx : key < x) :
    fill key (xs ++ [x]) bs = fill key xs bs ++ [x] := by
  induction xs generalizing bs with
  | nil => rw [List.nil_append, fill_high hx]; rfl
  | cons a xs ih =>
      cases bs with
      | nil => rw [fill_nil, fill_nil]
      | cons b bs =>
          rw [List.cons_append, fill, fill]
          split
          · rw [ih, List.cons_append]
          · rw [ih, List.cons_append]

/-- The last place is taken by the last element put. -/
theorem fill_concat_low {bs : List α} (hy : y ≤ key) (hlen : bs.length = notAbove key xs) :
    fill key (xs ++ [y]) (bs ++ [x]) = fill key xs bs ++ [x] := by
  induction xs generalizing bs with
  | nil =>
      obtain rfl : bs = [] := List.eq_nil_of_length_eq_zero hlen
      exact if_pos hy
  | cons a xs ih =>
      by_cases ha : a ≤ key
      · rw [notAbove_cons_low ha] at hlen
        cases bs with
        | nil => cases hlen
        | cons b bs =>
            rw [List.length_cons, Nat.succ.injEq] at hlen
            rw [List.cons_append, List.cons_append, fill, if_pos ha, fill, if_pos ha, ih hlen,
              List.cons_append]
      · rw [notAbove_cons_high (lt_of_not_ge ha)] at hlen
        rw [List.cons_append, fill_high (lt_of_not_ge ha), fill_high (lt_of_not_ge ha), ih hlen,
          List.cons_append]

/-! ## Taking elements off the ends -/

/-- The front, as long as there are elements not above the key, holds as many
of the others as the rest holds of these. -/
theorem length_misplaced :
    ((xs.take (notAbove key xs)).filter (key < ·)).length =
      notAbove key (xs.drop (notAbove key xs)) := by
  have hparts : notAbove key (xs.take (notAbove key xs)) +
      notAbove key (xs.drop (notAbove key xs)) = notAbove key xs := by
    rw [← notAbove_append, List.take_append_drop]
  have hfront : (xs.take (notAbove key xs)).length = notAbove key (xs.take (notAbove key xs)) + _ :=
    List.length_eq_countP_add_countP (· ≤ key)
  have hhigh : (xs.take (notAbove key xs)).countP (fun x => ¬ decide (x ≤ key) = true) =
      ((xs.take (notAbove key xs)).filter (key < ·)).length := by
    rw [← List.countP_eq_length_filter]
    exact List.countP_congr fun x _ => by simp
  rw [List.length_take, Nat.min_eq_left notAbove_le_length, hhigh] at hfront
  omega

theorem above_nil : above key ([] : List α) = [] := rfl

/-- An element above the key at the end stays there. -/
theorem above_concat_high (hx : key < x) : above key (xs ++ [x]) = above key xs ++ [x] := by
  have hcount : notAbove key (xs ++ [x]) = notAbove key xs := by
    rw [notAbove_append, notAbove_cons_high hx]
    rfl
  rw [above, above, hcount, List.take_append_of_le_length notAbove_le_length,
    List.drop_append_of_le_length notAbove_le_length, fill_concat_high hx]

/-- One that is not, in front, is passed over. -/
theorem above_cons_low (hx : x ≤ key) : above key (x :: xs) = above key xs := by
  rw [above, above, notAbove_cons_low hx, List.take_succ_cons, List.drop_succ_cons,
    List.filter_cons_of_neg (by simpa using hx)]

/-- **An exchange** of the two ends puts the first element last. -/
theorem above_exchange (hx : key < x) (hy : y ≤ key) :
    above key (x :: xs ++ [y]) = above key xs ++ [x] := by
  have hcount : notAbove key (x :: xs ++ [y]) = notAbove key xs + 1 := by
    rw [notAbove_append, notAbove_cons_high hx, notAbove_cons_low hy]
    rfl
  have hlen : ((xs.take (notAbove key xs)).filter (key < ·)).reverse.length =
      notAbove key (xs.drop (notAbove key xs)) := by
    rw [List.length_reverse, length_misplaced]
  rw [above, above, hcount, List.cons_append, List.take_succ_cons, List.drop_succ_cons,
    List.take_append_of_le_length notAbove_le_length,
    List.drop_append_of_le_length notAbove_le_length,
    List.filter_cons_of_pos (by simpa using hx), List.reverse_cons, fill_concat_low hy hlen]

/-! ## The invariant of the scans -/

/-- A list `xs` being parted around `key`: `lows` have been found not above
it and `highs` above it, and `mid` is between them. -/
structure Parting (key : α) (xs lows mid highs : List α) : Prop where
  perm : xs.Perm (lows ++ mid ++ highs)
  first : (lows ++ mid).head? = some key
  low : ∀ x ∈ lows, x ≤ key
  high : ∀ x ∈ highs, key < x
  above : above key xs = above key mid ++ highs

/-- At the start nothing has been looked at. -/
theorem Parting.start : Parting key (key :: xs) [] (key :: xs) [] where
  perm := by simp
  first := rfl
  low := fun x hx => absurd hx List.not_mem_nil
  high := fun x hx => absurd hx List.not_mem_nil
  above := (List.append_nil _).symm

/-- What is at the front of the rest is not above the key when nothing is
before it. -/
theorem Parting.low_of_nil (hp : Parting key xs [] (x :: mid) highs) : x = key :=
  Option.some.inj hp.first

/-- The scan from the right passes an element. -/
theorem Parting.passHigh (hp : Parting key xs lows (y :: mid ++ [x]) highs) (hx : key < x) :
    Parting key xs lows (y :: mid) (x :: highs) where
  perm := by simpa using hp.perm
  first := by
    have hfirst := hp.first
    rwa [← List.append_assoc, List.head?_append_of_ne_nil _ (by simp)] at hfirst
  low := hp.low
  high := List.forall_mem_cons.2 ⟨hx, hp.high⟩
  above := by rw [hp.above, above_concat_high hx, List.append_assoc, List.singleton_append]

/-- The scan from the left passes an element. -/
theorem Parting.passLow (hp : Parting key xs lows (x :: mid) highs) (hx : x ≤ key) :
    Parting key xs (lows ++ [x]) mid highs where
  perm := by simpa using hp.perm
  first := by simpa using hp.first
  low := by
    intro z hz
    rcases List.mem_append.1 hz with hz | hz
    · exact hp.low z hz
    · rwa [List.mem_singleton.1 hz]
  high := hp.high
  above := by rw [hp.above, above_cons_low hx]

omit [LinearOrder α] in
/-- The two ends exchanged. -/
theorem perm_exchange : (x :: mid ++ [y]).Perm (y :: mid ++ [x]) :=
  calc
    (x :: mid ++ [y]).Perm (y :: x :: mid) := List.perm_append_singleton y (x :: mid)
    (y :: x :: mid).Perm (y :: mid ++ [x]) := (List.perm_append_singleton x mid).symm.cons y

/-- Both scans have stopped and the two elements change places. -/
theorem Parting.exchange (hp : Parting key xs lows (x :: mid ++ [y]) highs) (hx : key < x)
    (hy : y ≤ key) : Parting key xs lows (y :: mid ++ [x]) highs where
  perm := hp.perm.trans ((perm_exchange.append_left lows).append_right highs)
  first := by
    cases lows with
    | nil => exact absurd hx (not_lt_of_ge (le_of_eq hp.low_of_nil))
    | cons z lows => exact hp.first
  low := hp.low
  high := hp.high
  above := by
    rw [hp.above, above_exchange hx hy, above_concat_high hx, above_cons_low hy]

/-- A list parted around `key`, with the key between the two parts. -/
structure Parted (key : α) (xs left right : List α) : Prop where
  perm : xs.Perm (left ++ key :: right)
  low : ∀ x ∈ left, x ≤ key
  high : ∀ x ∈ right, key < x
  above : above key xs = right

/-- The scans meet at the key itself. -/
theorem Parting.parted_nil (hp : Parting key xs [] [x] highs) : Parted key xs [] highs where
  perm := by simpa [hp.low_of_nil] using hp.perm
  low := hp.low
  high := hp.high
  above := by
    rw [hp.above, above_cons_low (le_of_eq hp.low_of_nil), above_nil, List.nil_append]

/-- The scans meet at `x`, and the key changes places with it. -/
theorem Parting.parted_cons (hp : Parting key xs (y :: lows) [x] highs) (hx : x ≤ key) :
    y = key ∧ Parted key xs (x :: lows) highs := by
  obtain rfl : y = key := Option.some.inj hp.first
  refine ⟨rfl, ?_, ?_, hp.high, ?_⟩
  · simpa using hp.perm.trans (perm_exchange.append_right highs)
  · exact List.forall_mem_cons.2 ⟨hx, (List.forall_mem_cons.1 hp.low).2⟩
  · rw [hp.above, above_cons_low hx, above_nil, List.nil_append]

/-- **The parts can be sorted apart**: put together around the key they are a
sorted arrangement of the whole. -/
theorem Parted.sorted {left right left' right' : List α} (hp : Parted key xs left right)
    (hleft : left'.Pairwise (· ≤ ·)) (hright : right'.Pairwise (· ≤ ·))
    (hl : left'.Perm left) (hr : right'.Perm right) :
    (left' ++ key :: right').Pairwise (· ≤ ·) ∧ (left' ++ key :: right').Perm xs := by
  have hlow : ∀ x ∈ left', x ≤ key := fun x hx => hp.low x (hl.subset hx)
  have hhigh : ∀ x ∈ right', key ≤ x := fun x hx => le_of_lt (hp.high x (hr.subset hx))
  constructor
  · refine List.pairwise_append.2 ⟨hleft, List.pairwise_cons.2 ⟨hhigh, hright⟩, ?_⟩
    intro x hx y hy
    rcases List.mem_cons.1 hy with rfl | hy
    · exact hlow x hx
    · exact le_trans (hlow x hx) (hhigh y hy)
  · exact (hl.append (hr.cons key)).trans hp.perm.symm

/-! ## Partitioning the right part again and again -/

/-- The list comes down to a single element when, again and again, the
elements above its first one are taken, and never to none. -/
inductive EndsAlone : List α → Prop where
  | single (x : α) : EndsAlone [x]
  | step {key : α} {xs : List α} (hne : xs ≠ []) (h : EndsAlone (above key xs)) :
      EndsAlone (key :: xs)

theorem not_endsAlone_nil : ¬ EndsAlone ([] : List α) := by
  intro h
  cases h

/-- One more partition. -/
theorem endsAlone_cons (hne : xs ≠ []) :
    EndsAlone (key :: xs) ↔ EndsAlone (above key (key :: xs)) := by
  rw [above_cons_low le_rfl]
  constructor
  · intro h
    cases h with
    | single => exact absurd rfl hne
    | step _ h => exact h
  · exact EndsAlone.step hne

end BlocTest
