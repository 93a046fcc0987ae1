import BlocTest.FindSubStr.Model.FindSubStr
import Mathlib.Data.List.Nodup
/-!
# The functions of `find_sub_str.cpp`, one by one

What a call of `is_repeat`, `find_substr` and `max_substr` does to the
globals, for strings and vectors short enough to be indexed by an `int`.
-/

namespace BlocTest

namespace FindSubStr

open Prog

variable {α : Type} {m m' : Globals α} {t : List α} {c : α} {fuel k : ℕ}

theorem wp_substr {σ : Type} {Q : List α → σ → Prop} {s : σ} (hk : k ≤ t.length) :
    wp (substr t k) Q s ↔ Q (t.drop k) s := by
  rw [substr, if_pos hk, wp_pure]

section Scan

variable [DecidableEq α]

/-! ## `is_repeat` -/

theorem find_eq_npos (hc : c ∉ t) : find t c = npos := by
  rw [find, List.idxOf?_eq_none_iff.2 hc, Option.getD_none]

/-- A character found sits where `find` says, and was not there before. -/
theorem find_eq (hc : c ∈ t) : ∃ k, find t c = k ∧ k < t.length ∧ t[k]? = some c := by
  obtain ⟨k, hk⟩ := Option.isSome_iff_exists.1 (List.isSome_idxOf?.2 hc)
  obtain ⟨hlt, hget, -⟩ := List.idxOf?_eq_some_iff.1 hk
  refine ⟨k, by rw [find, hk, Option.getD_some], hlt, ?_⟩
  rw [List.getElem?_eq_getElem hlt, hget]

/-- `npos` survives the detour through `int`. -/
theorem toSize_ofSize_npos : toSize (ofSize npos) = npos := by decide

/-- A new character is appended to `cur_str`. -/
theorem wp_isRepeat_new {Q : Bool → Globals α → Prop} (hc : c ∉ m.curStr) :
    wp (isRepeat c) Q m ↔ Q false { m with curStr := m.curStr ++ [c] } := by
  simp only [isRepeat, wp_bind, wp_get, find_eq_npos hc, toSize_ofSize_npos, if_pos, wp_set,
    wp_pure]

/-- A repeated character files `cur_str` and cuts `test_str` after the
earlier occurrence. -/
theorem wp_isRepeat_old {Q : Bool → Globals α → Prop} (hk : find m.curStr c = k)
    (hlen : k + 1 ≤ m.testStr.length) (hint : k + 1 < 2 ^ 31) :
    wp (isRepeat c) Q m ↔ Q true { m with
      subStr := m.subStr ++ [m.curStr], testStr := m.testStr.drop (k + 1), curStr := [] } := by
  have hne : npos ≠ k := by
    unfold npos
    omega
  have hadd : (ofSize k).toInt + 1 = ((k + 1 : ℕ) : ℤ) := by
    rw [toInt_ofSize (by omega)]
    rfl
  have hfit : FitsInt ((k + 1 : ℕ) : ℤ) := by
    unfold FitsInt
    omega
  have hsize : toSize (Int32.ofInt ((k + 1 : ℕ) : ℤ)) = k + 1 := toSize_ofSize hint
  simp only [isRepeat, wp_bind, wp_get, hk, toSize_ofSize (by omega : k < 2 ^ 31),
    if_neg hne, wp_set, hadd, wp_signed, hsize, wp_substr hlen, wp_modify, wp_pure]
  exact and_iff_right hfit

/-! ## `find_substr` -/

/-- What a call of `find_substr` leaves, started with `cur_str` empty:
either all of `test_str` is filed, or the stretch before a repeat is and
`test_str` is cut after the earlier of the two. -/
def Pass (m : Globals α) : Bool → Globals α → Prop
  | true, m' => m.testStr.Nodup ∧
      m' = { m with subStr := m.subStr ++ [m.testStr], curStr := m.testStr }
  | false, m' => ∃ e k, k < e ∧ e < m.testStr.length ∧ (m.testStr.take e).Nodup ∧
      m.testStr[k]? = m.testStr[e]? ∧
      m' = { m with subStr := m.subStr ++ [m.testStr.take e], testStr := m.testStr.drop (k + 1) }

/-- The scan after `k` characters: they are all in `cur_str`, and no two are
equal. -/
structure Scanned (m : Globals α) (k : ℕ) (i : Int32) (m' : Globals α) : Prop where
  index : i.toInt = k
  le : k ≤ m.testStr.length
  nodup : (m.testStr.take k).Nodup
  globals : m' = { m with curStr := m.testStr.take k }

omit [DecidableEq α] in
/-- One more character that `cur_str` does not have. -/
theorem Scanned.next {i : Int32} (hs : Scanned m k i m') (hc : m.testStr[k]? = some c)
    (hnew : c ∉ m.testStr.take k) (hint : m.testStr.length < 2 ^ 31) :
    FitsInt (i.toInt + 1) ∧ Scanned m (k + 1) (Int32.ofInt (i.toInt + 1))
      { m' with curStr := m'.curStr ++ [c] } := by
  obtain ⟨hi, -, hnd, rfl⟩ := hs
  have hlt := (List.getElem?_eq_some_iff.1 hc).1
  obtain ⟨hfit, hi'⟩ := fits_and_toInt_succ hi (by omega)
  have htake : m.testStr.take k ++ [c] = m.testStr.take (k + 1) := by
    rw [List.take_add_one, hc]
    rfl
  refine ⟨hfit, hi', hlt, ?_, by rw [htake]⟩
  rw [← htake]
  refine List.nodup_append.2 ⟨hnd, List.nodup_singleton c, ?_⟩
  rintro a ha b hb rfl
  exact hnew (List.mem_singleton.1 hb ▸ ha)

theorem wp_findSubstr (hcur : m.curStr = []) (hint : m.testStr.length < 2 ^ 31)
    (hf : m.testStr.length < fuel) : wp (findSubstr fuel) (Pass m) m := by
  refine wp_loop (fun n i m' => ∃ k, n + k = m.testStr.length ∧ Scanned m k i m') ?_ fuel
    m.testStr.length 0 m hf ⟨0, rfl, rfl, Nat.zero_le _, List.nodup_nil, ?_⟩
  · rintro n i _ ⟨k, hn, hi, hle, hnd, rfl⟩
    simp only [findRound, wp_bind, wp_get, toSize_of_toInt hi]
    cases hc : m.testStr[k]? with
    | none =>
        have hall : m.testStr.take k = m.testStr :=
          List.take_of_length_le (List.getElem?_eq_none_iff.1 hc)
        rw [hall] at hnd ⊢
        simp only [wp_bind, wp_set, wp_pure, round_inr]
        exact ⟨hnd, rfl⟩
    | some c =>
        have hlt := (List.getElem?_eq_some_iff.1 hc).1
        have hlen : (m.testStr.take k).length = k := by
          rw [List.length_take]
          omega
        by_cases hmem : c ∈ m.testStr.take k
        · obtain ⟨j, hj, hjlt, hget⟩ := find_eq hmem
          rw [List.getElem?_take_of_lt (by omega)] at hget
          simp only [wp_bind]
          rw [wp_isRepeat_old hj (by simp only; omega) (by omega)]
          simp only [wp_pure, round_inr]
          exact ⟨k, j, by omega, hlt, hnd, by rw [hget, hc], by rw [hcur]⟩
        · obtain ⟨hfit, hnext⟩ := Scanned.next ⟨hi, hle, hnd, rfl⟩ hc hmem hint
          simp only [wp_bind]
          rw [wp_isRepeat_new hmem]
          simp only [wp_bind, wp_signed, wp_pure, round_inl]
          exact ⟨hfit, n - 1, by omega, k + 1, by omega, hnext⟩
  · rw [List.take_zero, ← hcur]

end Scan

/-! ## `max_substr` -/

/-- The running maximum: a later string wins only by being longer. -/
def longer (longest str : List α) : List α := if longest.length < str.length then str else longest

/-- The loop folds the rest of the vector into the static. -/
theorem wp_maxLoop {strArray : List (List α)} {first : List α} (hlongest : m.longest = some first)
    (hk : 1 ≤ strArray.length) (hint : strArray.length < 2 ^ 31) (hf : strArray.length ≤ fuel) :
    wp (loop (maxRound strArray) fuel 1)
      (fun _ m' => m' = { m with longest := some ((strArray.drop 1).foldl longer first) }) m := by
  refine wp_loop (fun n (i : Int32) m' => ∃ (k : ℕ) (l : List α), n + k = strArray.length ∧
    i.toInt = k ∧ m' = { m with longest := some l } ∧
    (strArray.drop k).foldl longer l = (strArray.drop 1).foldl longer first) ?_ fuel
    (strArray.length - 1) 1 m (by omega) ⟨1, first, by omega, rfl, by rw [← hlongest], rfl⟩
  rintro n i _ ⟨k, l, hn, hi, rfl, hfold⟩
  simp only [maxRound, toSize_of_toInt hi]
  cases hstr : strArray[k]? with
  | none =>
      have hall : strArray.drop k = [] := List.drop_eq_nil_of_le (List.getElem?_eq_none_iff.1 hstr)
      rw [hall, List.foldl_nil] at hfold
      simp only [wp_pure, round_inr, hfold]
  | some str =>
      obtain ⟨hlt, hget⟩ := List.getElem?_eq_some_iff.1 hstr
      obtain ⟨hfit, hi'⟩ := fits_and_toInt_succ hi (by omega)
      simp only [wp_bind, wp_modify, wp_signed, wp_pure, round_inl, Option.map_some]
      refine ⟨hfit, n - 1, by omega, k + 1, longer l str, by omega, hi', rfl, ?_⟩
      rw [← hfold, List.drop_eq_getElem_cons hlt, List.foldl_cons, hget]

/-- **A call of `max_substr`** folds the vector after its first string. It
starts from that string on the first call, and from the static later on. -/
theorem wp_maxSubstr {first : List α} {rest : List (List α)}
    (hint : (first :: rest).length < 2 ^ 31) (hf : (first :: rest).length ≤ fuel) :
    wp (maxSubstr fuel (first :: rest)) (fun r m' =>
      r = rest.foldl longer (m.longest.getD first) ∧ m' = { m with longest := some r }) m := by
  simp only [maxSubstr, wp_bind, wp_get]
  cases hlongest : m.longest with
  | none =>
      simp only [wp_bind, wp_set]
      refine wp_mono (wp_maxLoop rfl (by simp) hint hf) ?_
      rintro _ _ rfl
      simp only [wp_get, wp_pure]
      exact ⟨rfl, rfl⟩
  | some l =>
      rw [wp_bind]
      refine wp_mono (wp_maxLoop hlongest (by simp) hint hf) ?_
      rintro _ _ rfl
      simp only [wp_bind, wp_get, wp_pure]
      exact ⟨rfl, rfl⟩

/-- **The index of the loop gets no further than an `int`**, so on a vector
that is too long `max_substr` never returns. -/
theorem not_wp_maxSubstr {strArray : List (List α)} {Q : List α → Globals α → Prop}
    (hlen : 2 ^ 31 ≤ strArray.length) : ¬ wp (maxSubstr fuel strArray) Q m := by
  have hloop : ∀ (m : Globals α) (R : Unit → Globals α → Prop),
      ¬ wp (loop (maxRound strArray) fuel 1) R m := by
    intro m R
    refine not_wp_loop (fun (i : Int32) _ => 0 ≤ i.toInt) ?_ fuel 1 m (by decide)
    intro i m R hi hround
    have hlt := i.toInt_lt
    have hk : i.toInt.toNat < strArray.length := by omega
    have hsize : toSize i = i.toInt.toNat := toSize_of_toInt (Int.toNat_of_nonneg hi).symm
    simp only [maxRound, hsize, List.getElem?_eq_getElem hk, wp_bind, wp_modify, wp_signed,
      wp_pure] at hround
    refine ⟨_, _, ?_, hround.2⟩
    rw [toInt_ofInt_of_fits hround.1]
    omega
  simp only [maxSubstr, wp_bind, wp_get]
  intro h
  split at h
  · exact hloop _ _ (wp_bind.1 h)
  · exact wp_fault (wp_bind.1 h)
  · simp only [wp_bind, wp_set] at h
    exact hloop _ _ h

/-- `str` is the first among the longest strings of `strs`. -/
def FirstLongest (strs : List (List α)) (str : List α) : Prop :=
  ∃ pre post, strs = pre ++ str :: post ∧ (∀ x ∈ pre, x.length < str.length) ∧
    ∀ x ∈ post, x.length ≤ str.length

theorem FirstLongest.length_le {strs : List (List α)} {str x : List α} (h : FirstLongest strs str)
    (hx : x ∈ strs) : x.length ≤ str.length := by
  obtain ⟨pre, post, rfl, hpre, hpost⟩ := h
  rcases List.mem_append.1 hx with hx | hx
  · exact Nat.le_of_lt (hpre x hx)
  · rcases List.mem_cons.1 hx with rfl | hx
    · exact Nat.le_refl _
    · exact hpost x hx

/-- It is the first string that is at least as long as it. -/
theorem FirstLongest.find?_eq {strs : List (List α)} {str : List α} (h : FirstLongest strs str) :
    strs.find? (fun x => decide (str.length ≤ x.length)) = some str := by
  obtain ⟨pre, post, rfl, hpre, -⟩ := h
  rw [List.find?_eq_some_iff_append]
  refine ⟨by simp, pre, post, rfl, fun x hx => ?_⟩
  have := hpre x hx
  simp only [Bool.not_eq_eq_eq_not, Bool.not_true, decide_eq_false_iff_not]
  omega

theorem FirstLongest.mem {strs : List (List α)} {str : List α} (h : FirstLongest strs str) :
    str ∈ strs := by
  obtain ⟨pre, post, rfl, -, -⟩ := h
  simp

/-- There is one first longest string. -/
theorem FirstLongest.unique {strs : List (List α)} {str str' : List α} (h : FirstLongest strs str)
    (h' : FirstLongest strs str') : str = str' := by
  have hle := h.length_le h'.mem
  have hle' := h'.length_le h.mem
  have heq : str.length = str'.length := by omega
  have hfind := h.find?_eq
  rw [heq, h'.find?_eq, Option.some.injEq] at hfind
  exact hfind.symm

/-- One more string is compared with the first longest so far. -/
theorem FirstLongest.concat {strs : List (List α)} {longest : List α}
    (h : FirstLongest strs longest) (str : List α) :
    FirstLongest (strs ++ [str]) (longer longest str) := by
  unfold longer
  split
  · -- `str` is longer than all there were
    rename_i hlt
    refine ⟨strs, [], rfl, fun x hx => ?_, fun x hx => absurd hx List.not_mem_nil⟩
    have hle := h.length_le hx
    omega
  · obtain ⟨pre, post, rfl, hpre, hpost⟩ := h
    refine ⟨pre, post ++ [str], by rw [List.append_assoc, List.cons_append], hpre, fun x hx => ?_⟩
    rcases List.mem_append.1 hx with hx | hx
    · exact hpost x hx
    · rw [List.mem_singleton.1 hx]
      omega

/-- **The fold picks the first among the longest.** -/
theorem FirstLongest.foldl {strs : List (List α)} {longest : List α}
    (h : FirstLongest strs longest) (rest : List (List α)) :
    FirstLongest (strs ++ rest) (rest.foldl longer longest) := by
  induction rest generalizing strs longest with
  | nil =>
      rw [List.append_nil]
      exact h
  | cons str rest ih =>
      rw [List.append_cons, List.foldl_cons]
      exact ih (h.concat str)

theorem firstLongest_foldl (first : List α) (rest : List (List α)) :
    FirstLongest (first :: rest) (rest.foldl longer first) :=
  FirstLongest.foldl ⟨[], [], rfl, by simp, by simp⟩ rest

end FindSubStr

end BlocTest
