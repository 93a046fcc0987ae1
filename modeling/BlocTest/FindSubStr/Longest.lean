import BlocTest.Common.Window
import BlocTest.FindSubStr.Helpers.FindSubStr
/-!
# The loop of `main`, and the answer

Between two calls of `find_substr` the string that is left begins at a
position that the character before it blocks, and `sub_str` holds the
maximal windows that begin earlier. An index into `cur_str` is an index into
`test_str` because both begin there: a cut re-establishes that.
-/

namespace BlocTest

namespace FindSubStr

open Prog Window

variable {α : Type} {s : List α} {m m' : Globals α} {p fuel : ℕ}
variable {ws : List (Window s)}

/-! ## Between two calls of `find_substr` -/

/-- The scan is about to start over at position `p` of `s`. -/
structure Restarted (s : List α) (p : ℕ) (ws : List (Window s)) (m : Globals α) : Prop where
  before : p = 0 ∨ p < s.length
  lists : Lists ws p
  blocked : Blocked s p
  filed : m.subStr = ws.map text
  left : m.testStr = s.drop p
  empty : m.curStr = []

/-- The scan has reached the end of `s`, and nobody has asked for the
longest window yet. -/
def Ended (s : List α) (m : Globals α) : Prop :=
  ∃ ws : List (Window s), Lists ws (s.length + 1) ∧ ws.length ≤ max 1 s.length ∧
    m.subStr = ws.map text ∧ m.longest = none

theorem restarted_fresh (s : List α) : Restarted s 0 [] (fresh s) :=
  ⟨.inl rfl, lists_nil, .inl rfl, rfl, rfl, rfl⟩

/-- The window the scan of the rest goes over. -/
theorem text_eq_take {w : Window s} : w.text = (s.drop w.start).take w.size := by
  rw [text, size, List.drop_take]

/-- **A repeat cuts the string at a blocked position further on.** -/
theorem Restarted.cut (hr : Restarted s p ws m) (hpass : Pass m false m') :
    ∃ q w, p < q ∧ q < s.length ∧ Restarted s q (ws ++ [w]) m' := by
  obtain ⟨e, k, hke, he, hnd, heq, rfl⟩ := hpass
  have hleft := hr.left
  rw [hleft, List.length_drop] at he
  rw [hleft, List.getElem?_drop, List.getElem?_drop] at heq
  let w : Window s := ⟨p, p + e, by omega, by omega⟩
  have hsize : w.size = e := by
    show p + e - p = e
    omega
  have htext : w.text = m.testStr.take e := by
    rw [text_eq_take, hsize, hleft]
  have hw : w.Free := by
    rw [Free, htext]
    exact hnd
  have hcut := hr.lists.cut (w := w) (k := p + k) hr.blocked hw (Nat.le_add_right p k)
    (by show p + k < p + e; omega) (by show p + e < s.length; omega) heq
  refine ⟨p + k + 1, w, by omega, by omega, .inr (by omega), hcut.1, hcut.2, ?_, ?_, hr.empty⟩
  · show m.subStr ++ [m.testStr.take e] = (ws ++ [w]).map text
    rw [hr.filed, List.map_append, List.map_singleton, htext]
  · show m.testStr.drop (k + 1) = s.drop (p + k + 1)
    rw [hleft, List.drop_drop, Nat.add_assoc]

/-- **Without a repeat the rest of the string is the last window.** -/
theorem Restarted.ended (hr : Restarted s p ws m) (hlongest : m.longest = none)
    (hpass : Pass m true m') : Ended s m' := by
  obtain ⟨hnd, rfl⟩ := hpass
  have hbefore := hr.before
  let w : Window s := ⟨p, s.length, by omega, Nat.le_refl _⟩
  have htext : w.text = m.testStr := by
    rw [text, List.take_length, hr.left]
  have hw : w.Free := by
    rw [Free, htext]
    exact hnd
  have hlen := hr.lists.length_le
  refine ⟨ws ++ [w], hr.lists.last (w := w) hr.blocked hw rfl, ?_, ?_, hlongest⟩
  · rw [List.length_append, List.length_singleton]
    omega
  · show m.subStr ++ [m.testStr] = (ws ++ [w]).map text
    rw [hr.filed, List.map_append, List.map_singleton, htext]

/-! ## The loop of `main` -/

theorem Pass.longest {b : Bool} (hpass : Pass m b m') : m'.longest = m.longest := by
  cases b with
  | true =>
      obtain ⟨-, rfl⟩ := hpass
      rfl
  | false =>
      obtain ⟨e, k, -, -, -, -, rfl⟩ := hpass
      rfl

/-- **The loop of `main` ends**, having filed every maximal window. -/
theorem wp_mainLoop [DecidableEq α] (hs : s.length < 2 ^ 31) (hf : s.length < fuel) :
    wp (mainLoop fuel) (fun _ m => Ended s m) (fresh s) := by
  refine wp_loop (fun n _ m => ∃ p ws, n + p = s.length ∧ Restarted s p ws m ∧ m.longest = none)
    ?_ fuel s.length [] (fresh s) hf ⟨0, [], rfl, restarted_fresh s, rfl⟩
  rintro n printed m ⟨p, ws, hn, hr, hlongest⟩
  have hlen : m.testStr.length ≤ s.length := by
    rw [hr.left, List.length_drop]
    omega
  rw [mainRound, wp_bind]
  refine wp_mono (wp_findSubstr hr.empty (by omega) (by omega)) fun b m' hpass => ?_
  cases b with
  | true => exact wp_pure.2 (hr.ended hlongest hpass)
  | false =>
      obtain ⟨q, w, hpq, hq, hr'⟩ := hr.cut hpass
      simp only [wp_bind, wp_get, wp_pure, round_inl]
      exact ⟨s.length - q, by omega, q, ws ++ [w], by omega, hr', hpass.longest.trans hlongest⟩

/-! ## The answer -/

/-- **Folding the texts of the maximal windows finds the leftmost longest
one.** -/
theorem foldl_longer_leftmostLongest {first : Window s} {rest : List (Window s)}
    (hl : Lists (first :: rest) (s.length + 1)) :
    ∃ w : Window s, w.LeftmostLongest ∧ (rest.map text).foldl longer first.text = w.text := by
  obtain ⟨pre', post', hsplit, hpre, hpost⟩ := firstLongest_foldl first.text (rest.map text)
  rw [← List.map_cons] at hsplit
  obtain ⟨pre, tail, hws, hmap, htail⟩ := List.map_eq_append_iff.1 hsplit
  obtain ⟨w, post, rfl, hw, hmap'⟩ := List.map_eq_cons_iff.1 htail
  rw [hws] at hl
  rw [← hw, length_text] at hpre hpost
  refine ⟨w, hl.leftmostLongest (fun v hv => ?_) (fun v hv => ?_), hw.symm⟩
  · have := hpre v.text (hmap ▸ List.mem_map_of_mem hv)
    rwa [length_text] at this
  · have := hpost v.text (hmap' ▸ List.mem_map_of_mem hv)
    rwa [length_text] at this

theorem wp_maxSubstr_ended (hs : s.length < 2 ^ 31) (hf : s.length < fuel) (he : Ended s m) :
    wp (maxSubstr fuel m.subStr) (fun r _ => ∃ w : Window s, w.LeftmostLongest ∧ r = w.text) m := by
  obtain ⟨ws, hl, hlen, hfiled, hlongest⟩ := he
  obtain ⟨first, rest, rfl⟩ := List.exists_cons_of_ne_nil hl.ne_nil
  obtain ⟨w, hw, hfold⟩ := foldl_longer_leftmostLongest hl
  rw [hfiled, List.map_cons]
  have hsize : (first.text :: rest.map text).length = (first :: rest).length := by
    rw [List.length_cons, List.length_map, List.length_cons]
  refine wp_mono (wp_maxSubstr (by omega) (by omega)) ?_
  rintro r _ ⟨rfl, -⟩
  rw [hlongest, Option.getD_none]
  exact ⟨w, hw, hfold⟩

/-- **The program finds the leftmost longest substring without a repeat.**
From a fresh process the loop of `main` ends, and `max_substr` then answers
with the text of the leftmost longest window of `s` in which no character
occurs twice; of the empty string that is the empty string. -/
theorem main_leftmostLongest [DecidableEq α] (s : List α) (fuel : ℕ) (hs : s.length < 2 ^ 31)
    (hf : s.length < fuel) :
    ∃ printed m, main fuel (fresh s) = .ok (printed, m) ∧
      (∃ w : Window s, w.LeftmostLongest ∧ printed.answer = w.text) ∧
      (s = [] → printed.answer = []) := by
  have hwp : wp (main fuel)
      (fun printed _ => ∃ w : Window s, w.LeftmostLongest ∧ printed.answer = w.text) (fresh s) := by
    rw [main, wp_bind]
    refine wp_mono (wp_mainLoop hs hf) fun cuts m he => ?_
    simp only [wp_bind, wp_get]
    refine wp_mono (wp_maxSubstr_ended hs hf he) fun r m' hr => ?_
    exact wp_pure.2 hr
  obtain ⟨printed, m, hrun, w, hw, hanswer⟩ := hwp
  refine ⟨printed, m, hrun, ⟨w, hw, hanswer⟩, ?_⟩
  rintro rfl
  rw [hanswer, text, List.take_nil, List.drop_nil]

theorem main_leftmostLongest_abba :
    ∃ printed m, main 5 (fresh "abba".toList) = .ok (printed, m) ∧
      (∃ w : Window "abba".toList, w.LeftmostLongest ∧ printed.answer = w.text) ∧
      ("abba".toList = [] → printed.answer = []) :=
  main_leftmostLongest "abba".toList 5 (by decide) (by decide)

end FindSubStr

end BlocTest
