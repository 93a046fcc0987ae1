import BlocTest.FindSubStr.Longest
/-!
# What the scan files

When the loop of `main` has ended, `sub_str` holds the maximal windows of
the string and nothing else.
-/

namespace BlocTest

namespace FindSubStr

open Prog Window

variable {α : Type} {s : List α} {m : Globals α}

/-- Of the empty string there is one window, and it is filed. -/
theorem Ended.subStr_nil (he : Ended ([] : List α) m) : m.subStr = [[]] := by
  obtain ⟨ws, hl, hlen, hfiled, -⟩ := he
  have htext : ∀ w : Window ([] : List α), w.text = [] := fun w => by
    rw [text, List.take_nil, List.drop_nil]
  obtain ⟨w, ws, rfl⟩ := List.exists_cons_of_ne_nil hl.ne_nil
  simp only [List.length_cons, List.length_nil] at hlen
  obtain rfl : ws = [] := List.length_eq_zero_iff.1 (by omega)
  rw [hfiled, List.map_singleton, htext]

/-- **The scan files exactly the maximal windows.** From a fresh process the
loop of `main` ends with `sub_str` the texts of all windows without a repeat
that cannot be extended at either end without one, each once and in the
order of their starts; of the empty string that is the one empty window. -/
theorem mainLoop_maximalWindows [DecidableEq α] (s : List α) (fuel : ℕ) (hs : s.length < 2 ^ 31)
    (hf : s.length < fuel) :
    ∃ cuts m, mainLoop fuel (fresh s) = .ok (cuts, m) ∧
      (∃ ws : List (Window s), ws.Pairwise (fun w v => w.start < v.start) ∧
        (∀ w, w ∈ ws ↔ w.Free ∧
          (∀ v : Window s, v.Free → v.stop = w.stop → w.start ≤ v.start) ∧
          ∀ v : Window s, v.Free → v.start = w.start → v.stop ≤ w.stop) ∧
        m.subStr = ws.map text) ∧
      (s = [] → m.subStr = [[]]) := by
  obtain ⟨cuts, m, hrun, he⟩ := wp_mainLoop hs hf
  refine ⟨cuts, m, hrun, ?_, ?_⟩
  · obtain ⟨ws, hl, -, hfiled, -⟩ := he
    refine ⟨ws, hl.sorted, fun w => ?_, hfiled⟩
    rw [hl.mem_iff_maximal, maximal_free_iff]
  · intro hnil
    subst hnil
    exact he.subStr_nil

theorem mainLoop_maximalWindows_abba :
    ∃ cuts m, mainLoop 5 (fresh "abba".toList) = .ok (cuts, m) ∧
      (∃ ws : List (Window "abba".toList), ws.Pairwise (fun w v => w.start < v.start) ∧
        (∀ w, w ∈ ws ↔ w.Free ∧
          (∀ v : Window "abba".toList, v.Free → v.stop = w.stop → w.start ≤ v.start) ∧
          ∀ v : Window "abba".toList, v.Free → v.start = w.start → v.stop ≤ w.stop) ∧
        m.subStr = ws.map text) ∧
      ("abba".toList = [] → m.subStr = [[]]) :=
  mainLoop_maximalWindows "abba".toList 5 (by decide) (by decide)

end FindSubStr

end BlocTest
