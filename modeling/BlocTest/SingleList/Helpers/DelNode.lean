import BlocTest.SingleList.Model.DelNode
import BlocTest.SingleList.Helpers.List
/-!
# The unwinding of `traversal_list`

Run down a chain `l`, the recursion comes back with the count at `l.length`.
It reaches `n + 1` at the node with exactly `n` nodes after it, if there is
one, and it is the only frame that touches the heap. The lemmas go by where
`n` lies: off the chain nothing happens, inside it one node is unlinked,
and at `0` and at the largest `int` some frame faults.
-/

namespace BlocTest

namespace SingleList

open Prog

variable {ι ν : Type}
variable {h : Heap (ListNode ι ν)} {p : Ptr} {l : List ℕ} {a : ℕ} {m : ListNode ι ν}
variable {n c : Int32} {fuel : ℕ} {Q : Int32 → Heap (ListNode ι ν) → Prop}

/-- One frame: the recursion from the next node, then the frame's own
part. -/
theorem wp_traversal_cons (hm : h.cell a = some m) :
    wp (traversalList n (fuel + 1) c (some a)) Q h ↔
      wp (traversalList n fuel c m.next) (fun count h' => wp (unwind n (some a) count) Q h') h := by
  simp only [traversalList, wp_bind, Heap.wp_getNext hm, linked_next]

/-- A frame whose count is not `n + 1` only counts. -/
theorem wp_unwind_pass (hc : FitsInt (c.toInt + 1)) (hn : FitsInt (n.toInt + 1))
    (hne : c.toInt ≠ n.toInt) :
    wp (unwind n p c) Q h ↔ Q (Int32.ofInt (c.toInt + 1)) h := by
  have hne' : Int32.ofInt (c.toInt + 1) ≠ Int32.ofInt (n.toInt + 1) := by
    rw [Ne, ofInt_eq_iff hc hn]
    omega
  simp only [unwind, wp_bind, wp_signed, hc, hn, true_and, if_neg hne', wp_pure]

/-- The frame whose count is `n + 1` unlinks its node's successor. -/
theorem wp_unwind_hit (hc : FitsInt (c.toInt + 1)) (heq : c.toInt = n.toInt) {b : ℕ}
    {mb : ListNode ι ν} (hm : h.cell a = some m) (hb : m.next = some b) (hmb : h.cell b = some mb)
    (hab : b ≠ a) :
    wp (unwind n (some a) c) Q h ↔
      Q (Int32.ofInt (c.toInt + 1)) ((h.link a mb.next).free b) := by
  have hmb' : (h.link a mb.next).cell b = some mb := by rw [Heap.link_cell_ne hab, hmb]
  simp only [unwind, wp_bind, wp_signed, heq, heq ▸ hc, true_and, if_true]
  rw [Heap.wp_getNext hm, linked_next, hb, Heap.wp_getNext hmb, linked_next,
    Heap.wp_setNext_link hm, Heap.wp_delete hmb', wp_pure]

/-- **Off the chain nothing happens.** -/
theorem wp_traversal_quiet (hn : FitsInt (n.toInt + 1)) :
    ∀ {l : List ℕ} {p : Ptr} {fuel : ℕ}, Chain h p l → l.length < fuel → (l.length : ℤ) ≤ intMax →
      (n.toInt < 0 ∨ (l.length : ℤ) ≤ n.toInt) →
      wp (traversalList n fuel 0 p) (fun c h' => c.toInt = l.length ∧ h' = h) h := by
  intro l
  induction l with
  | nil =>
      rintro p (_ | fuel) hc hf - -
      · omega
      · rw [chain_nil.1 hc]
        exact wp_pure.2 ⟨rfl, rfl⟩
  | cons a l ih =>
      rintro p (_ | fuel) hc hf hk hq
      · omega
      obtain ⟨rfl, m, hm, hl⟩ := hc
      rw [List.length_cons] at hf hk hq
      rw [wp_traversal_cons hm]
      refine wp_mono (ih hl (by omega) (by omega) (by omega)) ?_
      rintro c _ ⟨hc, rfl⟩
      have hfit : FitsInt (c.toInt + 1) := fits_succ (by omega)
      rw [wp_unwind_pass hfit hn (by omega), toInt_ofInt_of_fits hfit]
      exact ⟨by rw [hc, List.length_cons]; omega, rfl⟩

/-- **Inside the chain one node is unlinked**: the one with `n - 1` nodes
after it, by the frame before it. -/
theorem wp_traversal_hit (hn : FitsInt (n.toInt + 1)) (hpos : 1 ≤ n.toInt) :
    ∀ {l : List ℕ} {p : Ptr} {fuel : ℕ}, Chain h p l → l.length < fuel → (l.length : ℤ) ≤ intMax →
      n.toInt < l.length →
      wp (traversalList n fuel 0 p) (fun c h' => c.toInt = l.length ∧
        ∃ pre a b post mb, l = pre ++ a :: b :: post ∧ (post.length : ℤ) + 1 = n.toInt ∧
          h.cell b = some mb ∧ h' = (h.link a mb.next).free b) h := by
  intro l
  induction l with
  | nil =>
      intro p fuel _ _ _ hlt
      rw [List.length_nil] at hlt
      omega
  | cons a l ih =>
      rintro p (_ | fuel) hc hf hk hlt
      · omega
      have hnd := chain_nodup hc
      obtain ⟨rfl, m, hm, hl⟩ := hc
      rw [List.length_cons] at hf hk hlt
      rw [wp_traversal_cons hm]
      rcases Int.lt_or_le n.toInt l.length with hin | hout
      · -- the node lies further down: this frame only counts
        refine wp_mono (ih hl (by omega) (by omega) hin) ?_
        rintro c h' ⟨hc, pre, a', b, post, mb, rfl, hpost, hmb, rfl⟩
        have hfit : FitsInt (c.toInt + 1) := fits_succ (by omega)
        rw [wp_unwind_pass hfit hn (by omega), toInt_ofInt_of_fits hfit]
        exact ⟨by rw [hc, List.length_cons]; omega, a :: pre, a', b, post, mb, rfl, hpost, hmb, rfl⟩
      · -- this is the frame: exactly `n` nodes follow `a`
        refine wp_mono (wp_traversal_quiet hn hl (by omega) (by omega) (.inr hout)) ?_
        rintro c _ ⟨hc, rfl⟩
        have hfit : FitsInt (c.toInt + 1) := fits_succ (by omega)
        cases l with
        | nil => rw [List.length_nil] at hlt hout; omega
        | cons b post =>
            obtain ⟨hb, mb, hmb, -⟩ := hl
            have hab : b ≠ a := by
              rintro rfl
              exact (List.nodup_cons.1 hnd).1 List.mem_cons_self
            rw [wp_unwind_hit hfit (by omega) hm hb hmb hab, toInt_ofInt_of_fits hfit]
            rw [List.length_cons] at hc hlt hout
            exact ⟨by rw [hc, List.length_cons, List.length_cons]; omega,
              [], a, b, post, mb, rfl, by omega, hmb, rfl⟩

/-- **At `0` the last frame reads through null**: its count is `1`, and it
has no successor. -/
theorem not_wp_traversal_zero (hn : n.toInt = 0) :
    ∀ {l : List ℕ} {p : Ptr} {fuel : ℕ} {Q : Int32 → Heap (ListNode ι ν) → Prop},
      Chain h p l → l ≠ [] → ¬ wp (traversalList n fuel 0 p) Q h := by
  intro l
  induction l with
  | nil => exact fun _ hne => absurd rfl hne
  | cons a l ih =>
      rintro p (_ | fuel) Q ⟨rfl, m, hm, hl⟩ -
      · exact wp_fault
      rw [wp_traversal_cons hm]
      cases l with
      | nil =>
          have hnone : m.next = none := chain_nil.1 hl
          intro h
          cases fuel with
          | zero => exact wp_fault h
          | succ fuel =>
              rw [hnone, traversalList, wp_pure] at h
              simp only [unwind, wp_bind, wp_signed, hn] at h
              simp [Heap.wp_getNext hm, hnone] at h
      | cons b l => exact ih hl (by simp)

/-- **At the largest `int` every frame overflows** in computing `n + 1`. -/
theorem not_wp_traversal_max (hn : ¬ FitsInt (n.toInt + 1)) (hc : Chain h p l) (hl : l ≠ []) :
    ¬ wp (traversalList n fuel c p) Q h := by
  intro hwp
  cases l with
  | nil => exact hl rfl
  | cons a l =>
      obtain ⟨rfl, m, hm, -⟩ := hc
      cases fuel with
      | zero => exact wp_fault hwp
      | succ fuel =>
          rw [wp_traversal_cons hm] at hwp
          obtain ⟨c', h', -, h⟩ := hwp
          simp [unwind, hn] at h

/-- Whatever else a traversal does, it counts the chain. -/
theorem wp_traversal_count :
    ∀ {l : List ℕ} {p : Ptr} {fuel : ℕ} {Q : Int32 → Heap (ListNode ι ν) → Prop},
      Chain h p l → wp (traversalList n fuel 0 p) Q h →
      wp (traversalList n fuel 0 p) (fun c h' => Q c h' ∧ c.toInt = l.length) h := by
  intro l
  induction l with
  | nil =>
      rintro p (_ | fuel) Q hc hwp
      · exact absurd hwp wp_fault
      · rw [chain_nil.1 hc] at hwp ⊢
        exact wp_pure.2 ⟨wp_pure.1 hwp, rfl⟩
  | cons a l ih =>
      rintro p (_ | fuel) Q ⟨rfl, m, hm, hl⟩ hwp
      · exact absurd hwp wp_fault
      rw [wp_traversal_cons hm] at hwp ⊢
      refine wp_mono (ih hl hwp) ?_
      rintro c h' ⟨hframe, hc⟩
      simp only [unwind, wp_bind, wp_signed] at hframe ⊢
      obtain ⟨hfit, hn, hrest⟩ := hframe
      have hcount : (Int32.ofInt (c.toInt + 1)).toInt = (a :: l).length := by
        rw [toInt_ofInt_of_fits hfit, hc, List.length_cons]
        omega
      refine ⟨hfit, hn, ?_⟩
      simp only [wp_ite, wp_bind, wp_pure] at hrest ⊢
      refine ⟨fun heq => ?_, fun hne => ⟨hrest.2 hne, hcount⟩⟩
      exact wp_mono (hrest.1 heq) fun _ _ h₁ => wp_mono h₁ fun _ _ h₂ =>
        wp_mono h₂ fun _ _ h₃ => wp_mono h₃ fun _ _ hQ => ⟨hQ, hcount⟩

end SingleList

end BlocTest
