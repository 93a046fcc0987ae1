import BlocTest.SingleList.Helpers.DelNode
import BlocTest.SingleList.Refinement
/-!
# `del_last_nth_node`

For `n` between `1` and the number of nodes it takes out the nth node from
the end and nothing else. Outside that range nothing tests `n`, and what
happens is an accident of the counting: most values leave the list alone,
`0` reads through null and the largest `int` overflows.
-/

namespace BlocTest

namespace SingleList

open Prog

variable {ι ν : Type} {w : World ι ν} {s : ℕ} {l : List ℕ} {fuel : ℕ} {n : Int32}

/-- `del_last_nth_node` is the traversal from the sentinel. -/
theorem wp_delLastNthNode {Q : Unit → World ι ν → Prop} :
    wp (delLastNthNode fuel n getList) Q w ↔
      wp (traversalList n fuel 0 w.list.head) (fun _ h => Q () { w with nodes := h }) w.nodes := by
  simp only [delLastNthNode, headOf, getList, wp_bind, wp_getHead, wp_onNodes, wp_pure]

/-- A split of the chain after the sentinel is a split of the nodes. -/
theorem split_nodes {pre post : List ℕ} {a b : ℕ} (hl : s :: l = pre ++ a :: b :: post) :
    ∃ before, pre ++ [a] = s :: before ∧ l = before ++ b :: post := by
  cases pre with
  | nil =>
      simp only [List.nil_append, List.cons.injEq] at hl
      exact ⟨[], by rw [hl.1]; rfl, by rw [hl.2]; rfl⟩
  | cons c pre =>
      simp only [List.cons_append, List.cons.injEq] at hl
      exact ⟨pre ++ [a], by rw [hl.1]; rfl, by rw [hl.2]; simp⟩

/-- **The nth node from the end is unlinked and freed**, and the rest of
the list is as it was. The call returns, so no frame that unwinds after
the free touches the freed node. -/
theorem delLastNthNode_unlinks (w : World ι ν) (s : ℕ) (l : List ℕ) (n : Int32) (fuel : ℕ)
    (hs : w.list.head = some s) (hc : Chain w.nodes (some s) (s :: l)) (hn : 1 ≤ n.toInt)
    (hnl : n.toInt ≤ l.length) (hk : (l.length : ℤ) < 2 ^ 31 - 1) (hf : l.length + 1 < fuel) :
    ∃ w' before victim after, delLastNthNode fuel n getList w = .ok ((), w') ∧
      l = before ++ victim :: after ∧ (after.length : ℤ) + 1 = n.toInt ∧
      Chain w'.nodes (some s) (s :: (before ++ after)) ∧
      w'.nodes.cell victim = none ∧ w'.nodes.freed = victim :: w.nodes.freed ∧
      (∀ a, a ≠ victim → entry w'.nodes a = entry w.nodes a) ∧
      (∀ a, a ∉ s :: l → w'.nodes.cell a = w.nodes.cell a) ∧ w'.list = w.list := by
  have hfit : FitsInt (n.toInt + 1) := fits_succ (by rw [intMax]; omega)
  have hlen : (s :: l).length = l.length + 1 := List.length_cons
  have hwp := wp_traversal_hit hfit hn hc (by omega : (s :: l).length < fuel)
    (by simp only [intMax]; omega) (by omega)
  obtain ⟨c, h', hrun, -, pre, a, b, post, mb, hl, hpost, hmb, rfl⟩ := hwp
  obtain ⟨before, hpre, rfl⟩ := split_nodes hl
  have hdel : delLastNthNode fuel n getList w =
      .ok ((), { w with nodes := (w.nodes.link a mb.next).free b }) := by
    refine eq_of_wp ?_
    rw [wp_delLastNthNode, hs]
    exact ⟨c, _, hrun, rfl, rfl⟩
  have hchain := chain_unlink (hl ▸ hc) hmb
  rw [List.append_cons, hpre] at hchain
  have hmem : a ∈ s :: (before ++ b :: post) := by simp [hl]
  have hmb' : (w.nodes.link a mb.next).cell b = some mb := by
    rw [Heap.link_cell_ne (chain_ne (hl ▸ hc)), hmb]
  refine ⟨_, before, b, post, hdel, rfl, hpost, hchain, Heap.free_cell_self, ?_, ?_, ?_, rfl⟩
  · rw [Heap.free_freed hmb', Heap.link_freed]
  · intro x hx
    rw [entry_free hx, entry_link]
  · intro x hx
    have hxb : x ≠ b := fun h => hx (by simp [h])
    have hxa : x ≠ a := fun h => hx (h ▸ hmem)
    rw [Heap.free_cell_ne hxb, Heap.link_cell_ne hxa]

/-- Three nodes behind a sentinel. -/
def threeNodes : World ℕ ℕ where
  nodes := ((((Heap.empty fun a => ⟨none, a, 10 * a⟩).alloc.alloc.alloc.alloc.link 0
    (some 1)).link 1 (some 2)).link 2 (some 3))
  list := ⟨some 0, 3⟩

/-- Three nodes behind the sentinel. -/
theorem threeNodes_chain : Chain threeNodes.nodes (some 0) [0, 1, 2, 3] :=
  ⟨rfl, _, rfl, rfl, _, rfl, rfl, _, rfl, rfl, _, rfl, rfl⟩

/-- The third from the end is the first. -/
theorem delLastNthNode_unlinks_first :
    ∃ w' before victim after, delLastNthNode 5 3 getList threeNodes = .ok ((), w') ∧
      [1, 2, 3] = before ++ victim :: after ∧ (after.length : ℤ) + 1 = (3 : Int32).toInt ∧
      Chain w'.nodes (some 0) (0 :: (before ++ after)) ∧
      w'.nodes.cell victim = none ∧ w'.nodes.freed = victim :: threeNodes.nodes.freed ∧
      (∀ a, a ≠ victim → entry w'.nodes a = entry threeNodes.nodes a) ∧
      (∀ a, a ∉ [0, 1, 2, 3] → w'.nodes.cell a = threeNodes.nodes.cell a) ∧
      w'.list = threeNodes.list :=
  delLastNthNode_unlinks threeNodes 0 [1, 2, 3] 3 5 rfl threeNodes_chain (by decide) (by decide)
    (by decide) (by decide)

/-- **Off the range, the list is left alone exactly when** `n` is neither
`0` nor the largest `int` and the nodes can be counted at all. At `0` the
last node's missing successor is read, at the largest `int` `n + 1` does
not fit, and past that many nodes the count does not. -/
theorem delLastNthNode_quiet_iff (w : World ι ν) (s : ℕ) (l : List ℕ) (n : Int32) (fuel : ℕ)
    (hs : w.list.head = some s) (hc : Chain w.nodes (some s) (s :: l))
    (hn : ¬ (1 ≤ n.toInt ∧ n.toInt ≤ l.length)) (hf : l.length + 1 < fuel) :
    delLastNthNode fuel n getList w = .ok ((), w) ↔
      n.toInt ≠ 0 ∧ n.toInt ≠ intMax ∧ (l.length : ℤ) < intMax := by
  have hlen : (s :: l).length = l.length + 1 := List.length_cons
  have hle := n.le_toInt
  have hlt := n.toInt_lt
  constructor
  · intro hrun
    have hwp : wp (delLastNthNode fuel n getList) (fun _ _ => True) w := ⟨(), w, hrun, trivial⟩
    rw [wp_delLastNthNode, hs] at hwp
    refine ⟨fun h0 => not_wp_traversal_zero h0 hc (by simp) hwp, fun hmax => ?_, ?_⟩
    · refine not_wp_traversal_max ?_ hc (by simp) hwp
      simp only [FitsInt, hmax, intMax]
      omega
    · -- the count came back as an `int`
      obtain ⟨c, h', -, -, hcount⟩ := wp_traversal_count hc hwp
      have := c.toInt_lt
      simp only [intMax]
      omega
  · intro h
    obtain ⟨h0, hmax, hk⟩ := h
    have hfit : FitsInt (n.toInt + 1) := fits_succ (by rw [intMax] at hmax ⊢; omega)
    refine eq_of_wp ?_
    rw [wp_delLastNthNode, hs]
    refine wp_mono (wp_traversal_quiet hfit hc (by omega) (by omega) (by omega)) ?_
    rintro c _ ⟨-, rfl⟩
    exact ⟨rfl, rfl⟩

/-- There is no fourth from the end. -/
theorem delLastNthNode_quiet_iff_past :
    delLastNthNode 5 4 getList threeNodes = .ok ((), threeNodes) ↔
      (4 : Int32).toInt ≠ 0 ∧ (4 : Int32).toInt ≠ intMax ∧
        (([1, 2, 3] : List ℕ).length : ℤ) < intMax :=
  delLastNthNode_quiet_iff threeNodes 0 [1, 2, 3] 4 5 rfl threeNodes_chain (by decide) (by decide)

/-- `n = 0`: the frame of the last node reads `temp->next` with `temp`
null. -/
theorem delLastNthNode_zero : delLastNthNode 5 0 getList threeNodes = .error .nullDeref := rfl

end SingleList

end BlocTest
