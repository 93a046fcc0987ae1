import BlocTest.Common.Turning
import BlocTest.SingleList.Model.Reverse
import BlocTest.SingleList.DelNode
/-!
# `list_reverse`

While the loop runs the structure is in three pieces: the nodes already
turned, which lead back to the sentinel; the nodes still to come; and the
sentinel, which no round touches and which still points at the first node.
That is `Turned`, with the sentinel for the end the turned nodes lead back
to. The closing assignments cut the turned piece off the sentinel and hang
its other end there.
-/

namespace BlocTest

namespace SingleList

open Prog

variable {ι ν : Type}
variable {h h' g : Heap (ListNode ι ν)} {w : World ι ν} {s a b : ℕ} {l done rest : List ℕ}
variable {p q : Ptr}

/-- Rewriting links moves no entry: an entry is read off a node whatever its
`next` field. -/
theorem entry_relinks (hr : Relinks h h' l) (a : ℕ) : entry h' a = entry h a := by
  have hrest (k : Heap (ListNode ι ν)) :
      entry k a = ((k.cell a).map (Linked.setNext none)).map fun n => (n.index, n.value) := by
    rw [Option.map_map]
    rfl
  rw [hrest, hrest, hr.rest a]

/-! ## The loop -/

/-- **The loop turns every node but the last.** -/
theorem wp_reverseLoop (hnd : l.Nodup) {fuel : ℕ} (hf : rest.length < fuel)
    (ht : Turned h g (some s) l done (a :: rest) p q) :
    wp (loop reverseRound fuel (p, q)) (fun b g' =>
      ∃ done a, Turned h g' (some s) l done [a] b.1 b.2) g := by
  refine wp_loop (fun k b g => ∃ done a rest, rest.length = k ∧
    Turned h g (some s) l done (a :: rest) b.1 b.2) ?_ fuel rest.length (p, q) g hf
    ⟨done, a, rest, rfl, ht⟩
  rintro k ⟨p, q⟩ g ⟨done, a, rest, rfl, ht⟩
  obtain ⟨hq, n, hn, hrest⟩ := ht.ahead
  obtain rfl : q = some a := hq
  simp only [reverseRound, wp_bind]
  rw [Heap.wp_getNext hn]
  cases rest with
  | nil =>
      have hnone : Linked.next n = none := chain_nil.1 hrest
      rw [hnone]
      exact wp_pure.2 ⟨done, a, ht⟩
  | cons b rest =>
      have hsome : Linked.next n = some b := hrest.1
      rw [hsome]
      simp only [wp_bind, Heap.wp_getNext hn, Heap.wp_setNext_link hn, wp_pure, round_inl]
      exact ⟨rest.length, by simp, a :: done, b, rest, rfl, ht.turn hnd hn⟩

/-! ## The repair -/

/-- The heap the closing assignments leave: `b` is turned as well, the
first node `x` ends the list, and the sentinel points at `b`. -/
def closed (g : Heap (ListNode ι ν)) (s x b : ℕ) (p : Ptr) : Heap (ListNode ι ν) :=
  ((g.link b p).link x none).link s (some b)

/-- **The closing assignments repair both ends.** -/
theorem close_turned {x : ℕ} (ht : Turned h g (some s) (x :: l) done [b] p q)
    (hc : Chain h (some s) (s :: x :: l)) :
    Chain (closed g s x b p) (some s) (s :: (x :: l).reverse) ∧
      Relinks h (closed g s x b p) (s :: x :: l) := by
  obtain ⟨hs, hnd⟩ := List.nodup_cons.1 (chain_nodup hc)
  have hb : b ∈ x :: l := by rw [ht.split]; simp
  -- every node is turned, and the walk back ends at the first one
  obtain ⟨-, nb, hnb, -⟩ := ht.ahead
  have hturn := ht.turn hnd hnb
  have hturned : Seg (g.link b p) (some b) (x :: l).reverse (some s) := hturn.finish
  rw [List.reverse_cons] at hturned
  have hx : x ∉ l.reverse := by simpa using (List.nodup_cons.1 hnd).1
  have hcut : Chain ((g.link b p).link x none) (some b) (l.reverse ++ [x]) :=
    seg_link_last hturned hx
  rw [← List.reverse_cons] at hcut
  have hcell : ((g.link b p).link x none).cell s = h.cell s := by
    rw [Heap.link_cell_ne (ne_of_mem_of_not_mem List.mem_cons_self hs).symm,
      Heap.link_cell_ne (ne_of_mem_of_not_mem hb hs).symm, ht.relinks.off s hs]
  obtain ⟨-, ns, hns, -⟩ := hc
  rw [← hcell] at hns
  constructor
  · refine ⟨rfl, _, Heap.link_cell_self hns, ?_⟩
    rw [Linked.next_setNext]
    exact (seg_link (by simpa only [List.mem_reverse] using hs)).2 hcut
  · exact ((hturn.relinks.link List.mem_cons_self).mono
      (List.subset_cons_self s _)).link List.mem_cons_self

/-- **`list_reverse` reverses the chain** and rewrites nothing but `next`
fields along it. -/
theorem wp_listReverse (hs : w.list.head = some s) (hc : Chain w.nodes (some s) (s :: l))
    {fuel : ℕ} (hf : l.length < fuel) :
    wp (listReverse fuel getList) (fun _ w' => w'.list = w.list ∧
      Chain w'.nodes (some s) (s :: l.reverse) ∧ Relinks w.nodes w'.nodes (s :: l)) w := by
  have hc' := hc
  obtain ⟨-, ns, hns, hl⟩ := hc'
  simp only [listReverse, getList, headOf, wp_bind, wp_getHead, wp_onNodes, hs]
  rw [Heap.wp_getNext hns]
  cases l with
  | nil =>
      have hnone : Linked.next ns = none := chain_nil.1 hl
      rw [hnone]
      exact wp_pure.2 ⟨rfl, hc, Relinks.refl _ _⟩
  | cons x l =>
      have hx : Linked.next ns = some x := hl.1
      have hnd := chain_nodup hc
      rw [hx]
      simp only [wp_bind, wp_getHead, wp_onNodes]
      rw [Heap.wp_getNext hns, hx]
      have ht : Turned w.nodes w.nodes (some s) (x :: l) [] (x :: l) (some s) (some x) :=
        Turned.start (hx ▸ hl) (some s)
      refine wp_mono (wp_reverseLoop (List.nodup_cons.1 hnd).2 (Nat.lt_of_succ_lt hf) ht) ?_
      rintro ⟨p, q⟩ g ⟨done, b, ht⟩
      have hclose := close_turned ht hc
      have hs' := (List.nodup_cons.1 hnd).1
      have hb : b ∈ x :: l := by rw [ht.split]; simp
      obtain ⟨hq, nb, hnb, -⟩ := ht.ahead
      obtain rfl : q = some b := hq
      -- the cells the four assignments go through
      obtain ⟨nx, hnx⟩ := live_of_seg hc x (by simp)
      obtain ⟨nx', hnx'⟩ := (ht.relinks.link (p := p) hb).live hnx
      have hns' : (g.link b p).cell s = some ns := by
        rw [Heap.link_cell_ne (ne_of_mem_of_not_mem hb hs').symm, ht.relinks.off s hs', hns]
      have hns'' : ((g.link b p).link x none).cell s = some ns := by
        rw [Heap.link_cell_ne (ne_of_mem_of_not_mem List.mem_cons_self hs').symm, hns']
      simp only [hs]
      rw [Heap.wp_setNext_link hnb, Heap.wp_getNext hns', hx, Heap.wp_setNext_link hnx',
        Heap.wp_setNext_link hns'']
      exact ⟨trivial, hclose⟩

/-- **Reversal in place.** For any chain behind the sentinel, `list_reverse`
returns, the same nodes are chained in the opposite order, every entry,
every cell off the chain, the heap's bookkeeping and the `List_t` are as
they were; and a second call restores the whole memory. -/
theorem listReverse_reverses (w : World ι ν) (s : ℕ) (l : List ℕ) (fuel : ℕ)
    (hs : w.list.head = some s) (hc : Chain w.nodes (some s) (s :: l)) (hf : l.length < fuel) :
    ∃ w', listReverse fuel getList w = .ok ((), w') ∧
      w'.list = w.list ∧ Chain w'.nodes (some s) (s :: l.reverse) ∧ (s :: l.reverse).Nodup ∧
      (∀ a, entry w'.nodes a = entry w.nodes a) ∧
      (∀ a, a ∉ s :: l → w'.nodes.cell a = w.nodes.cell a) ∧
      listReverse fuel getList w' = .ok ((), w) := by
  obtain ⟨_, w', hrun, hlist, hchain, hrel⟩ := wp_listReverse hs hc hf
  refine ⟨w', hrun, hlist, hchain, chain_nodup hchain, entry_relinks hrel, hrel.off, eq_of_wp ?_⟩
  have hs' : w'.list.head = some s := by rw [hlist, hs]
  refine wp_mono (wp_listReverse hs' hchain (by simpa using hf)) ?_
  rintro _ w'' ⟨hlist', hchain', hrel'⟩
  refine ⟨rfl, ?_⟩
  -- the two relinkings compose to one that leaves the chain as it was
  rw [List.reverse_reverse] at hchain'
  have hback := hrel.trans (hrel'.mono fun a => by simp)
  obtain ⟨nodes, list⟩ := w
  obtain ⟨nodes'', list''⟩ := w''
  obtain rfl : nodes'' = nodes := hback.eq hc hchain'
  obtain rfl : list'' = list := hlist'.trans hlist
  rfl

/-- Three nodes, turned round. -/
theorem listReverse_reverses_three :
    ∃ w', listReverse 4 getList threeNodes = .ok ((), w') ∧
      w'.list = threeNodes.list ∧ Chain w'.nodes (some 0) [0, 3, 2, 1] ∧
      [0, 3, 2, 1].Nodup ∧
      (∀ a, entry w'.nodes a = entry threeNodes.nodes a) ∧
      (∀ a, a ∉ [0, 1, 2, 3] → w'.nodes.cell a = threeNodes.nodes.cell a) ∧
      listReverse 4 getList w' = .ok ((), threeNodes) :=
  listReverse_reverses threeNodes 0 [1, 2, 3] 4 rfl threeNodes_chain (by decide)

end SingleList

end BlocTest
