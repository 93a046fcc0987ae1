import BlocTest.Common.Turning
import BlocTest.ListReverse.Model.ReverseList
import BlocTest.SingleList.Reverse
/-!
# The reversals agree

`reverse_list` links on the way out of its recursion, each cell twice;
`reverse_list_nonrecur` turns one cell a round, from a null `pre`;
`list_reverse` turns them towards the sentinel and repairs both ends. No
intermediate states correspond, but each leaves the reversed chain in a heap
that differs from the first by links along it, and there is one such heap.
-/

namespace BlocTest

namespace ListReverse

open Prog

variable {N ν α : Type} [Linked N] {s t : Memory N ν} {h : Heap N}
variable {l done rest : List ℕ} {a b : ℕ} {n : N} {p : Ptr} {fuel : ℕ}

omit [Linked N] in
/-- What runs on the nodes prints nothing. -/
@[simp] theorem wp_onNodes {m : Prog (Heap N) α} {Q : α → Memory N ν → Prop} :
    wp (onNodes m) Q s ↔ wp m (fun x h => Q x { s with nodes := h }) s.nodes := wp_zoom

omit [Linked N] in
/-- The value of a live node is printed. -/
theorem wp_printVal {val : N → ν} {Q : Unit → Memory N ν → Prop} (ha : s.nodes.cell a = some n) :
    wp (printVal val (some a)) Q s ↔ Q () { s with printed := s.printed ++ [val n] } := by
  unfold printVal
  simp only [wp_bind, wp_onNodes, Heap.wp_read ha, wp_modify]

/-! ## The recursion -/

/-- The two links a call stores once the rest of the chain is reversed. -/
def closed (h : Heap N) (a b : ℕ) : Heap N := (h.link b (some a)).link a none

/-- **The way out of one call.** The reversed rest ends in `b`; pointing `b`
at `a` and `a` at nothing makes `a` the end. -/
theorem chain_closed (hc : Chain h p (l ++ [b])) (ha : h.cell a = some n) (hal : a ∉ l ++ [b]) :
    Chain (closed h a b) p (l ++ [b] ++ [a]) := by
  have hb : b ∉ l := by
    have hnd := chain_nodup hc
    exact fun hmem => (List.nodup_append.1 hnd).2.2 b hmem b (by simp) rfl
  have hab : a ≠ b := fun heq => hal (by simp [heq])
  have hcell : (h.link b (some a)).cell a = some n := by rw [Heap.link_cell_ne hab, ha]
  have hseg : Seg (h.link b (some a)) p (l ++ [b] ++ [a]) (Linked.next n) :=
    seg_append.2 ⟨some a, seg_link_last hc hb, rfl, n, hcell, rfl⟩
  exact seg_link_last hseg hal

/-- **`reverse_list` reverses the chain** and rewrites nothing but `next`
fields along it. -/
theorem wp_reverseList (val : N → ν) (hc : Chain s.nodes p l) (hf : l.length < fuel) :
    wp (reverseList val fuel p) (fun head t =>
      Chain t.nodes head l.reverse ∧ Relinks s.nodes t.nodes l) s := by
  induction l generalizing fuel p s with
  | nil =>
      obtain ⟨fuel, rfl⟩ := Nat.exists_eq_succ_of_ne_zero (Nat.ne_of_gt hf)
      obtain rfl : p = none := hc
      exact wp_pure.2 ⟨rfl, Relinks.refl _ _⟩
  | cons a l ih =>
      obtain ⟨fuel, rfl⟩ := Nat.exists_eq_succ_of_ne_zero (Nat.ne_zero_of_lt hf)
      have hnd := chain_nodup hc
      obtain ⟨rfl, n, hn, hl⟩ := hc
      unfold reverseList
      simp only [wp_bind, wp_onNodes]
      rw [Heap.wp_getNext hn]
      cases l with
      | nil =>
          have hnone : Linked.next n = none := chain_nil.1 hl
          rw [hnone]
          exact wp_pure.2 ⟨⟨rfl, n, hn, hnone⟩, Relinks.refl _ _⟩
      | cons b l =>
          have hb : Linked.next n = some b := hl.1
          rw [hb]
          simp only [wp_bind, wp_onNodes]
          rw [Heap.wp_getNext hn]
          refine wp_mono (ih hl (Nat.lt_of_succ_lt_succ hf)) fun node t ht => ?_
          obtain ⟨hrev, hrel⟩ := ht
          -- the call did not touch `a`, so `b` is still the cell after it
          have ha := (List.nodup_cons.1 hnd).1
          have hn' : t.nodes.cell a = some n := by rw [hrel.off a ha, hn]
          have hab : a ≠ b := fun heq => ha (heq ▸ List.mem_cons_self)
          rw [List.reverse_cons] at hrev
          obtain ⟨nb, hnb⟩ := live_of_seg hrev b (by simp)
          have hna : (t.nodes.link b (some a)).cell a = some n := by
            rw [Heap.link_cell_ne hab, hn']
          have hchain : Chain (closed t.nodes a b) node (l.reverse ++ [b] ++ [a]) := by
            refine chain_closed hrev hn' ?_
            rwa [← List.reverse_cons, List.mem_reverse]
          have hrel' : Relinks s.nodes (closed t.nodes a b) (a :: b :: l) :=
            ((hrel.mono (List.subset_cons_self a _)).link (by simp)).link (by simp)
          rw [Heap.wp_getNext hn', hb]
          simp only [Heap.wp_setNext_link hnb, Heap.wp_setNext_link hna]
          -- what is printed is read from the two ends of the new chain
          obtain ⟨na, hna'⟩ := live_of_seg hchain a (by simp)
          obtain ⟨c, nc, rfl, hnc⟩ := seg_start hchain (by simp)
          rw [wp_printVal hna', wp_printVal hnc, wp_pure, List.reverse_cons, List.reverse_cons]
          exact ⟨hchain, hrel'⟩

/-! ## The loop -/

/-- What holds at the head of the loop: `cur` is the next cell to turn, and
`next` the one after it. -/
structure Rotating (s t : Memory N ν) (l done : List ℕ) (a : ℕ) (rest : List ℕ)
    (pre cur next : Ptr) : Prop where
  turned : Turned s.nodes t.nodes none l done (a :: rest) pre (some a)
  cur : cur = some a
  next : Chain t.nodes next rest
  printed : t.printed = s.printed

/-- **The loop turns every cell but the last.** -/
theorem wp_rotateLoop {pre cur next : Ptr} (hnd : l.Nodup) (hf : rest.length < fuel)
    (hr : Rotating s t l done a rest pre cur next) :
    wp (loop rotateRound fuel (pre, cur, next)) (fun b t =>
      ∃ done a, Rotating s t l done a [] b.1 b.2 none) t := by
  refine wp_loop (fun k b t => ∃ done a rest, rest.length = k ∧
    Rotating s t l done a rest b.1 b.2.1 b.2.2) ?_ fuel rest.length (pre, cur, next) t hf
    ⟨done, a, rest, rfl, hr⟩
  intro k b t h
  obtain ⟨pre, cur, next⟩ := b
  obtain ⟨done, a, rest, rfl, hr⟩ := h
  obtain ⟨-, n, hn, hahead⟩ := hr.turned.ahead
  cases rest with
  | nil =>
      obtain rfl : next = none := chain_nil.1 hr.next
      exact wp_pure.2 ⟨done, a, hr⟩
  | cons b rest =>
      obtain ⟨hturned, rfl, ⟨rfl, -⟩, hprinted⟩ := hr
      have hturn := hturned.turn hnd hn
      have hnext : Linked.next n = some b := hahead.1
      rw [hnext] at hturn
      obtain ⟨-, m, hm, hrest⟩ := hturn.ahead
      unfold rotateRound
      simp only [wp_bind, wp_onNodes, wp_pure, round_inl]
      rw [Heap.wp_setNext_link hn, Heap.wp_getNext hm]
      exact ⟨rest.length, by simp, a :: done, b, rest, rfl, hturn, rfl, hrest, hprinted⟩

/-- **`reverse_list_nonrecur` reverses the chain**, rewrites nothing but
`next` fields along it and prints nothing. -/
theorem wp_reverseListNonrecur (hc : Chain s.nodes p l) (hf : l.length < fuel) :
    wp (reverseListNonrecur fuel p) (fun head t => Chain t.nodes head l.reverse ∧
      Relinks s.nodes t.nodes l ∧ t.printed = s.printed) s := by
  have hnd := chain_nodup hc
  cases l with
  | nil =>
      obtain rfl : p = none := hc
      exact wp_pure.2 ⟨rfl, Relinks.refl _ _, rfl⟩
  | cons a rest =>
      have hstart := Turned.start hc none
      obtain ⟨rfl, n, hn, hrest⟩ := hc
      unfold reverseListNonrecur
      simp only [wp_bind, wp_onNodes]
      rw [Heap.wp_getNext hn]
      refine wp_mono (wp_rotateLoop hnd (Nat.lt_of_succ_lt hf)
        (⟨hstart, rfl, hrest, rfl⟩ : Rotating s s (a :: rest) [] a rest none (some a) _)) ?_
      intro b t h
      obtain ⟨pre, cur⟩ := b
      obtain ⟨done, c, hturned, rfl, -, hprinted⟩ := h
      obtain ⟨-, m, hm, -⟩ := hturned.ahead
      have hturn := hturned.turn hnd hm
      rw [Heap.wp_setNext_link hm, wp_pure]
      exact ⟨hturn.finish, hturn.relinks, hprinted⟩

/-! ## The three of them -/

/-- **The reversals agree.** On every chain the recursion and the loop return
the same head and leave the same heap; and behind a sentinel `list_reverse`
leaves the same chain, starting at that head. -/
theorem reversals_agree {ι κ : Type} (val : N → ν) (s : Memory N ν) (p : Ptr) (l : List ℕ)
    (fuel : ℕ) (hc : Chain s.nodes p l) (hf : l.length < fuel) :
    ∃ head t t', reverseList val fuel p s = .ok (head, t) ∧
      reverseListNonrecur fuel p s = .ok (head, t') ∧ t.nodes = t'.nodes ∧
      Chain t.nodes head l.reverse ∧
      ∀ (w : SingleList.World ι κ) (sentinel : ℕ), w.list.head = some sentinel →
        Chain w.nodes (some sentinel) (sentinel :: l) →
        ∃ w' n, SingleList.listReverse fuel SingleList.getList w = .ok ((), w') ∧
          w'.list.head = some sentinel ∧ w'.nodes.cell sentinel = some n ∧ n.next = head ∧
          Chain w'.nodes head l.reverse := by
  obtain ⟨head, t, hrun, hchain, hrel⟩ := wp_reverseList val hc hf
  obtain ⟨head', t', hrun', hchain', hrel', -⟩ := wp_reverseListNonrecur hc hf
  obtain rfl : head' = head := (chain_start hchain').trans (chain_start hchain).symm
  -- the two heaps differ by links along one chain
  have hnodes : t.nodes = t'.nodes := by
    refine ((hrel'.symm.trans hrel).mono fun a ha => ?_).eq hchain' hchain
    exact List.mem_reverse.2 ha
  refine ⟨head', t, t', hrun, hrun', hnodes, hchain, fun w sentinel hs hw => ?_⟩
  obtain ⟨_, w', hrev, hlist, ⟨-, n, hn, hbehind⟩, -⟩ := SingleList.wp_listReverse hs hw hf
  have hhead : n.next = head' := (chain_start hbehind).trans (chain_start hchain).symm
  refine ⟨w', n, hrev, by rw [hlist, hs], hn, hhead, ?_⟩
  rwa [← hhead]

/-- Three nodes. -/
theorem reversals_agree_three :
    ∃ (head : Ptr) (t t' : Memory (SingleList.ListNode ℕ ℕ) ℕ),
      reverseList SingleList.ListNode.value 4 (some 1) ⟨SingleList.threeNodes.nodes, []⟩ =
        .ok (head, t) ∧
      reverseListNonrecur 4 (some 1) ⟨SingleList.threeNodes.nodes, []⟩ = .ok (head, t') ∧
      t.nodes = t'.nodes ∧ Chain t.nodes head [3, 2, 1] ∧
      ∃ w' n, SingleList.listReverse 4 SingleList.getList SingleList.threeNodes = .ok ((), w') ∧
        w'.list.head = some 0 ∧ w'.nodes.cell 0 = some n ∧ n.next = head ∧
        Chain w'.nodes head [3, 2, 1] := by
  have hc : Chain SingleList.threeNodes.nodes (some 1) [1, 2, 3] :=
    ⟨rfl, _, rfl, rfl, _, rfl, rfl, _, rfl, rfl⟩
  obtain ⟨head, t, t', h₁, h₂, hnodes, hchain, hsentinel⟩ := reversals_agree
    SingleList.ListNode.value ⟨SingleList.threeNodes.nodes, []⟩ (some 1) [1, 2, 3] 4 hc (by decide)
  exact ⟨head, t, t', h₁, h₂, hnodes, hchain,
    hsentinel SingleList.threeNodes 0 rfl SingleList.threeNodes_chain⟩

end ListReverse

end BlocTest
