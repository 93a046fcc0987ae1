import BlocTest.SingleList.Model.Run
import Mathlib.Data.List.InsertIdx
/-!
# What each method of the list does

`IsList h₀ w s l` is the invariant: the list object of `w` holds a chain
from the sentinel `s` through the nodes `l`, made of exactly the live cells
handed out since `h₀`, and everything older is as `h₀` left it. `Rep` adds
what the nodes say, as a sequence of pairs. Each method has one lemma, run
from a state the invariant holds in.
-/

namespace BlocTest

namespace SingleList

open Prog

variable {ι ν α : Type}
variable {h h' h₀ : Heap (ListNode ι ν)} {w w' : World ι ν}
variable {s a b : ℕ} {l pre post : List ℕ} {p q : Ptr} {n : ListNode ι ν}

/-! ## Running the state accessors -/

variable {Q : α → World ι ν → Prop}

/-- What runs on the nodes leaves the `List_t` alone. -/
@[simp] theorem wp_onNodes {m : Prog (Heap (ListNode ι ν)) α} :
    wp (onNodes m) Q w ↔ wp m (fun a h => Q a { w with nodes := h }) w.nodes :=
  wp_zoom

@[simp] theorem wp_getHead {R : Ptr → World ι ν → Prop} :
    wp getHead R w ↔ R w.list.head w := by
  simp [getHead]

@[simp] theorem wp_setHead {R : Unit → World ι ν → Prop} :
    wp (setHead p) R w ↔ R () { w with list := { w.list with head := p } } :=
  wp_modify

@[simp] theorem wp_modifyLen {R : Unit → World ι ν → Prop} {f : UInt32 → UInt32} :
    wp (modifyLen f) R w ↔ R () { w with list := { w.list with listLen := f w.list.listLen } } :=
  wp_modify

@[simp] theorem linked_next : Linked.next n = n.next := rfl

/-! ## The entry of a node -/

/-- The index and value a live node holds. -/
def entry (h : Heap (ListNode ι ν)) (a : ℕ) : Option (ι × ν) :=
  (h.cell a).map fun n => (n.index, n.value)

/-- The entry of a live node. -/
theorem entry_eq (ha : h.cell a = some n) : entry h a = some (n.index, n.value) := by
  rw [entry, ha, Option.map_some]

/-- Relinking moves no entry. -/
@[simp] theorem entry_link : entry (h.link a q) b = entry h b := by
  by_cases hb : b = a
  · subst hb
    cases hc : h.cell b with
    | none => rw [Heap.link, hc]
    | some n => rw [entry, Heap.link_cell_self hc, entry_eq hc]; rfl
  · rw [entry, Heap.link_cell_ne hb, entry]

/-- Freeing another node moves no entry. -/
theorem entry_free (hb : b ≠ a) : entry (h.free a) b = entry h b := by
  rw [entry, Heap.free_cell_ne hb, entry]

/-- Entries read the heap at the nodes alone. -/
theorem entries_congr (hl : ∀ a ∈ l, h'.cell a = h.cell a) :
    l.map (entry h') = l.map (entry h) :=
  List.map_congr_left fun a ha => by rw [entry, hl a ha, entry]

/-! ## The invariant -/

/-- The list object of `w` holds the sentinel `s` and the nodes `l`, and
owns exactly the live cells handed out since `h₀`. -/
structure IsList (h₀ : Heap (ListNode ι ν)) (w : World ι ν) (s : ℕ) (l : List ℕ) : Prop where
  head : w.list.head = some s
  chain : Chain w.nodes (some s) (s :: l)
  own : ∀ a ∈ s :: l, h₀.frontier ≤ a
  owned : ∀ a, h₀.frontier ≤ a → (w.nodes.cell a).isSome → a ∈ s :: l
  frame : ∀ a, a < h₀.frontier → w.nodes.cell a = h₀.cell a
  mono : h₀.frontier ≤ w.nodes.frontier

/-- The list object of `w` represents the sequence `ps`. -/
def Rep (h₀ : Heap (ListNode ι ν)) (w : World ι ν) (ps : List (ι × ν)) : Prop :=
  ∃ s l, IsList h₀ w s l ∧ l.map (entry w.nodes) = ps.map some

theorem IsList.live (hL : IsList h₀ w s l) (ha : a ∈ s :: l) :
    ∃ n, w.nodes.cell a = some n :=
  live_of_seg hL.chain a ha

theorem IsList.nodup (hL : IsList h₀ w s l) : (s :: l).Nodup := chain_nodup hL.chain

/-- The sentinel's `next` starts the chain of the nodes. -/
theorem IsList.sentinel (hL : IsList h₀ w s l) :
    ∃ n, w.nodes.cell s = some n ∧ Chain w.nodes n.next l :=
  hL.chain.2

/-! ## Construction -/

/-- **A constructed list is empty**, and its sentinel is the one cell it
owns. -/
theorem wp_construct :
    wp construct (fun _ w' => Rep w.nodes w' [] ∧ w'.list.listLen = 0) w := by
  simp only [construct, wp_bind, wp_onNodes, Heap.wp_new, wp_setHead, wp_getHead,
    Heap.wp_setNext_link Heap.alloc_cell_self, wp_modifyLen]
  refine ⟨⟨w.nodes.frontier, [], ⟨rfl, ?_, ?_, ?_, ?_, ?_⟩, rfl⟩, trivial⟩
  · exact ⟨rfl, _, Heap.link_cell_self Heap.alloc_cell_self, rfl⟩
  · intro a ha
    exact Nat.le_of_eq (List.mem_singleton.1 ha).symm
  · intro a ha hlive
    by_contra hne
    have hne' : a ≠ w.nodes.frontier := fun h => hne (by simp [h])
    simp only [Heap.link_cell_ne hne', Heap.alloc_cell_ne hne'] at hlive
    exact absurd ((w.nodes.live_iff a).1 hlive).1 (by omega)
  · intro a ha
    have hne : a ≠ w.nodes.frontier := by omega
    simp only [Heap.link_cell_ne hne, Heap.alloc_cell_ne hne]
  · simp

/-! ## Appending -/

/-- The heap once `add_node` has made its node. -/
def withNode (h : Heap (ListNode ι ν)) (index : ι) (value : ν) : Heap (ListNode ι ν) :=
  ((h.alloc.put h.frontier { h.uninit h.frontier with index := index }).put h.frontier
    { h.uninit h.frontier with index := index, value := value }).link h.frontier none

variable {index : ι} {value : ν}

/-- The new node is the one `add_node` fills. -/
theorem withNode_cell_self : (withNode h index value).cell h.frontier = some ⟨none, index, value⟩ :=
  Heap.link_cell_self (Heap.put_cell_self (Heap.put_cell_self Heap.alloc_cell_self))

theorem withNode_cell_ne (ha : a ≠ h.frontier) :
    (withNode h index value).cell a = h.cell a := by
  rw [withNode, Heap.link_cell_ne ha, Heap.put_cell_ne ha, Heap.put_cell_ne ha,
    Heap.alloc_cell_ne ha]

/-- One cell more has been handed out. -/
@[simp] theorem withNode_frontier : (withNode h index value).frontier = h.frontier + 1 := by
  simp [withNode]

/-- `add_node` is a new node, a walk from the head, and a link. -/
theorem wp_addNode_iff {fuel : ℕ} {R : Int32 → World ι ν → Prop} :
    wp (addNode fuel index value) R w ↔
      wp (loop addRound fuel w.list.head) (fun p h =>
        wp (Heap.setNext p (some w.nodes.frontier)) (fun _ h =>
          R 0 ⟨h, { w.list with listLen := w.list.listLen + 1 }⟩) h)
        (withNode w.nodes index value) := by
  have c₁ : w.nodes.alloc.cell w.nodes.frontier = some _ := Heap.alloc_cell_self
  have c₂ := Heap.put_cell_self c₁ (n := { w.nodes.uninit w.nodes.frontier with index := index })
  have c₃ := Heap.put_cell_self c₂
    (n := { w.nodes.uninit w.nodes.frontier with index := index, value := value })
  simp only [addNode, wp_bind, wp_onNodes, Heap.wp_new, wp_getHead]
  rw [Heap.wp_update c₁, Heap.wp_update c₂, Heap.wp_setNext_link c₃]
  simp only [wp_modifyLen, wp_pure]
  rfl

/-- The walk of `add_node` stops at the last node. -/
theorem wp_addWalk (hc : Chain h p (l ++ [b])) {fuel : ℕ} (hf : l.length < fuel) :
    wp (loop addRound fuel p) (fun r h' => r = some b ∧ h' = h) h := by
  refine wp_loop (fun k p h' => h' = h ∧ ∃ l, l.length = k ∧ Chain h p (l ++ [b])) ?_
    fuel l.length p h hf ⟨rfl, l, rfl, hc⟩
  rintro k p _ ⟨rfl, l, rfl, hc⟩
  cases l with
  | nil =>
      obtain ⟨rfl, n, hn, hnext⟩ := hc
      have hnone : Linked.next n = none := hnext
      rw [addRound, wp_bind, Heap.wp_getNext hn, hnone]
      simp
  | cons a l =>
      obtain ⟨rfl, n, hn, hl⟩ := hc
      have hsome : ∃ c, Linked.next n = some c := by
        cases l with
        | nil => exact ⟨b, hl.1⟩
        | cons c l => exact ⟨c, hl.1⟩
      obtain ⟨c, hcn⟩ := hsome
      rw [addRound, wp_bind, Heap.wp_getNext hn, hcn]
      simp only [wp_bind, Heap.wp_getNext hn, wp_pure, round_inl]
      exact ⟨l.length, by simp, trivial, l, rfl, hl⟩

/-- No node is the cell that comes next. -/
theorem IsList.ne_frontier (hL : IsList h₀ w s l) : ∀ a ∈ s :: l, a ≠ w.nodes.frontier := by
  rintro a ha rfl
  obtain ⟨n, hn⟩ := hL.live ha
  rw [Heap.cell_frontier] at hn
  cases hn

/-- Making a node leaves the chain as it was. -/
theorem IsList.chain_withNode (hL : IsList h₀ w s l) (index : ι) (value : ν) :
    Chain (withNode w.nodes index value) (some s) (s :: l) :=
  (seg_congr fun a ha => by rw [withNode_cell_ne (hL.ne_frontier a ha)]).2 hL.chain

/-- **A new node hung behind the last one**: the list has one more node, and
the others say what they said. -/
theorem IsList.append (hL : IsList h₀ w s l) (hb : s :: l = pre ++ [b])
    (hn : w'.nodes = (withNode w.nodes index value).link b (some w.nodes.frontier))
    (hh : w'.list.head = w.list.head) :
    IsList h₀ w' s (l ++ [w.nodes.frontier]) ∧
      (l ++ [w.nodes.frontier]).map (entry w'.nodes) =
        l.map (entry w.nodes) ++ [some (index, value)] := by
  have hchain := hL.chain_withNode index value
  have hnew := hL.ne_frontier
  have hbmem : b ∈ s :: l := by simp [hb]
  obtain ⟨nb, hnb⟩ := live_of_seg hchain b hbmem
  rw [hb] at hchain
  refine ⟨⟨hh.trans hL.head, ?_, ?_, ?_, ?_, ?_⟩, ?_⟩
  · rw [← List.cons_append, hb, hn]
    exact chain_link_append hchain ⟨rfl, _, withNode_cell_self, rfl⟩
      (hb ▸ fun hmem => hnew _ hmem rfl)
  · intro a ha
    rw [← List.cons_append] at ha
    rcases List.mem_append.1 ha with ha | ha
    · exact hL.own a ha
    · rw [List.mem_singleton.1 ha]
      exact hL.mono
  · intro a ha hlive
    rw [← List.cons_append, List.mem_append]
    by_cases haf : a = w.nodes.frontier
    · exact .inr (by simp [haf])
    · refine .inl (hL.owned a ha ?_)
      rw [← withNode_cell_ne haf]
      by_cases hab : a = b
      · rw [hab, hnb]
        rfl
      · rwa [hn, Heap.link_cell_ne hab] at hlive
  · intro a ha
    have hab : a ≠ b := by
      have := hL.own b hbmem
      omega
    have haf : a ≠ w.nodes.frontier := by
      have := hL.mono
      omega
    rw [hn, Heap.link_cell_ne hab, withNode_cell_ne haf, hL.frame a ha]
  · have := hL.mono
    simp only [hn, Heap.link_frontier, withNode_frontier]
    omega
  · have hentry : entry (withNode w.nodes index value) w.nodes.frontier = some (index, value) :=
      entry_eq withNode_cell_self
    rw [hn, List.map_append, List.map_congr_left fun a _ => entry_link,
      entries_congr fun a ha => withNode_cell_ne (hnew a (List.mem_cons_of_mem s ha)),
      List.map_singleton, entry_link, hentry]

/-- **`add_node` appends.** -/
theorem wp_addNode {ps : List (ι × ν)} (hR : Rep h₀ w ps) {fuel : ℕ} (hf : ps.length < fuel)
    (index : ι) (value : ν) :
    wp (addNode fuel index value) (fun r w' => r = 0 ∧ Rep h₀ w' (ps ++ [(index, value)]) ∧
      w'.list.listLen = w.list.listLen + 1) w := by
  obtain ⟨s, l, hL, hps⟩ := hR
  have hlen : l.length = ps.length := by simpa using congrArg List.length hps
  -- the walk reaches the last node `b`
  obtain ⟨pre, b, hb⟩ := List.eq_nil_or_concat' (s :: l) |>.resolve_left (by simp)
  have hpre : pre.length < fuel := by
    have := congrArg List.length hb
    simp only [List.length_cons, List.length_append, List.length_nil] at this
    omega
  have hchain := hL.chain_withNode index value
  rw [hb] at hchain
  rw [wp_addNode_iff, hL.head]
  refine wp_mono (wp_addWalk hchain hpre) ?_
  rintro _ _ ⟨rfl, rfl⟩
  obtain ⟨nb, hnb⟩ := live_of_seg hchain b (by simp)
  rw [Heap.wp_setNext_link hnb]
  let w' : World ι ν := ⟨(withNode w.nodes index value).link b (some w.nodes.frontier),
    { w.list with listLen := w.list.listLen + 1 }⟩
  obtain ⟨hL', hps'⟩ := hL.append hb (rfl : w'.nodes = _) rfl
  rw [hps] at hps'
  exact ⟨rfl, ⟨s, _, hL', by rw [hps', List.map_append, List.map_singleton]⟩, rfl⟩

/-! ## Unlinking -/

/-- Taking a node out of the chain takes it out of the nodes behind the
sentinel. -/
theorem cons_eraseIdx (hl : s :: l = pre ++ a :: b :: post) :
    s :: l.eraseIdx pre.length = pre ++ a :: post := by
  rw [← List.eraseIdx_cons_succ, hl, List.eraseIdx_append_of_length_le (by omega)]
  simp

/-- The nodes that stay are the others. -/
theorem mem_cons_eraseIdx (hl : s :: l = pre ++ a :: b :: post) (hnd : (s :: l).Nodup) (c : ℕ) :
    c ∈ s :: l.eraseIdx pre.length ↔ c ∈ s :: l ∧ c ≠ b := by
  have hb : b ∉ pre ++ a :: post := by
    rw [hl, List.append_cons] at hnd
    simpa using (List.nodup_cons.1 (List.nodup_middle.1 hnd)).1
  rw [cons_eraseIdx hl, hl]
  constructor
  · intro hc
    refine ⟨by simp only [List.mem_append, List.mem_cons] at hc ⊢; tauto, ?_⟩
    rintro rfl
    exact hb hc
  · intro h
    obtain ⟨hc, hcb⟩ := h
    simp only [List.mem_append, List.mem_cons] at hc ⊢
    tauto

/-- **A cell made to point past its successor, and the successor freed**:
what `delete_node` and `traversal_list` both do to the chain. The list
keeps its other nodes, in order and with what they say. -/
theorem IsList.unlink (hL : IsList h₀ w s l) (hl : s :: l = pre ++ a :: b :: post)
    (hb : w.nodes.cell b = some n) (hn : w'.nodes = (w.nodes.link a n.next).free b)
    (hh : w'.list.head = w.list.head) :
    IsList h₀ w' s (l.eraseIdx pre.length) ∧
      (l.eraseIdx pre.length).map (entry w'.nodes) =
        (l.map (entry w.nodes)).eraseIdx pre.length := by
  have hchain := hL.chain
  have hmem := mem_cons_eraseIdx hl hL.nodup
  rw [hl] at hchain
  refine ⟨⟨hh.trans hL.head, ?_, ?_, ?_, ?_, ?_⟩, ?_⟩
  · rw [cons_eraseIdx hl, hn]
    exact chain_unlink hchain hb
  · exact fun c hc => hL.own c ((hmem c).1 hc).1
  · intro c hc hlive
    rw [hn] at hlive
    have hcb : c ≠ b := by
      rintro rfl
      simp at hlive
    rw [Heap.free_cell_ne hcb] at hlive
    refine (hmem c).2 ⟨hL.owned c hc ?_, hcb⟩
    by_cases hca : c = a
    · obtain ⟨na, hna⟩ := live_of_seg hchain a (by simp)
      rw [hca, hna]; rfl
    · rwa [Heap.link_cell_ne hca] at hlive
  · intro c hc
    have hcb : c ≠ b := by
      have := hL.own b (hl ▸ by simp)
      omega
    have hca : c ≠ a := by
      have := hL.own a (hl ▸ by simp)
      omega
    rw [hn, Heap.free_cell_ne hcb, Heap.link_cell_ne hca, hL.frame c hc]
  · rw [hn]
    simpa using hL.mono
  · rw [List.eraseIdx_map, hn]
    refine List.map_congr_left fun c hc => ?_
    rw [entry_free ((hmem c).1 (List.mem_cons_of_mem s hc)).2, entry_link]

/-! ## Searching -/

variable [DecidableEq ι]

/-- The search of `find_node` stops at the first node with the index. -/
theorem wp_findWalk {ps : List (ι × ν)} (hc : Chain h p l) (hps : l.map (entry h) = ps.map some)
    {fuel : ℕ} (hf : ps.length < fuel) (index : ι) :
    wp (loop (findRound index) fuel p) (fun r h' => h' = h ∧
      r.bind (entry h) = ps.find? (fun e => decide (e.1 = index)) ∧
      (r = none ↔ ps.find? (fun e => decide (e.1 = index)) = none)) h := by
  refine wp_loop (fun k p h' => h' = h ∧ ∃ l ps', ps'.length = k ∧ Chain h p l ∧
      l.map (entry h) = ps'.map some ∧
      ps'.find? (fun e => decide (e.1 = index)) = ps.find? (fun e => decide (e.1 = index))) ?_
    fuel ps.length p h hf ⟨rfl, l, ps, rfl, hc, hps, rfl⟩
  rintro k p _ ⟨rfl, l, ps', rfl, hc, hps', hfind⟩
  cases l with
  | nil =>
      obtain rfl : ps' = [] := by simpa using hps'.symm
      rw [chain_nil.1 hc]
      simp [findRound, ← hfind]
  | cons a l =>
      obtain ⟨rfl, n, hn, hl⟩ := hc
      cases ps' with
      | nil => simp at hps'
      | cons e ps' =>
          simp only [List.map_cons, entry_eq hn, List.cons.injEq, Option.some.injEq] at hps'
          obtain ⟨rfl, hps'⟩ := hps'
          rw [findRound, wp_bind, Heap.wp_read hn]
          by_cases hi : n.index = index
          · simp only [if_pos hi, wp_pure, round_inr, ← hfind]
            simp [hi, entry_eq hn]
          · simp only [if_neg hi, wp_bind, Heap.wp_getNext hn, wp_pure, round_inl]
            refine ⟨ps'.length, by simp, trivial, l, ps', rfl, hl, hps', ?_⟩
            rw [← hfind, List.find?_cons_of_neg (by simpa using hi)]

/-- **`find_node` yields the first node with the index**, and leaves
everything alone. -/
theorem wp_findNode {ps : List (ι × ν)} (hR : Rep h₀ w ps) {fuel : ℕ} (hf : ps.length < fuel)
    (index : ι) :
    wp (findNode fuel index) (fun r w' => w' = w ∧
      r.bind (entry w.nodes) = ps.find? (fun e => decide (e.1 = index)) ∧
      (r = none ↔ ps.find? (fun e => decide (e.1 = index)) = none)) w := by
  obtain ⟨s, l, hL, hps⟩ := hR
  obtain ⟨n, hn, hc⟩ := hL.sentinel
  simp only [findNode, wp_bind, wp_getHead, wp_onNodes]
  rw [hL.head, Heap.wp_getNext hn]
  refine wp_mono (wp_findWalk hc hps hf index) ?_
  rintro r _ ⟨rfl, hr⟩
  exact ⟨rfl, hr⟩

/-- The loop of `delete_node` holds with `p` at the node before `q`, and no
node up to `p` has the index. -/
def DeleteInv (w : World ι ν) (s : ℕ) (l : List ℕ) (ps : List (ι × ν)) (index : ι) (k : ℕ)
    (b : Ptr × Ptr) (w' : World ι ν) : Prop :=
  w' = w ∧ ∃ pre a rest ps₁ ps₂, s :: l = pre ++ a :: rest ∧ b.1 = some a ∧
    Chain w.nodes b.2 rest ∧ ps = ps₁ ++ ps₂ ∧ ps₁.length = pre.length ∧
    (∀ e ∈ ps₁, ¬ decide (e.1 = index) = true) ∧ rest.map (entry w.nodes) = ps₂.map some ∧
    ps₂.length = k

/-- What `delete_node` leaves: the first pair with the index gone, or
nothing touched. -/
def Deleted (h₀ : Heap (ListNode ι ν)) (w : World ι ν) (ps : List (ι × ν)) (index : ι)
    (r : Int32) (w' : World ι ν) : Prop :=
  if ps.any (fun e => decide (e.1 = index)) then
    r = 0 ∧ Rep h₀ w' (ps.eraseP fun e => decide (e.1 = index)) ∧
      w'.list.listLen = w.list.listLen - 1
  else r = -1 ∧ w' = w

/-- The round of `delete_node` that finds the node: `p` is made to point past
it and it is freed. -/
theorem wp_deleteRound_found (hL : IsList h₀ w s l) (hl : s :: l = pre ++ a :: b :: post)
    (hn : w.nodes.cell b = some n) (hi : n.index = index)
    {R : (Ptr × Ptr) ⊕ Int32 → World ι ν → Prop} :
    wp (deleteRound index (some a, some b)) R w ↔
      R (.inr 0) ⟨(w.nodes.link a n.next).free b,
        { w.list with listLen := w.list.listLen - 1 }⟩ := by
  obtain ⟨na, hna⟩ := hL.live (by simp [hl] : a ∈ s :: l)
  have hnb : (w.nodes.link a n.next).cell b = some n := by
    rw [Heap.link_cell_ne (chain_ne (hl ▸ hL.chain)), hn]
  simp only [deleteRound, wp_bind, wp_onNodes]
  rw [Heap.wp_read hn]
  simp only [if_pos hi, wp_bind, wp_onNodes]
  rw [Heap.wp_getNext hn]
  simp only [linked_next, Heap.wp_setNext_link hna]
  rw [Heap.wp_delete hnb]
  simp only [wp_modifyLen, wp_pure]

/-- **`delete_node` removes the first node with the index**, or answers
`-1` and touches nothing. -/
theorem wp_deleteNode {ps : List (ι × ν)} (hR : Rep h₀ w ps) {fuel : ℕ} (hf : ps.length < fuel)
    (index : ι) : wp (deleteNode fuel index) (Deleted h₀ w ps index) w := by
  obtain ⟨s, l, hL, hps⟩ := hR
  obtain ⟨ns, hns, hc⟩ := hL.sentinel
  simp only [deleteNode, wp_bind, wp_getHead, wp_onNodes]
  rw [hL.head, Heap.wp_getNext hns]
  refine wp_loop (DeleteInv w s l ps index) ?_ fuel ps.length _ w hf
    ⟨rfl, [], s, l, [], ps, rfl, rfl, hc, rfl, rfl, by simp, hps, rfl⟩
  rintro k ⟨_, q⟩ w ⟨rfl, pre, a, rest, ps₁, ps₂, hl, rfl, hq, rfl, hlen, hno, hrest, rfl⟩
  cases rest with
  | nil =>
      obtain rfl : ps₂ = [] := by simpa using hrest.symm
      obtain rfl : q = none := chain_nil.1 hq
      rw [List.append_nil]
      have hany : ¬ ps₁.any (fun e => decide (e.1 = index)) = true := by
        rw [List.any_eq_true]
        intro h
        obtain ⟨e, he, hi⟩ := h
        exact hno e he hi
      simp only [deleteRound, wp_pure, round_inr, Deleted, if_neg hany]
      exact ⟨trivial, trivial⟩
  | cons b post =>
      obtain ⟨rfl, n, hn, hpost⟩ := hq
      cases ps₂ with
      | nil => simp at hrest
      | cons e ps₂ =>
          simp only [List.map_cons, entry_eq hn, List.cons.injEq, Option.some.injEq] at hrest
          obtain ⟨rfl, hrest⟩ := hrest
          by_cases hi : n.index = index
          · rw [wp_deleteRound_found hL hl hn hi]
            let w' : World ι ν := ⟨(w.nodes.link a n.next).free b,
              { w.list with listLen := w.list.listLen - 1 }⟩
            obtain ⟨hL', hps'⟩ := hL.unlink hl hn (rfl : w'.nodes = _) rfl
            rw [hps, List.eraseIdx_map, ← hlen, List.eraseIdx_append_of_length_le (Nat.le_refl _),
              Nat.sub_self, List.eraseIdx_cons_zero] at hps'
            simp only [round_inr, Deleted]
            rw [if_pos (by simp [hi]), List.eraseP_append_right _ hno,
              List.eraseP_cons_of_pos (by simpa using hi)]
            exact ⟨trivial, ⟨s, _, hlen ▸ hL', hps'⟩, trivial⟩
          · -- the pointers move on by one node
            simp only [deleteRound, wp_bind, wp_onNodes]
            rw [Heap.wp_read hn]
            simp only [if_neg hi, wp_bind, wp_onNodes]
            rw [Heap.wp_getNext hn]
            simp only [wp_pure, round_inl]
            refine ⟨ps₂.length, by simp, rfl, pre ++ [a], b, post, ps₁ ++ [(n.index, n.value)],
              ps₂, by simp [hl], rfl, hpost, by simp, by simp [hlen], ?_, hrest, rfl⟩
            intro e he
            rcases List.mem_append.1 he with he | he
            · exact hno e he
            · rw [List.mem_singleton.1 he]
              simpa using hi

omit [DecidableEq ι]

/-! ## The length and the listing -/

/-- `get_list_len` returns `list_len`. -/
theorem wp_getListLen : wp getListLen (fun r w' => r = w.list.listLen ∧ w' = w) w := by
  simp [getListLen]

/-- **`print_all_node` lists the pairs in order**, and leaves everything
alone. -/
theorem wp_printAllNode {ps : List (ι × ν)} (hR : Rep h₀ w ps) {fuel : ℕ}
    (hf : ps.length < fuel) :
    wp (printAllNode fuel) (fun r w' => r = printed 0 ps ∧ w' = w) w := by
  obtain ⟨s, l, hL, hps⟩ := hR
  obtain ⟨n, hn, hc⟩ := hL.sentinel
  simp only [printAllNode, wp_bind, wp_getHead, wp_onNodes]
  rw [hL.head, Heap.wp_getNext hn]
  refine wp_loop (fun k b h => h = w.nodes ∧ ∃ l ps', ps'.length = k ∧ Chain h b.2.1 l ∧
      l.map (entry h) = ps'.map some ∧ b.2.2 ++ printed b.1 ps' = printed 0 ps) ?_
    fuel ps.length _ w.nodes hf ⟨rfl, l, ps, rfl, hc, hps, rfl⟩
  rintro k ⟨i, p, lines⟩ _ ⟨rfl, l, ps', rfl, hc, hps', hout⟩
  cases l with
  | nil =>
      obtain rfl : ps' = [] := by simpa using hps'.symm
      obtain rfl : p = none := chain_nil.1 hc
      simp only [printRound, wp_pure, round_inr]
      exact ⟨by simpa [printed] using hout, trivial⟩
  | cons a l =>
      obtain ⟨rfl, n, hn, hl⟩ := hc
      cases ps' with
      | nil => simp at hps'
      | cons e ps' =>
          simp only [List.map_cons, entry_eq hn, List.cons.injEq, Option.some.injEq] at hps'
          obtain ⟨rfl, hps'⟩ := hps'
          rw [printRound, wp_bind, Heap.wp_read hn, wp_bind, Heap.wp_getNext hn]
          simp only [wp_pure, round_inl]
          exact ⟨ps'.length, by simp, trivial, l, ps', rfl, hl, hps', by simpa [printed] using hout⟩

/-! ## Destruction -/

/-- The loop of `destroy_list` frees every node of the chain and nothing
else. -/
theorem wp_destroyWalk (hc : Chain h p l) {fuel : ℕ} (hf : l.length < fuel) :
    wp (loop destroyRound fuel (p, p)) (fun _ h' => (∀ a ∈ l, h'.cell a = none) ∧
      (∀ a, a ∉ l → h'.cell a = h.cell a) ∧ h'.frontier = h.frontier) h := by
  refine wp_loop (fun k b h' => ∃ c done rest, b = (c, c) ∧ l = done ++ rest ∧ rest.length = k ∧
      Chain h' c rest ∧ (∀ a ∈ done, h'.cell a = none) ∧
      (∀ a, a ∉ done → h'.cell a = h.cell a) ∧ h'.frontier = h.frontier) ?_
    fuel l.length (p, p) h hf
    ⟨p, [], l, rfl, rfl, rfl, hc, by simp, fun _ _ => rfl, rfl⟩
  rintro k _ g ⟨p, done, rest, rfl, rfl, rfl, hc, hdone, hsame, hfr⟩
  cases rest with
  | nil =>
      obtain rfl : p = none := chain_nil.1 hc
      simp only [destroyRound, wp_pure, round_inr, List.append_nil]
      exact ⟨hdone, hsame, hfr⟩
  | cons a rest =>
      have hnd := chain_nodup hc
      obtain ⟨rfl, n, hn, hrest⟩ := hc
      simp only [destroyRound, wp_bind]
      rw [Heap.wp_getNext hn, Heap.wp_delete hn]
      simp only [wp_pure, round_inl]
      refine ⟨rest.length, by simp, _, done ++ [a], rest, rfl, by simp, rfl,
        (seg_free (List.nodup_cons.1 hnd).1).2 hrest, ?_, ?_, by simpa using hfr⟩
      · intro b hb
        by_cases hba : b = a
        · rw [hba, Heap.free_cell_self]
        · rw [Heap.free_cell_ne hba]
          exact hdone b (by simpa [hba] using hb)
      · intro b hb
        simp only [List.mem_append, List.mem_singleton, not_or] at hb
        rw [Heap.free_cell_ne hb.2, hsame b hb.1]

/-- **`destroy_list` frees everything the list owns** and leaves the head
null. -/
theorem wp_destroyList (hL : IsList h₀ w s l) {fuel : ℕ} (hf : l.length < fuel) :
    wp (destroyList fuel) (fun r w' => r = 0 ∧ w'.list.head = none ∧
      (∀ a, h₀.frontier ≤ a → w'.nodes.cell a = none) ∧
      (∀ a, a < h₀.frontier → w'.nodes.cell a = h₀.cell a) ∧
      h₀.frontier ≤ w'.nodes.frontier) w := by
  obtain ⟨n, hn, hc⟩ := hL.sentinel
  simp only [destroyList, wp_bind, wp_getHead, wp_onNodes]
  rw [hL.head, Heap.wp_getNext hn, Heap.wp_getNext hn]
  refine wp_mono (wp_destroyWalk hc hf) ?_
  rintro _ g ⟨hgone, hsame, hfr⟩
  have hs : g.cell s = some n := by
    rw [hsame s (List.nodup_cons.1 hL.nodup).1, hn]
  rw [Heap.wp_delete hs]
  simp only [wp_setHead, wp_pure]
  refine ⟨trivial, trivial, fun a ha => ?_, fun a ha => ?_, by simpa [hfr] using hL.mono⟩
  · by_cases has : a = s
    · rw [has, Heap.free_cell_self]
    · rw [Heap.free_cell_ne has]
      by_cases hal : a ∈ l
      · exact hgone a hal
      · rw [hsame a hal]
        by_contra hne
        rcases List.mem_cons.1 (hL.owned a ha (Option.isSome_iff_ne_none.2 hne)) with h | h
        · exact has h
        · exact hal h
  · have hnot : a ∉ s :: l := fun hmem => by have := hL.own a hmem; omega
    rw [List.mem_cons, not_or] at hnot
    rw [Heap.free_cell_ne hnot.1, hsame a hnot.2, hL.frame a ha]

/-- **A second `destroy_list` reads through the null head.** -/
theorem not_wp_destroyList (hw : w.list.head = none) {fuel : ℕ} {Q : Int32 → World ι ν → Prop} :
    ¬ wp (destroyList fuel) Q w := by
  simp [destroyList, hw]

end SingleList

end BlocTest
