import BlocTest.Common.Chain
/-!
# Reversing a chain in place

`Relinks h h' l` says that `h'` is `h` with some `next` fields of the cells
`l` rewritten. Two such heaps with one chain through `l` are equal, so how
the links were stored, and in which order, cannot be told from the result.

`Turned` describes a chain half reversed: the cells already turned lead back
to where the first one was made to point, and the others are still chained.
-/

namespace BlocTest

open Linked (next setNext)

variable {N : Type} [Linked N] {h h' g : Heap N} {l l' done rest : List ℕ} {a b : ℕ} {n : N}
variable {p q q₀ : Ptr}

/-! ## Heaps that differ by links -/

/-- `h'` is `h` with some `next` fields of the cells `l` rewritten. -/
structure Relinks (h h' : Heap N) (l : List ℕ) : Prop where
  rest : ∀ a, (h'.cell a).map (setNext none) = (h.cell a).map (setNext none)
  off : ∀ a, a ∉ l → h'.cell a = h.cell a
  frontier : h'.frontier = h.frontier
  uninit : h'.uninit = h.uninit
  freed : h'.freed = h.freed

theorem Relinks.refl (h : Heap N) (l : List ℕ) : Relinks h h l :=
  ⟨fun _ => rfl, fun _ _ => rfl, rfl, rfl, rfl⟩

theorem Relinks.symm (hr : Relinks h h' l) : Relinks h' h l where
  rest := fun a => (hr.rest a).symm
  off := fun a ha => (hr.off a ha).symm
  frontier := hr.frontier.symm
  uninit := hr.uninit.symm
  freed := hr.freed.symm

theorem Relinks.trans (h₁ : Relinks h g l) (h₂ : Relinks g h' l) : Relinks h h' l where
  rest := fun a => (h₂.rest a).trans (h₁.rest a)
  off := fun a ha => (h₂.off a ha).trans (h₁.off a ha)
  frontier := h₂.frontier.trans h₁.frontier
  uninit := h₂.uninit.trans h₁.uninit
  freed := h₂.freed.trans h₁.freed

theorem Relinks.mono (hr : Relinks h h' l) (hl : l ⊆ l') : Relinks h h' l' where
  rest := hr.rest
  off := fun a ha => hr.off a fun hmem => ha (hl hmem)
  frontier := hr.frontier
  uninit := hr.uninit
  freed := hr.freed

/-- One more link at a cell of `l`. -/
theorem Relinks.link (hr : Relinks h g l) (ha : a ∈ l) : Relinks h (g.link a p) l where
  rest := fun b => by
    rw [← hr.rest b]
    by_cases hb : b = a
    · subst hb
      cases hn : g.cell b with
      | none => rw [Heap.link, hn, hn]
      | some n => rw [Heap.link_cell_self hn, Option.map_some, Option.map_some,
          Linked.setNext_setNext]
    · rw [Heap.link_cell_ne hb]
  off := fun b hb => by rw [Heap.link_cell_ne (ne_of_mem_of_not_mem ha hb).symm, hr.off b hb]
  frontier := Heap.link_frontier.trans hr.frontier
  uninit := by
    rw [← hr.uninit, Heap.link]
    split <;> rfl
  freed := Heap.link_freed.trans hr.freed

/-- Relinking frees nothing. -/
theorem Relinks.live (hr : Relinks h h' l) (ha : h.cell a = some n) :
    ∃ n', h'.cell a = some n' := by
  have hrest := hr.rest a
  rw [ha, Option.map_some] at hrest
  obtain ⟨n', hn', -⟩ := Option.map_eq_some_iff.1 hrest
  exact ⟨n', hn'⟩

/-- A cell is its `next` field and the rest of it. -/
theorem eq_of_next_eq {m : N} (hnext : next m = next n)
    (hrest : setNext none m = setNext none n) : m = n := by
  have := congrArg (setNext (next n)) hrest
  rwa [Linked.setNext_setNext, Linked.setNext_setNext, ← hnext, Linked.setNext_next, hnext,
    Linked.setNext_next] at this

/-- **Relinking back to the same chain restores the heap.** -/
theorem Relinks.eq (hr : Relinks h h' l) (hc : Chain h p l) (hc' : Chain h' p l) : h' = h := by
  refine Heap.ext (funext fun a => ?_) hr.frontier hr.uninit hr.freed
  by_cases ha : a ∈ l
  · obtain ⟨n, hn⟩ := live_of_seg hc a ha
    obtain ⟨n', hn'⟩ := live_of_seg hc' a ha
    have hnext := chain_next_eq hc hc' a ha
    have hrest := hr.rest a
    rw [hn, hn', Option.map_some, Option.map_some, Option.some.injEq] at hnext hrest
    rw [hn, hn', eq_of_next_eq hnext hrest]
  · exact hr.off a ha

/-! ## A chain half reversed -/

/-- The cells `l` in the middle of their reversal: `done` are turned and lead
from `p` back to `q₀`, `rest` are to come from `q`. -/
structure Turned (h g : Heap N) (q₀ : Ptr) (l done rest : List ℕ) (p q : Ptr) : Prop where
  split : l = done.reverse ++ rest
  turned : Seg g p done q₀
  ahead : Chain g q rest
  relinks : Relinks h g l

/-- Before the first link no cell is turned. -/
theorem Turned.start (hc : Chain h q l) (q₀ : Ptr) : Turned h h q₀ l [] l q₀ q :=
  ⟨rfl, rfl, hc, Relinks.refl h l⟩

/-- **One link turns one cell.** -/
theorem Turned.turn (ht : Turned h g q₀ l done (a :: rest) p q) (hnd : l.Nodup)
    (hn : g.cell a = some n) : Turned h (g.link a p) q₀ l (a :: done) rest (some a) (next n) := by
  have hl := ht.split
  rw [hl] at hnd
  obtain ⟨-, hnd₂, hdisj⟩ := List.nodup_append.1 hnd
  have ha : a ∉ done := fun hmem => hdisj a (by simpa using hmem) a (by simp) rfl
  obtain ⟨-, n', hn', hrest⟩ := ht.ahead
  rw [hn] at hn'
  cases hn'
  refine ⟨by rw [hl]; simp, ⟨rfl, _, Heap.link_cell_self hn, ?_⟩, ?_, ?_⟩
  · rw [Linked.next_setNext]
    exact (seg_link ha).2 ht.turned
  · exact (seg_link (List.nodup_cons.1 hnd₂).1).2 hrest
  · exact ht.relinks.link (by rw [hl]; simp)

/-- When none is left, the cells are chained in the opposite order. -/
theorem Turned.finish (ht : Turned h g q₀ l done [] p q) : Seg g p l.reverse q₀ := by
  have hl := ht.split
  rw [List.append_nil] at hl
  rw [hl, List.reverse_reverse]
  exact ht.turned

end BlocTest
