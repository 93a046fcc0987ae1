import BlocTest.Common.Heap
/-!
# Chains of nodes

A node type with a `next` field, and the singly linked structures nodes of
that type build in a heap. `Seg h p l q` says that following `next` from
`p` visits the cells `l` and arrives at `q`; a chain is a segment that
arrives at the null pointer. A chain is determined by where it starts, so
it visits no cell twice.

The second half is about the updates list code makes: storing into one
`next` field cuts a segment, relinks it or unlinks a cell, and cells the
update does not name keep their segments.
-/

namespace BlocTest

/-- A node type with a `next` field. -/
class Linked (N : Type) where
  next : N → Ptr
  setNext : Ptr → N → N
  next_setNext : ∀ p n, next (setNext p n) = p
  setNext_setNext : ∀ p q n, setNext p (setNext q n) = setNext p n
  setNext_next : ∀ n, setNext (next n) n = n

attribute [simp] Linked.next_setNext Linked.setNext_setNext Linked.setNext_next

open Linked (next setNext)

variable {N : Type} [Linked N]

/-- Following `next` from `p` visits the cells `l`, in order, and arrives
at `q`. -/
def Seg (h : Heap N) : Ptr → List ℕ → Ptr → Prop
  | p, [], q => p = q
  | p, a :: l, q => p = some a ∧ ∃ n, h.cell a = some n ∧ Seg h (next n) l q

/-- A null-terminated chain. -/
def Chain (h : Heap N) (p : Ptr) (l : List ℕ) : Prop := Seg h p l none

variable {h h' : Heap N} {p q r : Ptr} {l l₁ l₂ : List ℕ} {a b : ℕ} {n m : N}

@[simp] theorem seg_nil : Seg h p [] q ↔ p = q := Iff.rfl

@[simp] theorem seg_cons :
    Seg h p (a :: l) q ↔ p = some a ∧ ∃ n, h.cell a = some n ∧ Seg h (next n) l q := Iff.rfl

@[simp] theorem chain_nil : Chain h p [] ↔ p = none := Iff.rfl

/-- A segment visiting one list and then another is two segments. -/
theorem seg_append : Seg h p (l₁ ++ l₂) q ↔ ∃ r, Seg h p l₁ r ∧ Seg h r l₂ q := by
  induction l₁ generalizing p with
  | nil => simp
  | cons a l₁ ih =>
      simp only [List.cons_append, seg_cons, ih]
      constructor
      · intro h
        obtain ⟨hp, n, hn, r, h₁, h₂⟩ := h
        exact ⟨r, ⟨hp, n, hn, h₁⟩, h₂⟩
      · rintro ⟨r, ⟨hp, n, hn, h₁⟩, h₂⟩
        exact ⟨hp, n, hn, r, h₁, h₂⟩

/-- A chain is taken apart at any of its cells. -/
theorem chain_append : Chain h p (l₁ ++ l₂) ↔ ∃ r, Seg h p l₁ r ∧ Chain h r l₂ := seg_append

/-- Every cell a segment visits is live. -/
theorem live_of_seg (hs : Seg h p l q) : ∀ a ∈ l, ∃ n, h.cell a = some n := by
  induction l generalizing p with
  | nil => intro a ha; cases ha
  | cons b l ih =>
      obtain ⟨-, n, hn, hl⟩ := hs
      intro a ha
      rcases List.mem_cons.1 ha with rfl | ha
      · exact ⟨n, hn⟩
      · exact ih hl a ha

/-- A segment that visits a cell starts at a live one. -/
theorem seg_start (hs : Seg h p l q) (hl : l ≠ []) : ∃ a n, p = some a ∧ h.cell a = some n := by
  cases l with
  | nil => exact absurd rfl hl
  | cons a l =>
      obtain ⟨hp, n, hn, -⟩ := hs
      exact ⟨a, n, hp, hn⟩

/-- Where a chain starts. -/
theorem chain_start (hc : Chain h p l) : p = l.head? := by
  cases l with
  | nil => exact hc
  | cons a l => exact hc.1

/-- A segment reads the heap only at the cells it visits, and there only
their `next` fields. -/
theorem seg_congr (hl : ∀ a ∈ l, (h'.cell a).map next = (h.cell a).map next) :
    Seg h' p l q ↔ Seg h p l q := by
  induction l generalizing p with
  | nil => rfl
  | cons a l ih =>
      have hl' : ∀ b ∈ l, (h'.cell b).map next = (h.cell b).map next :=
        fun b hb => hl b (List.mem_cons_of_mem a hb)
      have ha := hl a List.mem_cons_self
      simp only [seg_cons]
      constructor
      · intro h
        obtain ⟨hp, n, hn, hs⟩ := h
        rw [hn, Option.map_some] at ha
        obtain ⟨m, hm, hmn⟩ := Option.map_eq_some_iff.1 ha.symm
        exact ⟨hp, m, hm, hmn ▸ (ih hl').1 hs⟩
      · intro h
        obtain ⟨hp, n, hn, hs⟩ := h
        rw [hn, Option.map_some] at ha
        obtain ⟨m, hm, hmn⟩ := Option.map_eq_some_iff.1 ha
        exact ⟨hp, m, hm, hmn ▸ (ih hl').2 hs⟩

/-! ## A chain is determined by its start -/

/-- There is one chain from a pointer. -/
theorem chain_unique (h₁ : Chain h p l₁) (h₂ : Chain h p l₂) : l₁ = l₂ := by
  induction l₁ generalizing p l₂ with
  | nil =>
      cases l₂ with
      | nil => rfl
      | cons b l₂ => rw [chain_nil.1 h₁] at h₂; exact absurd h₂.1 (by simp)
  | cons a l₁ ih =>
      obtain ⟨rfl, n, hn, hl₁⟩ := h₁
      cases l₂ with
      | nil => exact absurd h₂ (by simp)
      | cons b l₂ =>
          obtain ⟨hb, m, hm, hl₂⟩ := h₂
          cases hb
          rw [hn] at hm
          cases hm
          rw [ih hl₁ hl₂]

/-- **A chain visits no cell twice**: from a second visit it would have to
go on both to its end and to the same cell again. -/
theorem chain_nodup (hc : Chain h p l) : l.Nodup := by
  induction l generalizing p with
  | nil => exact List.nodup_nil
  | cons a l ih =>
      have hc' := hc
      obtain ⟨rfl, n, -, hl⟩ := hc
      refine List.nodup_cons.2 ⟨fun ha => ?_, ih hl⟩
      obtain ⟨l₁, l₂, rfl⟩ := List.append_of_mem ha
      obtain ⟨r, -, h₂⟩ := chain_append.1 hl
      have heq := chain_unique hc' (h₂.1 ▸ h₂)
      have hlen := congrArg List.length heq
      simp at hlen
      omega

/-- Two heaps with one chain agree on the `next` fields along it. -/
theorem chain_next_eq (hc : Chain h p l) (hc' : Chain h' p l) :
    ∀ a ∈ l, (h'.cell a).map next = (h.cell a).map next := by
  induction l generalizing p with
  | nil => intro a ha; cases ha
  | cons b l ih =>
      obtain ⟨rfl, n, hn, hl⟩ := hc
      obtain ⟨-, n', hn', hl'⟩ := hc'
      have hnext : next n' = next n := by
        cases l with
        | nil => rw [chain_nil.1 hl, chain_nil.1 hl']
        | cons c l => rw [hl.1, hl'.1]
      intro a ha
      rcases List.mem_cons.1 ha with rfl | ha
      · rw [hn, hn', Option.map_some, Option.map_some, hnext]
      · exact ih hl (hnext ▸ hl') a ha

/-! ## Updates off a segment -/

/-- Freeing a cell off the segment leaves it. -/
theorem seg_free (ha : a ∉ l) : Seg (h.free a) p l q ↔ Seg h p l q :=
  seg_congr fun b hb => by rw [Heap.free_cell_ne (ne_of_mem_of_not_mem hb ha)]

/-! ## Reading and storing a `next` field -/

namespace Heap

open Prog

/-- `p->next`. -/
def getNext (p : Ptr) : Prog (Heap N) Ptr := next <$> read p

/-- `p->next = q`. -/
def setNext (p q : Ptr) : Prog (Heap N) Unit := update p (Linked.setNext q)

variable {Q : Ptr → Heap N → Prop} {R : Unit → Heap N → Prop}

/-- There is no `next` of a null pointer. -/
@[simp] theorem wp_getNext_none : ¬ wp (getNext none) Q h := by
  simp [getNext]

theorem wp_getNext (ha : h.cell a = some n) : wp (getNext (some a)) Q h ↔ Q (next n) h := by
  rw [getNext, wp_map, wp_read ha]

theorem wp_setNext (ha : h.cell a = some n) :
    wp (setNext (some a) q) R h ↔ R () (h.put a (Linked.setNext q n)) :=
  wp_update ha

/-! ## Relinking -/

/-- Store `q` into the `next` field of the cell `a`. -/
def link (h : Heap N) (a : ℕ) (q : Ptr) : Heap N :=
  match h.cell a with
  | none => h
  | some n => h.put a (Linked.setNext q n)

/-- A link is a new `next` in a live cell. -/
theorem link_eq (ha : h.cell a = some n) : h.link a q = h.put a (Linked.setNext q n) := by
  rw [link, ha]

/-- Writing a `next` is a link. -/
theorem wp_setNext_link (ha : h.cell a = some n) :
    wp (setNext (some a) q) R h ↔ R () (h.link a q) := by
  rw [wp_setNext ha, link_eq ha]

@[simp] theorem link_frontier : (h.link a q).frontier = h.frontier := by
  unfold link; split <;> simp

@[simp] theorem link_freed : (h.link a q).freed = h.freed := by
  unfold link; split <;> rfl

theorem link_cell_self (ha : h.cell a = some n) :
    (h.link a q).cell a = some (Linked.setNext q n) := by
  rw [link_eq ha, put_cell_self ha]

@[simp] theorem link_cell_ne (hb : b ≠ a) : (h.link a q).cell b = h.cell b := by
  unfold link; split <;> simp [hb]

end Heap

/-- A link at a cell off the segment leaves it. -/
theorem seg_link (ha : a ∉ l) : Seg (h.link a r) p l q ↔ Seg h p l q :=
  seg_congr fun b hb => by rw [Heap.link_cell_ne (ne_of_mem_of_not_mem hb ha)]

/-- **Relinking the last cell of a segment moves its end**, whatever it
was. -/
theorem seg_link_last (hs : Seg h p (l ++ [a]) q) (ha : a ∉ l) :
    Seg (h.link a r) p (l ++ [a]) r := by
  obtain ⟨t, h₁, rfl, n, hn, -⟩ := seg_append.1 hs
  refine seg_append.2 ⟨some a, (seg_link ha).2 h₁, rfl, Linked.setNext r n,
    Heap.link_cell_self hn, ?_⟩
  simp

/-- **Appending**: a chain whose last cell is made to point at a lone cell
off it ends in that cell. -/
theorem chain_link_append (hc : Chain h p (l ++ [a])) (hb : Chain h (some b) [b])
    (hba : b ∉ l ++ [a]) : Chain (h.link a (some b)) p (l ++ [a] ++ [b]) := by
  have hnd := chain_nodup hc
  have ha : a ∉ l := fun h => (List.nodup_append.1 hnd).2.2 a h a (by simp) rfl
  refine chain_append.2 ⟨some b, seg_link_last hc ha, (seg_link ?_).2 hb⟩
  simp only [List.mem_append, List.mem_singleton, not_or] at hba ⊢
  exact fun hab => hba.2 hab.symm

/-- Two cells a chain visits one after the other are different. -/
theorem chain_ne (hc : Chain h p (l₁ ++ a :: b :: l₂)) : b ≠ a := by
  rintro rfl
  have hnd := chain_nodup hc
  simp [List.nodup_append] at hnd

/-- **Unlinking**: a chain in which `a` is made to point past its successor
`b`, and `b` is freed, visits the same cells but `b`. -/
theorem chain_unlink (hc : Chain h p (l₁ ++ a :: b :: l₂)) (hm : h.cell b = some m) :
    Chain ((h.link a (next m)).free b) p (l₁ ++ a :: l₂) := by
  have hnd := chain_nodup hc
  rw [List.append_cons] at hc hnd ⊢
  obtain ⟨r, h₁, rfl, m', hm', h₂⟩ := chain_append.1 hc
  rw [hm] at hm'
  cases hm'
  obtain ⟨hnd₁, hnd₂, hdisj⟩ := List.nodup_append.1 hnd
  have ha : a ∉ l₁ := fun h => (List.nodup_append.1 hnd₁).2.2 a h a (by simp) rfl
  have ha₂ : a ∉ l₂ := fun h => hdisj a (by simp) a (List.mem_cons_of_mem b h) rfl
  have hb₁ : b ∉ l₁ ++ [a] := fun h => hdisj b h b (by simp) rfl
  refine chain_append.2 ⟨next m, (seg_free hb₁).2 (seg_link_last h₁ ha), ?_⟩
  exact (seg_free (List.nodup_cons.1 hnd₂).1).2 ((seg_link ha₂).2 h₂)

end BlocTest
