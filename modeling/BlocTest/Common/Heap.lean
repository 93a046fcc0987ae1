import BlocTest.Common.Prog
import Mathlib.Data.List.Nodup
/-!
# A heap of nodes with a ledger of frees

Cells are named by natural numbers handed out in order, so a fresh address
is never one seen before. The heap remembers every address it has freed,
in order, and carries the bookkeeping as a field: a cell is live exactly
when its address has been handed out and not freed, and no address is
freed twice. Reading, writing and freeing fault off the live cells, which
is what makes a run that returns a memory-safe one.

Nothing here knows what a node is.
-/

namespace BlocTest

/-- A pointer: `none` is the null pointer. -/
abbrev Ptr := Option ℕ

/-- A heap of nodes of type `N`. -/
@[ext] structure Heap (N : Type) where
  /-- The live cells and what they hold. -/
  cell : ℕ → Option N
  /-- The next address to hand out. -/
  frontier : ℕ
  /-- What the memory of each address holds when it is handed out. -/
  uninit : ℕ → N
  /-- The addresses freed so far, latest first. -/
  freed : List ℕ
  live_iff : ∀ a, (cell a).isSome ↔ a < frontier ∧ a ∉ freed
  freed_lt : ∀ a ∈ freed, a < frontier
  freed_nodup : freed.Nodup

namespace Heap

variable {N : Type}

/-- The heap before the first allocation. -/
def empty (uninit : ℕ → N) : Heap N where
  cell := fun _ => none
  frontier := 0
  uninit := uninit
  freed := []
  live_iff := by simp
  freed_lt := by simp
  freed_nodup := List.nodup_nil

variable {h : Heap N} {a b : ℕ} {n n' : N}

/-- The next cell to be handed out is not live. -/
theorem cell_frontier (h : Heap N) : h.cell h.frontier = none := by
  by_contra hne
  exact Nat.lt_irrefl _ ((h.live_iff h.frontier).1 (Option.isSome_iff_ne_none.2 hne)).1

/-- A cell handed out and no longer live was freed, and freed once. -/
theorem count_freed (hlt : a < h.frontier) (ha : h.cell a = none) : h.freed.count a = 1 := by
  have hmem : a ∈ h.freed := by
    by_contra hn
    simpa [ha] using (h.live_iff a).2 ⟨hlt, hn⟩
  exact List.count_eq_one_of_mem h.freed_nodup hmem

/-! ## The three updates -/

/-- Overwrite a live cell; off the live cells nothing happens. -/
def put (h : Heap N) (a : ℕ) (n : N) : Heap N where
  cell := fun b => if b = a then (h.cell b).map fun _ => n else h.cell b
  frontier := h.frontier
  uninit := h.uninit
  freed := h.freed
  live_iff := by
    intro b
    rw [← h.live_iff b]
    split <;> simp
  freed_lt := h.freed_lt
  freed_nodup := h.freed_nodup

/-- Hand out the next address. -/
def alloc (h : Heap N) : Heap N where
  cell := fun b => if b = h.frontier then some (h.uninit b) else h.cell b
  frontier := h.frontier + 1
  uninit := h.uninit
  freed := h.freed
  live_iff := by
    intro b
    split
    · next hb =>
      subst hb
      simpa using fun hmem => Nat.lt_irrefl _ (h.freed_lt _ hmem)
    · next hb =>
      rw [h.live_iff b]
      constructor
      · rintro ⟨hlt, hmem⟩; exact ⟨by omega, hmem⟩
      · rintro ⟨hlt, hmem⟩; exact ⟨by omega, hmem⟩
  freed_lt := fun b hb => Nat.lt_succ_of_lt (h.freed_lt b hb)
  freed_nodup := h.freed_nodup

/-- Free a live cell; off the live cells nothing happens. -/
def free (h : Heap N) (a : ℕ) : Heap N :=
  if ha : (h.cell a).isSome then
    { cell := fun b => if b = a then none else h.cell b
      frontier := h.frontier
      uninit := h.uninit
      freed := a :: h.freed
      live_iff := by
        intro b
        split
        · next hb => simp [hb]
        · next hb => rw [h.live_iff b]; simp [hb]
      freed_lt := by
        intro b hb
        rcases List.mem_cons.1 hb with rfl | hb
        · exact ((h.live_iff b).1 ha).1
        · exact h.freed_lt b hb
      freed_nodup := List.nodup_cons.2 ⟨((h.live_iff a).1 ha).2, h.freed_nodup⟩ }
  else h

@[simp] theorem put_frontier : (h.put a n).frontier = h.frontier := rfl

theorem put_cell_self (ha : h.cell a = some n') : (h.put a n).cell a = some n := by
  simp [put, ha]

@[simp] theorem put_cell_ne (hb : b ≠ a) : (h.put a n).cell b = h.cell b := by
  simp [put, hb]

@[simp] theorem alloc_frontier : h.alloc.frontier = h.frontier + 1 := rfl

/-- The new cell holds what memory held there. -/
@[simp] theorem alloc_cell_self : h.alloc.cell h.frontier = some (h.uninit h.frontier) := by
  simp [alloc]

@[simp] theorem alloc_cell_ne (hb : b ≠ h.frontier) : h.alloc.cell b = h.cell b := by
  simp [alloc, hb]

@[simp] theorem free_frontier : (h.free a).frontier = h.frontier := by
  unfold free; split <;> rfl

@[simp] theorem free_cell_self : (h.free a).cell a = none := by
  unfold free
  split
  · simp
  · next ha => simpa using ha

@[simp] theorem free_cell_ne (hb : b ≠ a) : (h.free a).cell b = h.cell b := by
  unfold free; split <;> simp [hb]

/-- A live cell that is freed is noted. -/
theorem free_freed (ha : h.cell a = some n) : (h.free a).freed = a :: h.freed := by
  rw [free, dif_pos (by simp [ha])]

/-! ## The programs -/

/-- Read the node a pointer points at. -/
def read (p : Ptr) : Prog (Heap N) N := do
  match p with
  | none => Prog.fault .nullDeref
  | some a =>
      match (← get).cell a with
      | none => Prog.fault .deadCell
      | some n => pure n

/-- Change the node a pointer points at. -/
def update (p : Ptr) (f : N → N) : Prog (Heap N) Unit := do
  let n ← read p
  match p with
  | none => Prog.fault .nullDeref
  | some a => modify fun h => h.put a (f n)

/-- `new`: a fresh cell, its content whatever the memory held. -/
def new : Prog (Heap N) Ptr := do
  let h ← get
  set h.alloc
  pure (some h.frontier)

/-- `delete`: free the cell a pointer points at; the null pointer is left
alone. -/
def delete (p : Ptr) : Prog (Heap N) Unit := do
  match p with
  | none => pure ()
  | some a =>
      match (← get).cell a with
      | none => Prog.fault .badFree
      | some _ => modify fun h => h.free a

open Prog

variable {Q : N → Heap N → Prop} {R : Unit → Heap N → Prop} {p : Ptr}

/-- A null pointer cannot be read. -/
@[simp] theorem wp_read_none : ¬ wp (read none) Q h := by
  simp [read]

/-- Any other is read if its cell is live. -/
theorem wp_read_some : wp (read (some a)) Q h ↔ ∃ n, h.cell a = some n ∧ Q n h := by
  cases hc : h.cell a <;> simp [read, hc]

/-- A read of a live cell. -/
theorem wp_read (ha : h.cell a = some n) : wp (read (some a)) Q h ↔ Q n h := by
  simp [wp_read_some, ha]

/-- A null pointer cannot be written. -/
@[simp] theorem wp_update_none {f : N → N} : ¬ wp (update none f) R h := by
  simp [update]

/-- A write of a live cell. -/
theorem wp_update (ha : h.cell a = some n) {f : N → N} :
    wp (update (some a) f) R h ↔ R () (h.put a (f n)) := by
  rw [update, wp_bind, wp_read ha]
  exact wp_modify

/-- The new cell is the next one, and live. -/
@[simp] theorem wp_new {S : Ptr → Heap N → Prop} :
    wp new S h ↔ S (some h.frontier) h.alloc := by
  simp [new]

/-- A free of a live cell. -/
theorem wp_delete (ha : h.cell a = some n) :
    wp (delete (some a)) R h ↔ R () (h.free a) := by
  simp [delete, ha]

end Heap

end BlocTest
