import BlocTest.Ramdisk.Helpers.Passes
import Mathlib.Data.List.Forall2
/-!
# Reading from the RAM disk

Each round fills all the buffers that remain from the address of the first,
so the later ones hold the wrong bytes until their own round comes. What is
final after a round is the first buffer: it is completed then, and the later
rounds fill other buffers only.
-/

namespace BlocTest

namespace Ramdisk

open Prog

variable {κ ρ : Type} {B : BlockLayer κ ρ} {mem mem' disk : ℕ → UInt8}
variable {bv bv' : BioVec} {rest segments : List BioVec} {s t : Store} {m : Machine κ}
variable {addr pos i : ℕ} {r : Request} {rs : List Request}

/-! ## What a read should deliver -/

/-- Position `i` of memory is in the buffer of a segment. -/
def BioVec.Has (bv : BioVec) (i : ℕ) : Prop := Within (ramAddr bv) bv.bvLen i

/-- Two buffers share no byte. -/
def BioVec.Apart (bv bv' : BioVec) : Prop := ∀ i, bv.Has i → ¬ bv'.Has i

/-- The buffer of `bv` holds the bytes of the disk from `addr` on. -/
def Holds (mem disk : ℕ → UInt8) (bv : BioVec) (addr : ℕ) : Prop :=
  ∀ o < bv.bvLen, mem (ramAddr bv + o) = disk (addr + o)

/-- Each segment with its place on the disk: `addr` plus the lengths of the
segments before it. -/
def placed (addr : ℕ) : List BioVec → List (BioVec × ℕ)
  | [] => []
  | bv :: rest => (bv, addr) :: placed (addr + bv.bvLen) rest

/-- The segments of a queue with their places. -/
def placedAll (rs : List Request) : List (BioVec × ℕ) :=
  rs.flatMap fun r => placed (r.pos * sectorSize) r.segments

/-- The completions an observer sees, each with the memory at the moment. -/
def completions (trace : List Event) : List (BioVec × (ℕ → UInt8)) :=
  trace.filterMap fun
    | .copied .. => none
    | .completed bv mem => some (bv, mem)

/-- A completion of the right segment, with the right bytes in its buffer. -/
def Delivered (disk : ℕ → UInt8) (c : BioVec × (ℕ → UInt8)) (p : BioVec × ℕ) : Prop :=
  c.1 = p.1 ∧ Holds c.2 disk p.1 p.2

/-! ## One pass -/

/-- Memory agrees off the buffers of `segments`. -/
def SameOff (segments : List BioVec) (mem mem' : ℕ → UInt8) : Prop :=
  ∀ i, (∀ bv ∈ segments, ¬ bv.Has i) → mem' i = mem i

/-- A buffer keeps its bytes where memory changes apart from it. -/
theorem Holds.congr (h : Holds mem disk bv addr) (hs : SameOff segments mem mem')
    (ha : ∀ bv' ∈ segments, bv.Apart bv') : Holds mem' disk bv addr := by
  intro o ho
  rw [hs _ fun bv' hbv' => ha bv' hbv' _ ⟨by omega, by omega⟩, h o ho]

/-- A completion is seen behind those before it. -/
theorem completions_concat (trace : List Event) (bv : BioVec) (mem : ℕ → UInt8) :
    completions (trace ++ [.completed bv mem]) = completions trace ++ [(bv, mem)] := by
  rw [completions, List.filterMap_append]
  rfl

/-- A copy is not seen. -/
theorem completions_copied (trace : List Event) (dir : Dir) (addr len : ℕ) :
    completions (trace ++ [.copied dir addr len]) = completions trace := by
  rw [completions, List.filterMap_append]
  exact List.append_nil _

/-- What copying one segment from the disk does to memory. -/
theorem mem_copy_read (s : Store) (addr : ℕ) (bv : BioVec) :
    Holds (s.copy .read addr bv).mem s.disk bv addr ∧
      SameOff [bv] s.mem (s.copy .read addr bv).mem := by
  have hlen : (slice s.disk addr bv.bvLen).length = bv.bvLen := length_slice
  constructor
  · intro o ho
    have hwithin : Within (ramAddr bv) (slice s.disk addr bv.bvLen).length (ramAddr bv + o) :=
      ⟨by omega, by omega⟩
    have hget := overwrite_within (d := s.mem) hwithin
    rw [Nat.add_sub_cancel_left, getElem?_slice ho] at hget
    exact Option.some.inj hget
  · intro i hi
    refine overwrite_off ?_
    rw [hlen]
    exact hi bv List.mem_cons_self

/-- **A pass of a read** fills the buffers of `segments`, all from `addr`,
and no byte of memory besides. -/
theorem pass_read (segments : List BioVec) (s : Store) (addr : ℕ)
    (ha : segments.Pairwise BioVec.Apart) :
    (s.pass .read addr segments).disk = s.disk ∧
      completions (s.pass .read addr segments).trace = completions s.trace ∧
      SameOff segments s.mem (s.pass .read addr segments).mem ∧
      ∀ bv ∈ segments, Holds (s.pass .read addr segments).mem s.disk bv addr := by
  induction segments generalizing s with
  | nil => exact ⟨rfl, rfl, fun i _ => rfl, fun bv hbv => absurd hbv List.not_mem_nil⟩
  | cons bv rest ih =>
      obtain ⟨hfirst, hrest⟩ := List.pairwise_cons.1 ha
      obtain ⟨hdisk, htrace, hoff, hholds⟩ := ih (s.copy .read addr bv) hrest
      obtain ⟨hbv, hoff'⟩ := mem_copy_read s addr bv
      refine ⟨hdisk, ?_, fun i hi => ?_, fun b hb => ?_⟩
      · rw [pass_cons, htrace]
        exact completions_copied _ _ _ _
      · rw [pass_cons, hoff i fun b hb => hi b (List.mem_cons_of_mem bv hb)]
        exact hoff' i fun b hb => hi b (List.mem_singleton.1 hb ▸ List.mem_cons_self)
      · rcases List.mem_cons.1 hb with rfl | hb
        · exact hbv.congr hoff hfirst
        · exact hholds b hb

/-! ## A whole request -/

/-- What is known of the bytes once the segments `ps`, each at its place,
have been read: they were completed one by one, each with its bytes in its
buffer, and all the bytes are still there. -/
structure Filled (s t : Store) (segments : List BioVec) (ps : List (BioVec × ℕ)) : Prop where
  disk : t.disk = s.disk
  off : SameOff segments s.mem t.mem
  holds : ∀ p ∈ ps, Holds t.mem s.disk p.1 p.2
  delivered : ∃ done, completions t.trace = completions s.trace ++ done ∧
    List.Forall₂ (Delivered s.disk) done ps

theorem Filled.refl (s : Store) : Filled s s [] [] :=
  ⟨rfl, fun _ _ => rfl, fun _ hp => absurd hp List.not_mem_nil, [], (List.append_nil _).symm, .nil⟩

/-- Two readings one after the other, into buffers apart from each other. -/
theorem Filled.trans {u : Store} {segments' : List BioVec} {ps ps' : List (BioVec × ℕ)}
    (h : Filled s t segments ps) (h' : Filled t u segments' ps')
    (ha : ∀ p ∈ ps, ∀ bv ∈ segments', p.1.Apart bv) :
    Filled s u (segments ++ segments') (ps ++ ps') where
  disk := h'.disk.trans h.disk
  off := fun i hi => by
    rw [h'.off i fun bv hbv => hi bv (List.mem_append_right _ hbv),
      h.off i fun bv hbv => hi bv (List.mem_append_left _ hbv)]
  holds := fun p hp => by
    rcases List.mem_append.1 hp with hp | hp
    · exact (h.holds p hp).congr h'.off (ha p hp)
    · exact h.disk ▸ h'.holds p hp
  delivered := by
    obtain ⟨done, hdone, hall⟩ := h.delivered
    obtain ⟨done', hdone', hall'⟩ := h'.delivered
    refine ⟨done ++ done', by rw [hdone', hdone, List.append_assoc], ?_⟩
    rw [h.disk] at hall'
    exact List.rel_append hall hall'

/-- What has a place is a segment. -/
theorem fst_mem_of_mem_placed {p : BioVec × ℕ} (h : p ∈ placed addr segments) :
    p.1 ∈ segments := by
  induction segments generalizing addr with
  | nil => cases h
  | cons bv rest ih =>
      rcases List.mem_cons.1 h with rfl | h
      · exact List.mem_cons_self
      · exact List.mem_cons_of_mem bv (ih h)

/-- **Serving a read** delivers each of its segments. -/
theorem filled_serve (segments : List BioVec) (s : Store) (pos : ℕ)
    (ha : segments.Pairwise BioVec.Apart) :
    Filled s (s.serve .read pos segments) segments (placed (pos * sectorSize) segments) := by
  induction segments generalizing s pos with
  | nil => exact Filled.refl s
  | cons bv rest ih =>
      obtain ⟨hfirst, hrest⟩ := List.pairwise_cons.1 ha
      obtain ⟨hdisk, htrace, hoff, hholds⟩ := pass_read (bv :: rest) s (pos * sectorSize) ha
      -- the first segment is final after its pass
      have hround : Filled s ((s.pass .read (pos * sectorSize) (bv :: rest)).complete (some bv))
          (bv :: rest) [(bv, pos * sectorSize)] := by
        have hbv := hholds bv List.mem_cons_self
        refine ⟨hdisk, hoff, fun p hp => ?_, [(bv, _)], ?_, .cons ⟨rfl, hbv⟩ .nil⟩
        · obtain rfl := List.mem_singleton.1 hp
          exact hbv
        · rw [← htrace]
          exact completions_concat _ _ _
      have hnext := hround.trans (ih _ (pos + bv.bvLen / sectorSize) hrest) fun p hp b hb => by
        obtain rfl := List.mem_singleton.1 hp
        exact hfirst b hb
      rw [pos_completed] at hnext
      exact { hnext with off := fun i hi => hnext.off i fun b hb =>
        (List.mem_append.1 hb).elim (hi b) fun hb => hi b (List.mem_cons_of_mem bv hb) }

/-- Serving a queue of reads delivers all their segments. -/
theorem filled_serveAll (rs : List Request) (s : Store) (hr : ∀ r ∈ rs, r.dir = .read)
    (ha : (rs.flatMap Request.segments).Pairwise BioVec.Apart) :
    Filled s (s.serveAll rs) (rs.flatMap Request.segments) (placedAll rs) := by
  induction rs generalizing s with
  | nil => exact Filled.refl s
  | cons r rs ih =>
      rw [List.flatMap_cons] at ha ⊢
      obtain ⟨hthis, hrest, hcross⟩ := List.pairwise_append.1 ha
      rw [serveAll_cons, hr r List.mem_cons_self]
      refine (filled_serve r.segments s r.pos hthis).trans
        (ih _ (fun r' hr' => hr r' (List.mem_cons_of_mem r hr')) hrest) fun p hp bv hbv => ?_
      exact hcross p.1 (fst_mem_of_mem_placed hp) bv hbv

/-- **Reads deliver the disk.** For any queue of read requests inside the
disk, whose buffers are apart, the queue function returns with the disk as
it was; every segment is completed once, in order, with the bytes of its
place in its buffer; and every buffer still holds them at the end, when no
other byte of memory has changed. -/
theorem ramdiskQueueFunc_read (C : Contract B) (m : Machine κ) (rs : List Request) (fuel : ℕ)
    (hq : C.Queued m.kernel rs) (hr : ∀ r ∈ rs, r.dir = .read) (hin : ∀ r ∈ rs, r.Inside)
    (ha : (rs.flatMap Request.segments).Pairwise BioVec.Apart) (hf : rounds rs < fuel) :
    ∃ m', ramdiskQueueFunc B fuel m = .ok ((), m') ∧
      m'.store.disk = m.store.disk ∧
      (∃ done, completions m'.store.trace = completions m.store.trace ++ done ∧
        List.Forall₂ (Delivered m.store.disk) done (placedAll rs)) ∧
      (∀ p ∈ placedAll rs, Holds m'.store.mem m.store.disk p.1 p.2) ∧
      SameOff (rs.flatMap Request.segments) m.store.mem m'.store.mem := by
  obtain ⟨_, m', hrun, hstore⟩ := wp_ramdiskQueueFunc C hq hin hf
  have hfilled := filled_serveAll rs m.store hr ha
  rw [← hstore] at hfilled
  exact ⟨m', hrun, hfilled.disk, hfilled.delivered, hfilled.holds, hfilled.off⟩

/-- Two sectors to be read from the third sector of the disk on, into pages
that lie the other way round. -/
def twoPages : Request where
  pos := 2
  dir := .read
  segments := [sectorAt 4096, sectorAt 0]

/-- A disk with the number of its sector in every byte, and the two sectors
queued. -/
def numbered : Machine (Option Request × List Request) where
  store := { disk := fun i => UInt8.ofNat (i / 512), mem := fun _ => 0, trace := [] }
  kernel := (none, [twoPages])

/-- The two pages are apart. -/
theorem twoPages_apart : ([twoPages].flatMap Request.segments).Pairwise BioVec.Apart := by
  refine .cons (fun bv hbv i hi hi' => ?_) (List.pairwise_singleton _ _)
  obtain rfl := List.mem_singleton.1 hbv
  simp only [BioVec.Has, Within, ramAddr, sectorAt] at hi hi'
  omega

/-- These two sectors. -/
theorem ramdiskQueueFunc_read_twoPages :
    ∃ m', ramdiskQueueFunc listLayer 4 numbered = .ok ((), m') ∧
      m'.store.disk = numbered.store.disk ∧
      (∃ done, completions m'.store.trace = completions numbered.store.trace ++ done ∧
        List.Forall₂ (Delivered numbered.store.disk) done (placedAll [twoPages])) ∧
      (∀ p ∈ placedAll [twoPages], Holds m'.store.mem numbered.store.disk p.1 p.2) ∧
      SameOff ([twoPages].flatMap Request.segments) numbered.store.mem m'.store.mem :=
  ramdiskQueueFunc_read listContract numbered [twoPages] 4 rfl (by decide) (by decide)
    twoPages_apart (by decide)

end Ramdisk

end BlocTest
