import BlocTest.Ramdisk.Model.Ramdisk
/-!
# What the queue function does to the bytes

One round copies every segment that remains and completes the first of
them. `Store.serve` is a request from its first round to its last, as a
function of the bytes, and the queue function is `Store.serve` over the
queue: no copy of a request inside the disk leaves the disk.
-/

namespace BlocTest

namespace Ramdisk

open Prog

variable {κ ρ : Type} {B : BlockLayer κ ρ} {dir : Dir} {addr pos : ℕ} {bv : BioVec}
variable {segments rest : List BioVec} {s t : Store} {m : Machine κ} {r : Request}
variable {rs : List Request} {fuel : ℕ}

/-! ## One round -/

/-- What copying one segment does. -/
def Store.copy (dir : Dir) (addr : ℕ) (s : Store) (bv : BioVec) : Store :=
  match dir with
  | .read => { s with
      mem := overwrite s.mem (ramAddr bv) (slice s.disk addr bv.bvLen)
      trace := s.trace ++ [.copied .read addr bv.bvLen] }
  | .write => { s with
      disk := overwrite s.disk addr (slice s.mem (ramAddr bv) bv.bvLen)
      trace := s.trace ++ [.copied .write addr bv.bvLen] }

/-- What copying every segment at one address does. -/
def Store.pass (dir : Dir) (addr : ℕ) (segments : List BioVec) (s : Store) : Store :=
  segments.foldl (Store.copy dir addr) s

@[simp] theorem pass_cons :
    s.pass dir addr (bv :: rest) = (s.copy dir addr bv).pass dir addr rest := rfl

/-- Inside the disk a copy is what it does. -/
theorem wp_copySegment {Q : Unit → Store → Prop} (h : addr + bv.bvLen ≤ ramSize) :
    wp (copySegment dir addr bv) Q s ↔ Q () (s.copy dir addr bv) := by
  cases dir <;> simp only [copySegment, memcpyFromDisk, memcpyToDisk, if_pos h, wp_modify] <;> rfl

/-- So is a pass, segment by segment. -/
theorem wp_copySegments (h : ∀ bv ∈ segments, addr + bv.bvLen ≤ ramSize) :
    wp (copySegments dir addr segments) (fun _ t => t = s.pass dir addr segments) s := by
  induction segments generalizing s with
  | nil => exact wp_pure.2 rfl
  | cons bv rest ih =>
      rw [copySegments, wp_bind, wp_copySegment (h bv List.mem_cons_self)]
      exact ih fun b hb => h b (List.mem_cons_of_mem bv hb)

/-- What runs on the bytes leaves the kernel's side alone. -/
@[simp] theorem wp_onStore {α : Type} {p : Prog Store α} {Q : α → Machine κ → Prop} :
    wp (onStore p) Q m ↔ wp p (fun a t => Q a { m with store := t }) m.store := wp_zoom

/-! ## Lengths -/

@[simp] theorem totalLen_nil : totalLen [] = 0 := rfl

@[simp] theorem totalLen_cons : totalLen (bv :: rest) = bv.bvLen + totalLen rest := by
  rw [totalLen, List.map_cons, List.sum_cons, totalLen]

/-- A segment is whole sectors. -/
theorem BioVec.sectors_mul (bv : BioVec) : bv.bvLen / sectorSize * sectorSize = bv.bvLen :=
  Nat.div_mul_cancel bv.sector_dvd_bvLen

/-- So are all of them together. -/
theorem sector_dvd_totalLen (segments : List BioVec) : sectorSize ∣ totalLen segments := by
  induction segments with
  | nil => exact Nat.dvd_zero _
  | cons bv rest ih =>
      rw [totalLen_cons]
      exact Nat.dvd_add bv.sector_dvd_bvLen ih

/-- No segment is longer than all. -/
theorem le_totalLen (h : bv ∈ segments) : bv.bvLen ≤ totalLen segments := by
  obtain ⟨pre, post, rfl⟩ := List.append_of_mem h
  simp only [totalLen, List.map_append, List.map_cons, List.sum_append, List.sum_cons]
  omega

/-- The bytes of a request inside the disk. -/
theorem Request.Inside.bytes (h : r.Inside) :
    r.pos * sectorSize + totalLen r.segments ≤ ramSize := by
  obtain ⟨n, hn⟩ := sector_dvd_totalLen r.segments
  rw [Inside, hn] at h
  rw [hn]
  simp only [sectorSize, capacity, ramSize] at h ⊢
  omega

/-- The first byte that remains once a segment is completed. -/
theorem pos_completed (pos : ℕ) (bv : BioVec) :
    (pos + bv.bvLen / sectorSize) * sectorSize = pos * sectorSize + bv.bvLen := by
  rw [Nat.add_mul, bv.sectors_mul]

/-- What remains of a request inside the disk is inside it. -/
theorem Request.Inside.completed (h : r.Inside) : r.completed.Inside := by
  obtain ⟨pos, dir, segments⟩ := r
  cases segments with
  | nil => exact h
  | cons bv rest =>
      obtain ⟨n, hn⟩ := bv.sector_dvd_bvLen
      obtain ⟨k, hk⟩ := sector_dvd_totalLen rest
      simp only [Inside, totalLen_cons, hn, hk, sectorSize] at h
      simp only [Inside, Request.completed, hn, hk, sectorSize]
      omega

/-- A completion that leaves segments has taken one off. -/
theorem length_completed (h : r.completed.segments ≠ []) :
    r.completed.segments.length + 1 = r.segments.length := by
  obtain ⟨pos, dir, segments⟩ := r
  cases segments with
  | nil => exact absurd rfl h
  | cons bv rest => rfl

/-! ## A whole request -/

/-- What serving a request does: a pass over all its segments, the
completion of the first, and the same for those that remain. -/
def Store.serve (dir : Dir) : ℕ → List BioVec → Store → Store
  | _, [], s => s
  | pos, bv :: rest, s =>
      Store.serve dir (pos + bv.bvLen / sectorSize) rest
        ((s.pass dir (pos * sectorSize) (bv :: rest)).complete (some bv))

/-- What serving a queue does. -/
def Store.serveAll (s : Store) (rs : List Request) : Store :=
  rs.foldl (fun s r => s.serve r.dir r.pos r.segments) s

@[simp] theorem serveAll_cons :
    s.serveAll (r :: rs) = (s.serve r.dir r.pos r.segments).serveAll rs := rfl

/-- One round, and then what remains. -/
theorem serve_completed : s.serve r.dir r.pos r.segments =
    ((s.pass r.dir (r.pos * sectorSize) r.segments).complete r.segments.head?).serve
      r.completed.dir r.completed.pos r.completed.segments := by
  obtain ⟨pos, dir, segments⟩ := r
  cases segments <;> rfl

/-! ## The whole queue -/

/-- More rounds than serving the queue takes. -/
def rounds (rs : List Request) : ℕ := (rs.map fun r => r.segments.length + 1).sum

/-- One round for each segment, and one more. -/
@[simp] theorem rounds_cons : rounds (r :: rs) = r.segments.length + 1 + rounds rs := by
  rw [rounds, List.map_cons, List.sum_cons, rounds]

/-- Where the loop of `ramdisk_queue_func` is, `n` rounds or fewer before
its end, on its way to the bytes `t`. -/
def Underway (C : Contract B) (t : Store) (n : ℕ) (req : Option ρ) (m : Machine κ) : Prop :=
  match req with
  | none => m.store = t
  | some req => ∃ r rs, C.Serving m.kernel req r rs ∧ r.Inside ∧ (∀ r' ∈ rs, r'.Inside) ∧
      n = r.segments.length + 1 + rounds rs ∧
      ((m.store.serve r.dir r.pos r.segments).serveAll rs) = t

/-- Fetching the next request of a queue. -/
theorem wp_blkFetchRequest (C : Contract B) (hq : C.Queued m.kernel rs) (hin : ∀ r ∈ rs, r.Inside)
    (ht : m.store.serveAll rs = t) :
    wp (blkFetchRequest B) (fun req m' => ∃ n, n ≤ rounds rs ∧ Underway C t n req m') m := by
  simp only [blkFetchRequest, wp_bind, wp_get, wp_set, wp_pure]
  cases rs with
  | nil =>
      rw [C.fetch_nil hq]
      exact ⟨0, Nat.le_refl _, ht⟩
  | cons r rs =>
      obtain ⟨req, hreq, hserving⟩ := C.fetch_cons hq
      rw [hreq]
      exact ⟨rounds (r :: rs), Nat.le_refl _, r, rs, hserving, hin r List.mem_cons_self,
        fun r' hr' => hin r' (List.mem_cons_of_mem r hr'), rounds_cons, ht⟩

/-- One round of the loop, on a request that is out. -/
theorem wp_queueRound (C : Contract B) {req : ρ} (hserving : C.Serving m.kernel req r rs)
    (hr : r.Inside) (hrs : ∀ r' ∈ rs, r'.Inside)
    (ht : (m.store.serve r.dir r.pos r.segments).serveAll rs = t) :
    wp (queueRound B (some req))
      (Round (Underway C t) (fun _ m' => m'.store = t) (r.segments.length + 1 + rounds rs)) m := by
  have hbytes := hr.bytes
  have hfit : ∀ bv ∈ r.segments, r.pos * sectorSize + bv.bvLen ≤ ramSize := by
    intro bv hbv
    have := le_totalLen hbv
    omega
  rw [serve_completed] at ht
  simp only [queueRound, wp_bind, wp_get, wp_onStore, C.pos_eq hserving, C.dir_eq hserving,
    C.segments_eq hserving]
  refine wp_mono (wp_copySegments hfit) ?_
  rintro _ _ rfl
  simp only [blkEndRequestCur, wp_bind, wp_get, wp_set, wp_pure, C.segments_eq hserving]
  by_cases hmore : r.completed.segments = []
  · -- the last segment: on to the next request
    obtain ⟨hlast, hqueued⟩ := C.end_last hserving hmore
    rw [hmore] at ht
    rw [hlast]
    simp only [wp_bind]
    refine wp_mono (wp_blkFetchRequest C hqueued hrs ht) ?_
    rintro req' m' ⟨n, hn, hunder⟩
    exact wp_pure.2 ⟨n, by omega, hunder⟩
  · obtain ⟨htrue, hserving'⟩ := C.end_more hserving hmore
    have hlen := length_completed hmore
    rw [htrue]
    exact wp_pure.2 ⟨_, by omega, r.completed, rs, hserving', hr.completed, hrs, rfl, ht⟩

/-- **The queue function serves the queue**: it returns, no copy leaves the
disk, and the bytes are those of serving the requests in order. -/
theorem wp_ramdiskQueueFunc (C : Contract B) (hq : C.Queued m.kernel rs)
    (hin : ∀ r ∈ rs, r.Inside) (hf : rounds rs < fuel) :
    wp (ramdiskQueueFunc B fuel) (fun _ m' => m'.store = m.store.serveAll rs) m := by
  rw [ramdiskQueueFunc, wp_bind]
  refine wp_mono (wp_blkFetchRequest C hq hin rfl) fun req m' hreq => ?_
  obtain ⟨n, hn, hunder⟩ := hreq
  refine wp_loop (Underway C (m.store.serveAll rs)) ?_ fuel n req m' (by omega) hunder
  rintro n (_ | req) m hunder
  · exact wp_pure.2 hunder
  · obtain ⟨r, rs', hserving, hr, hrs, rfl, ht⟩ := hunder
    exact wp_queueRound C hserving hr hrs ht

end Ramdisk

end BlocTest
