import BlocTest.Ramdisk.Helpers.Passes
/-!
# Writing to the RAM disk

Each round copies all the segments that remain at the address of the first,
so what stays there is, byte by byte, the last segment long enough to reach
that far. The next round starts where the first segment ends and covers all
that the others left beyond it. So `landing` is what a request leaves, and
it is the request's data when no later segment lays over an earlier one.
-/

namespace BlocTest

namespace Ramdisk

open Prog

variable {κ ρ : Type} {B : BlockLayer κ ρ} {mem disk : ℕ → UInt8} {acc : List UInt8}
variable {bv : BioVec} {pre post rest segments : List BioVec} {s : Store} {m : Machine κ}
variable {addr pos k o : ℕ} {r : Request} {rs : List Request}

/-! ## What a write should leave -/

/-- The bytes of a segment. -/
def bytes (mem : ℕ → UInt8) (bv : BioVec) : List UInt8 := slice mem (ramAddr bv) bv.bvLen

/-- The data of a request: its segments in order. -/
def data (mem : ℕ → UInt8) (segments : List BioVec) : List UInt8 := segments.flatMap (bytes mem)

/-- The first byte of a request on the disk. -/
def Request.start (r : Request) : ℕ := r.pos * sectorSize

/-- The disk after the requests have been written in order, each with its
segments one after the other. -/
def written (mem : ℕ → UInt8) (rs : List Request) (disk : ℕ → UInt8) : ℕ → UInt8 :=
  overwriteAll Request.start (fun r => data mem r.segments) rs disk

/-! ## What is written -/

/-- What a pass leaves at its address: each segment over those before it. -/
def stacked (mem : ℕ → UInt8) (acc : List UInt8) (segments : List BioVec) : List UInt8 :=
  segments.foldl (fun acc bv => layer acc (bytes mem bv)) acc

/-- What the passes of a request leave: of each pass the front that the next
one does not reach. -/
def landing (mem : ℕ → UInt8) : List BioVec → List UInt8
  | [] => []
  | bv :: rest => (stacked mem (bytes mem bv) rest).take bv.bvLen ++ landing mem rest

@[simp] theorem length_bytes : (bytes mem bv).length = bv.bvLen := length_slice

/-- The next segment goes over those before it. -/
theorem stacked_cons :
    stacked mem acc (bv :: rest) = stacked mem (layer acc (bytes mem bv)) rest := rfl

/-- Nothing that was written is taken away. -/
theorem le_length_stacked (mem : ℕ → UInt8) (acc : List UInt8) (segments : List BioVec) :
    acc.length ≤ (stacked mem acc segments).length := by
  induction segments generalizing acc with
  | nil => exact Nat.le_refl _
  | cons bv rest ih =>
      have := ih (layer acc (bytes mem bv))
      rw [length_layer] at this
      rw [stacked_cons]
      omega

/-- A pass writes no more than the bytes of its segments. -/
theorem length_stacked_le (mem : ℕ → UInt8) (acc : List UInt8) (segments : List BioVec) :
    (stacked mem acc segments).length ≤ acc.length + totalLen segments := by
  induction segments generalizing acc with
  | nil => exact Nat.le_refl _
  | cons bv rest ih =>
      have := ih (layer acc (bytes mem bv))
      rw [length_layer, length_bytes] at this
      rw [stacked_cons, totalLen_cons]
      omega

/-- As many bytes land as the request has. -/
theorem length_landing (mem : ℕ → UInt8) (segments : List BioVec) :
    (landing mem segments).length = totalLen segments := by
  induction segments with
  | nil => rfl
  | cons bv rest ih =>
      have := le_length_stacked mem (bytes mem bv) rest
      rw [length_bytes] at this
      rw [landing, List.length_append, List.length_take, ih, totalLen_cons]
      omega

/-- As many as are its data. -/
theorem length_data (mem : ℕ → UInt8) (segments : List BioVec) :
    (data mem segments).length = totalLen segments := by
  induction segments with
  | nil => rfl
  | cons bv rest ih =>
      unfold data at ih
      rw [data, List.flatMap_cons, List.length_append, ih, length_bytes, totalLen_cons]

/-- One pass of a write over bytes already written at its address. -/
theorem disk_pass_write (segments : List BioVec) (h : s.disk = overwrite disk addr acc) :
    (s.pass .write addr segments).disk = overwrite disk addr (stacked s.mem acc segments) ∧
      (s.pass .write addr segments).mem = s.mem := by
  induction segments generalizing s acc with
  | nil => exact ⟨h, rfl⟩
  | cons bv rest ih =>
      have hcopy : (s.copy .write addr bv).disk =
          overwrite disk addr (layer acc (bytes s.mem bv)) := by
        show overwrite s.disk addr (bytes s.mem bv) = _
        rw [h, overwrite_overwrite]
      exact ih hcopy

/-- **Serving a write leaves the landing at its start**, and no other byte
of the disk or of memory is touched. -/
theorem disk_serve_write (s : Store) (pos : ℕ) (segments : List BioVec) :
    (s.serve .write pos segments).disk =
        overwrite s.disk (pos * sectorSize) (landing s.mem segments) ∧
      (s.serve .write pos segments).mem = s.mem := by
  induction segments generalizing s pos with
  | nil => exact ⟨overwrite_nil.symm, rfl⟩
  | cons bv rest ih =>
      have hfirst : (s.copy .write (pos * sectorSize) bv).disk =
          overwrite s.disk (pos * sectorSize) (bytes s.mem bv) := rfl
      -- the bytes after the round; its completion touches neither
      set t := (s.pass .write (pos * sectorSize) (bv :: rest)).complete (some bv)
      obtain ⟨hdisk, hmem⟩ : t.disk = overwrite s.disk (pos * sectorSize)
          (stacked s.mem (bytes s.mem bv) rest) ∧ t.mem = s.mem := disk_pass_write rest hfirst
      obtain ⟨hdisk', hmem'⟩ := ih t (pos + bv.bvLen / sectorSize)
      rw [hmem] at hdisk' hmem'
      rw [hdisk, pos_completed] at hdisk'
      refine ⟨?_, hmem'⟩
      rw [Store.serve, hdisk', landing]
      -- the next passes cover all that this one left beyond its first segment
      refine overwrite_past ?_ ?_
      · have := le_length_stacked s.mem (bytes s.mem bv) rest
        rwa [length_bytes] at this
      · have := length_stacked_le s.mem (bytes s.mem bv) rest
        rwa [length_bytes, ← length_landing s.mem] at this

/-- **The disk after a queue of writes**: what lands of each, one over the
other. -/
theorem disk_serveAll_write (hw : ∀ r ∈ rs, r.dir = .write) :
    (s.serveAll rs).disk =
      overwriteAll Request.start (fun r => landing s.mem r.segments) rs s.disk := by
  induction rs generalizing s with
  | nil => rfl
  | cons r rs ih =>
      have hdir := hw r List.mem_cons_self
      obtain ⟨hdisk, hmem⟩ := disk_serve_write s r.pos r.segments
      rw [serveAll_cons, hdir, ih fun r' hr' => hw r' (List.mem_cons_of_mem r hr'), hmem, hdisk]
      rfl

/-! ## When that is the data -/

/-- The last of `bv` and the segments after it that is longer than `o`. -/
def lastOver (o : ℕ) (bv : BioVec) (post : List BioVec) : BioVec :=
  post.foldl (fun last bv => if o < bv.bvLen then bv else last) bv

/-- A byte of a segment is the one in memory. -/
theorem getElem?_bytes (ho : o < bv.bvLen) : (bytes mem bv)[o]? = some (mem (ramAddr bv + o)) :=
  getElem?_slice ho

/-- A byte of a pass is that of the last segment that reaches it. -/
theorem getElem?_stacked (h : acc[o]? = some (mem (ramAddr bv + o))) :
    (stacked mem acc post)[o]? = some (mem (ramAddr (lastOver o bv post) + o)) := by
  induction post generalizing acc bv with
  | nil => exact h
  | cons bv' post ih =>
      rw [stacked_cons, lastOver, List.foldl_cons]
      by_cases ho : o < bv'.bvLen
      · rw [if_pos ho]
        refine ih ?_
        rw [getElem?_layer_top (by rwa [length_bytes]), getElem?_bytes ho]
      · rw [if_neg ho]
        refine ih ?_
        rw [getElem?_layer_below (by rw [length_bytes]; omega), h]

/-- The front of a pass is as long as its first segment. -/
theorem length_front :
    ((stacked mem (bytes mem bv) rest).take bv.bvLen).length = bv.bvLen := by
  have := le_length_stacked mem (bytes mem bv) rest
  rw [length_bytes] at this
  rw [List.length_take]
  omega

/-- A byte of the landing, by the segment it falls in. -/
theorem getElem?_landing (mem : ℕ → UInt8) (pre post : List BioVec) (ho : o < bv.bvLen) :
    (landing mem (pre ++ bv :: post))[totalLen pre + o]? =
      some (mem (ramAddr (lastOver o bv post) + o)) := by
  induction pre with
  | nil =>
      rw [List.nil_append, totalLen_nil, Nat.zero_add, landing,
        List.getElem?_append_left (by rwa [length_front]), List.getElem?_take_of_lt ho]
      exact getElem?_stacked (getElem?_bytes ho)
  | cons bv' pre ih =>
      rw [List.cons_append, totalLen_cons, landing,
        List.getElem?_append_right (by rw [length_front]; omega), length_front, Nat.add_assoc,
        Nat.add_sub_cancel_left, ih]

/-- A byte of the data, by the segment it falls in. -/
theorem getElem?_data (mem : ℕ → UInt8) (pre post : List BioVec) (ho : o < bv.bvLen) :
    (data mem (pre ++ bv :: post))[totalLen pre + o]? = some (mem (ramAddr bv + o)) := by
  induction pre with
  | nil =>
      rw [List.nil_append, totalLen_nil, Nat.zero_add, data, List.flatMap_cons,
        List.getElem?_append_left (by rwa [length_bytes]), getElem?_bytes ho]
  | cons bv' pre ih =>
      unfold data at ih
      rw [List.cons_append, totalLen_cons, data, List.flatMap_cons,
        List.getElem?_append_right (by rw [length_bytes]; omega), length_bytes, Nat.add_assoc,
        Nat.add_sub_cancel_left, ih]

/-- Every byte of a request falls in one of its segments. -/
theorem exists_segment (hk : k < totalLen segments) :
    ∃ pre bv post o, segments = pre ++ bv :: post ∧ o < bv.bvLen ∧ k = totalLen pre + o := by
  induction segments generalizing k with
  | nil => exact absurd hk (Nat.not_lt_zero k)
  | cons bv rest ih =>
      rw [totalLen_cons] at hk
      by_cases hfirst : k < bv.bvLen
      · exact ⟨[], bv, rest, k, rfl, hfirst, (Nat.zero_add k).symm⟩
      · obtain ⟨pre, bv', post, o, rfl, ho, hko⟩ := ih (by omega : k - bv.bvLen < totalLen rest)
        refine ⟨bv :: pre, bv', post, o, rfl, ho, ?_⟩
        rw [totalLen_cons]
        omega

/-- Landing and data of a request agree on some of its bytes when no later
segment lays a different byte over those. -/
theorem landing_eq_data_iff {U : ℕ → Prop} :
    (∀ k < totalLen segments, U k → (landing mem segments)[k]? = (data mem segments)[k]?) ↔
      ∀ pre bv post, segments = pre ++ bv :: post → ∀ o < bv.bvLen, U (totalLen pre + o) →
        mem (ramAddr (lastOver o bv post) + o) = mem (ramAddr bv + o) := by
  constructor
  · rintro h pre bv post rfl o ho hU
    have hlt : totalLen pre + o < totalLen (pre ++ bv :: post) := by
      simp only [totalLen, List.map_append, List.map_cons, List.sum_append, List.sum_cons]
      omega
    have heq := h _ hlt hU
    rw [getElem?_landing mem pre post ho, getElem?_data mem pre post ho] at heq
    exact Option.some.inj heq
  · intro h k hk hU
    obtain ⟨pre, bv, post, o, rfl, ho, rfl⟩ := exists_segment hk
    rw [getElem?_landing mem pre post ho, getElem?_data mem pre post ho, h pre bv post rfl o ho hU]

/-- Some request of `rs` goes over position `i` of the disk. -/
def Covered (rs : List Request) (i : ℕ) : Prop :=
  ∃ r ∈ rs, Within r.start (totalLen r.segments) i

/-- **A queue of writes leaves the data on the disk exactly when**, at every
byte that no later request goes over, the last segment of the request that
reaches as far as the byte's own segment does there carries the same byte. -/
theorem ramdiskQueueFunc_written_iff (C : Contract B) (m : Machine κ) (rs : List Request)
    (fuel : ℕ) (hq : C.Queued m.kernel rs) (hw : ∀ r ∈ rs, r.dir = .write)
    (hin : ∀ r ∈ rs, r.Inside) (hf : rounds rs < fuel) :
    (∃ m', ramdiskQueueFunc B fuel m = .ok ((), m') ∧
      m'.store.disk = written m.store.mem rs m.store.disk) ↔
    ∀ before r after, rs = before ++ r :: after →
      ∀ pre bv post, r.segments = pre ++ bv :: post → ∀ o < bv.bvLen,
        ¬ Covered after (r.start + (totalLen pre + o)) →
          m.store.mem (ramAddr (lastOver o bv post) + o) = m.store.mem (ramAddr bv + o) := by
  obtain ⟨_, m', hrun, hstore⟩ := wp_ramdiskQueueFunc C hq hin hf
  have hdisk : m'.store.disk =
      overwriteAll Request.start (fun r => landing m.store.mem r.segments) rs m.store.disk := by
    rw [hstore, disk_serveAll_write hw]
  have huncovered : ∀ after i, Uncovered Request.start
      (fun r => landing m.store.mem r.segments) after i ↔ ¬ Covered after i := by
    intro after i
    simp only [Uncovered, Covered, length_landing, not_exists, not_and]
  rw [exists_run_iff hrun, hdisk, written,
    overwriteAll_eq_iff fun r _ => by rw [length_landing, length_data]]
  simp only [length_landing, huncovered]
  refine forall_congr' fun before => forall_congr' fun r => forall_congr' fun after =>
    imp_congr_right fun _ => ?_
  exact landing_eq_data_iff (U := fun k => ¬ Covered after (r.start + k))

/-- Two sectors to be written to the start of the disk. -/
def twoSectors : Request where
  pos := 0
  dir := .write
  segments := [sectorAt 0, sectorAt 512]

/-- An empty disk, a first sector of ones in memory and twos after it, and
the two sectors queued. -/
def onesAndTwos : Machine (Option Request × List Request) where
  store := { disk := fun _ => 0, mem := fun i => if i < 512 then 1 else 2, trace := [] }
  kernel := (none, [twoSectors])

/-- These two sectors. -/
theorem ramdiskQueueFunc_written_iff_twoSectors :
    (∃ m', ramdiskQueueFunc listLayer 4 onesAndTwos = .ok ((), m') ∧
      m'.store.disk = written onesAndTwos.store.mem [twoSectors] onesAndTwos.store.disk) ↔
    ∀ before r after, [twoSectors] = before ++ r :: after →
      ∀ pre bv post, r.segments = pre ++ bv :: post → ∀ o < bv.bvLen,
        ¬ Covered after (r.start + (totalLen pre + o)) →
          onesAndTwos.store.mem (ramAddr (lastOver o bv post) + o) =
            onesAndTwos.store.mem (ramAddr bv + o) :=
  ramdiskQueueFunc_written_iff listContract onesAndTwos [twoSectors] 4 rfl (by decide) (by decide)
    (by decide)

/-- The second sector lands on the first, so the disk begins with a two
where the data begins with a one. -/
theorem ramdiskQueueFunc_twoSectors :
    ∃ m', ramdiskQueueFunc listLayer 4 onesAndTwos = .ok ((), m') ∧ m'.store.disk 0 = 2 ∧
      written onesAndTwos.store.mem [twoSectors] onesAndTwos.store.disk 0 = 1 := by
  obtain ⟨_, m', hrun, hstore⟩ := wp_ramdiskQueueFunc listContract
    (rfl : listContract.Queued onesAndTwos.kernel [twoSectors]) (by decide)
    (by decide : rounds [twoSectors] < 4)
  have hwithin : Within twoSectors.start (totalLen twoSectors.segments) 0 := by decide
  have hland := getElem?_landing onesAndTwos.store.mem [] [sectorAt 512]
    (by decide : 0 < (sectorAt 0).bvLen)
  have hdata := getElem?_data onesAndTwos.store.mem [] [sectorAt 512]
    (by decide : 0 < (sectorAt 0).bvLen)
  refine ⟨m', hrun, ?_, ?_⟩
  · rw [hstore, disk_serveAll_write (by decide), overwriteAll_cons, overwriteAll_nil]
    rw [← length_landing onesAndTwos.store.mem] at hwithin
    exact Option.some.inj ((overwrite_within hwithin).trans hland)
  · rw [written, overwriteAll_cons, overwriteAll_nil]
    rw [← length_data onesAndTwos.store.mem] at hwithin
    exact Option.some.inj ((overwrite_within hwithin).trans hdata)

end Ramdisk

end BlocTest
