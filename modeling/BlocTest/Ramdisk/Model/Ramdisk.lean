import BlocTest.Common.Overwrite
import BlocTest.Ramdisk.Model.BlockLayer
/-!
# The RAM disk driver

`mramdisk.c`: the queue function copies between the pages of a request and
the array that stands for the disk. Positions on the disk are relative to
the array's start. The trace is an observer's: what has been copied, and
which segment was completed with the memory as it stood then.
-/

namespace BlocTest

namespace Ramdisk

/-- `RAM_SIZE`: ten megabytes. -/
def ramSize : ℕ := 1024 * 1024 * 10

/-- What an observer sees. -/
inductive Event where
  /-- A copy between memory and the `len` bytes of the disk from `addr` on. -/
  | copied (dir : Dir) (addr len : ℕ)
  /-- The completion of a segment, and the memory at that moment. -/
  | completed (bv : BioVec) (mem : ℕ → UInt8)

/-- The bytes of the disk and of the pages. -/
structure Store where
  disk : ℕ → UInt8
  mem : ℕ → UInt8
  trace : List Event

/-- The bytes, and the state of the kernel. -/
structure Machine (κ : Type) where
  store : Store
  kernel : κ

/-- `ram_addr`. -/
def ramAddr (bv : BioVec) : ℕ := bv.pageAddress + bv.bvOffset

/-! ## One segment -/

/-- `memcpy` from the disk into memory. -/
def memcpyFromDisk (dst addr len : ℕ) : Prog Store Unit :=
  if addr + len ≤ ramSize then
    modify fun s => { s with
      mem := overwrite s.mem dst (slice s.disk addr len)
      trace := s.trace ++ [.copied .read addr len] }
  else
    Prog.fault .outOfRange

/-- `memcpy` from memory onto the disk. -/
def memcpyToDisk (addr src len : ℕ) : Prog Store Unit :=
  if addr + len ≤ ramSize then
    modify fun s => { s with
      disk := overwrite s.disk addr (slice s.mem src len)
      trace := s.trace ++ [.copied .write addr len] }
  else
    Prog.fault .outOfRange

/-- The body of `rq_for_each_segment`. -/
def copySegment (dir : Dir) (addr : ℕ) (bv : BioVec) : Prog Store Unit :=
  match dir with
  | .read => memcpyFromDisk (ramAddr bv) addr bv.bvLen
  | .write => memcpyToDisk addr (ramAddr bv) bv.bvLen

/-- `rq_for_each_segment`: every segment is copied at the one address that
was computed before the loop. -/
def copySegments (dir : Dir) (addr : ℕ) : List BioVec → Prog Store Unit
  | [] => pure ()
  | bv :: rest => do
      copySegment dir addr bv
      copySegments dir addr rest

/-! ## The queue -/

section Queue

variable {κ ρ : Type} (B : BlockLayer κ ρ)

/-- Run a program over the bytes. -/
def onStore {α : Type} (p : Prog Store α) : Prog (Machine κ) α :=
  Prog.zoom Machine.store (fun m store => { m with store }) p

/-- The completion of the segment a request is at. -/
def Store.complete (s : Store) : Option BioVec → Store
  | none => s
  | some bv => { s with trace := s.trace ++ [.completed bv s.mem] }

/-- `blk_fetch_request(q)`. -/
def blkFetchRequest : Prog (Machine κ) (Option ρ) := do
  let m ← get
  let (req, kernel) := B.blkFetchRequest m.kernel
  set { m with kernel }
  return req

/-- `__blk_end_request_cur(req, 0)`. -/
def blkEndRequestCur (req : ρ) : Prog (Machine κ) Bool := do
  let m ← get
  let (more, kernel) := B.blkEndRequestCur m.kernel req
  set { m with kernel, store := m.store.complete (B.rqForEachSegment m.kernel req).head? }
  return more

/-- One round of the loop of `ramdisk_queue_func`, over `req`. -/
def queueRound : Option ρ → Prog (Machine κ) (Option ρ ⊕ Unit)
  | none => return .inr ()
  | some req => do
      let kernel := (← get).kernel
      let start := B.blkRqPos kernel req
      let addrOfBlkram := start * sectorSize
      onStore (copySegments (B.rqDataDir kernel req) addrOfBlkram (B.rqForEachSegment kernel req))
      match ← blkEndRequestCur B req with
      | true => return .inl (some req)
      | false => return .inl (← blkFetchRequest B)

/-- `ramdisk_queue_func`. -/
def ramdiskQueueFunc (fuel : ℕ) : Prog (Machine κ) Unit := do
  let req ← blkFetchRequest B
  Prog.loop (queueRound B) fuel req

end Queue

/-- The sectors `ramdisk_init` gives the disk with `set_capacity`. -/
def capacity : ℕ := ramSize / sectorSize

/-- A request that lies within the capacity of the disk. -/
def Request.Inside (r : Request) : Prop := r.pos + totalLen r.segments / sectorSize ≤ capacity

instance (r : Request) : Decidable r.Inside := inferInstanceAs (Decidable (_ ≤ _))

end Ramdisk

end BlocTest
