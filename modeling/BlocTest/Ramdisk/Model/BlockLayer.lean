import BlocTest.Common.Prog
import Mathlib.Algebra.Ring.Nat
/-!
# The block layer, as the driver sees it

The kernel's block layer is not part of this repository. The driver takes
it as a parameter: the operations it calls, over a state of the kernel's
own, and the contract they keep. A request that is partly completed is
described by what remains of it.
-/

namespace BlocTest

namespace Ramdisk

/-- `SECTOR_SIZE`. -/
def sectorSize : ℕ := 512

/-- `struct bio_vec`: a segment of a request, somewhere in a page. Segments
are whole sectors. -/
structure BioVec where
  /-- `page_address(bv.bv_page)`. -/
  pageAddress : ℕ
  bvOffset : ℕ
  bvLen : ℕ
  bvLen_pos : 0 < bvLen
  sector_dvd_bvLen : sectorSize ∣ bvLen
  deriving DecidableEq

/-- `rq_data_dir`. -/
inductive Dir where
  | read
  | write
  deriving DecidableEq, Repr

/-- What remains of a request: the sector of its first byte that is not
completed, and the segments that are not. -/
structure Request where
  pos : ℕ
  dir : Dir
  segments : List BioVec
  deriving DecidableEq

/-- The bytes the segments hold together. -/
def totalLen (segments : List BioVec) : ℕ := (segments.map BioVec.bvLen).sum

/-- The request with its first segment completed. -/
def Request.completed (r : Request) : Request :=
  match r.segments with
  | [] => r
  | bv :: rest => { r with pos := r.pos + bv.bvLen / sectorSize, segments := rest }

/-- The operations of the block layer: `κ` is the state of the kernel and
`ρ` stands for `struct request *`. -/
structure BlockLayer (κ ρ : Type) where
  blkFetchRequest : κ → Option ρ × κ
  blkRqPos : κ → ρ → ℕ
  rqDataDir : κ → ρ → Dir
  /-- The segments `rq_for_each_segment` visits. -/
  rqForEachSegment : κ → ρ → List BioVec
  blkEndRequestCur : κ → ρ → Bool × κ

/-- **The contract of the block layer.** Requests are handed out in the
order they are queued; of the one handed out, the operations show what
remains, and `__blk_end_request_cur` completes its first segment and tells
whether more remain. -/
structure Contract {κ ρ : Type} (B : BlockLayer κ ρ) where
  /-- No request is out and `rs` are queued. -/
  Queued : κ → List Request → Prop
  /-- `req` is out, `r` remains of it, and `rs` are queued behind it. -/
  Serving : κ → ρ → Request → List Request → Prop
  fetch_nil : ∀ {k}, Queued k [] → (B.blkFetchRequest k).1 = none
  fetch_cons : ∀ {k r rs}, Queued k (r :: rs) →
    ∃ req, (B.blkFetchRequest k).1 = some req ∧ Serving (B.blkFetchRequest k).2 req r rs
  pos_eq : ∀ {k req r rs}, Serving k req r rs → B.blkRqPos k req = r.pos
  dir_eq : ∀ {k req r rs}, Serving k req r rs → B.rqDataDir k req = r.dir
  segments_eq : ∀ {k req r rs}, Serving k req r rs → B.rqForEachSegment k req = r.segments
  end_more : ∀ {k req r rs}, Serving k req r rs → r.completed.segments ≠ [] →
    (B.blkEndRequestCur k req).1 = true ∧ Serving (B.blkEndRequestCur k req).2 req r.completed rs
  end_last : ∀ {k req r rs}, Serving k req r rs → r.completed.segments = [] →
    (B.blkEndRequestCur k req).1 = false ∧ Queued (B.blkEndRequestCur k req).2 rs

/-! ## A queue kept as a list -/

/-- One sector, at an address in memory. -/
def sectorAt (pageAddress : ℕ) : BioVec where
  pageAddress
  bvOffset := 0
  bvLen := 512
  bvLen_pos := by decide
  sector_dvd_bvLen := by decide

/-- A block layer whose state is the request that is out, if any, and those
behind it. -/
def listLayer : BlockLayer (Option Request × List Request) Unit where
  blkFetchRequest
    | (_, []) => (none, (none, []))
    | (_, r :: rs) => (some (), (some r, rs))
  blkRqPos k _ := (k.1.map Request.pos).getD 0
  rqDataDir k _ := (k.1.map Request.dir).getD .read
  rqForEachSegment k _ := (k.1.map Request.segments).getD []
  blkEndRequestCur
    | (none, rs), _ => (false, (none, rs))
    | (some r, rs), _ =>
        match r.completed.segments with
        | [] => (false, (none, rs))
        | _ :: _ => (true, (some r.completed, rs))

/-- It keeps the contract. -/
def listContract : Contract listLayer where
  Queued k rs := k = (none, rs)
  Serving k _ r rs := k = (some r, rs)
  fetch_nil := by
    rintro _ rfl
    rfl
  fetch_cons := by
    rintro _ r rs rfl
    exact ⟨(), rfl, rfl⟩
  pos_eq := by
    rintro _ _ r rs rfl
    rfl
  dir_eq := by
    rintro _ _ r rs rfl
    rfl
  segments_eq := by
    rintro _ _ r rs rfl
    rfl
  end_more := by
    rintro _ _ r rs rfl hmore
    simp only [listLayer]
    split
    · contradiction
    · exact ⟨rfl, rfl⟩
  end_last := by
    rintro _ _ r rs rfl hlast
    simp only [listLayer, hlast]
    exact ⟨trivial, trivial⟩

end Ramdisk

end BlocTest
