import BlocTest.Ramdisk.Read
import BlocTest.Ramdisk.Write
/-!
# Reads and writes in one queue

An ideal device serves a request in one step. The queue function does to the
bytes what the device does, whatever reads and writes are queued and in which
order, so that a read returns what was written last.
-/

namespace BlocTest

namespace Ramdisk

open Prog

variable {κ ρ : Type} {B : BlockLayer κ ρ} {mem disk : ℕ → UInt8} {s t : Store}
variable {r : Request} {rs : List Request} {bv : BioVec} {segments : List BioVec} {addr i : ℕ}

/-! ## The ideal device -/

/-- The disk, the memory, and the bytes of every segment that has been served. -/
structure Device where
  disk : ℕ → UInt8
  mem : ℕ → UInt8
  served : List (BioVec × List UInt8)

namespace Device

/-- The bytes of the disk that belong to a segment at a place. -/
def stretch (d : Device) (p : BioVec × ℕ) : List UInt8 := slice d.disk p.2 p.1.bvLen

/-- A read fills the buffers of its segments from their places. -/
def read (d : Device) (r : Request) : Device where
  disk := d.disk
  mem := overwriteAll (fun p => ramAddr p.1) d.stretch (placed r.start r.segments) d.mem
  served := d.served ++ (placed r.start r.segments).map fun p => (p.1, d.stretch p)

/-- A write puts the data of its segments on the disk, one after the other. -/
def write (d : Device) (r : Request) : Device where
  disk := overwrite d.disk r.start (data d.mem r.segments)
  mem := d.mem
  served := d.served ++ r.segments.map fun bv => (bv, bytes d.mem bv)

def serve (d : Device) (r : Request) : Device :=
  match r.dir with
  | .read => d.read r
  | .write => d.write r

def serveAll (d : Device) (rs : List Request) : Device := rs.foldl serve d

end Device

/-- A request the driver serves as it should: the buffers of a read are apart,
and a write has one segment at most. -/
def Request.Clean (r : Request) : Prop :=
  match r.dir with
  | .read => r.segments.Pairwise BioVec.Apart
  | .write => r.segments.length ≤ 1

/-! ## One request -/

/-- The bytes in the buffer of each completed segment, at the moment. -/
def shown (trace : List Event) : List (BioVec × List UInt8) :=
  (completions trace).map fun c => (c.1, bytes c.2 c.1)

/-- The bytes as the device has them. -/
structure Follows (s : Store) (before : List (BioVec × List UInt8)) (d : Device) : Prop where
  disk : s.disk = d.disk
  mem : s.mem = d.mem
  shown : shown s.trace = before ++ d.served

/-- The segments that have their places are the segments. -/
theorem map_fst_placed (addr : ℕ) (segments : List BioVec) :
    (placed addr segments).map Prod.fst = segments := by
  induction segments generalizing addr with
  | nil => rfl
  | cons bv rest ih => rw [placed, List.map_cons, ih]

/-- The bytes in a buffer that holds its part of the disk. -/
theorem bytes_of_holds (h : Holds mem disk bv addr) : bytes mem bv = slice disk addr bv.bvLen := by
  refine List.ext_getElem? fun o => ?_
  by_cases ho : o < bv.bvLen
  · rw [getElem?_bytes ho, getElem?_slice ho, h o ho]
  · rw [List.getElem?_eq_none (by rw [length_bytes]; omega),
      List.getElem?_eq_none (by rw [length_slice]; omega)]

/-- Filling buffers that are apart. -/
theorem fill_apart (d : Device) (ps : List (BioVec × ℕ)) (mem : ℕ → UInt8)
    (ha : (ps.map Prod.fst).Pairwise BioVec.Apart) :
    (∀ p ∈ ps, Holds (overwriteAll (fun p => ramAddr p.1) d.stretch ps mem) d.disk p.1 p.2) ∧
      SameOff (ps.map Prod.fst) mem (overwriteAll (fun p => ramAddr p.1) d.stretch ps mem) := by
  induction ps generalizing mem with
  | nil => exact ⟨fun _ h => absurd h List.not_mem_nil, fun _ _ => rfl⟩
  | cons p ps ih =>
      rw [List.map_cons] at ha ⊢
      obtain ⟨hfirst, hrest⟩ := List.pairwise_cons.1 ha
      obtain ⟨hholds, hoff⟩ := ih (overwrite mem (ramAddr p.1) (d.stretch p)) hrest
      have hlen : (d.stretch p).length = p.1.bvLen := length_slice
      have hp : Holds (overwrite mem (ramAddr p.1) (d.stretch p)) d.disk p.1 p.2 := by
        intro o ho
        have hwithin : Within (ramAddr p.1) (d.stretch p).length (ramAddr p.1 + o) :=
          ⟨by omega, by omega⟩
        have hget := overwrite_within (d := mem) hwithin
        rw [Nat.add_sub_cancel_left, Device.stretch, getElem?_slice ho] at hget
        exact Option.some.inj hget
      refine ⟨fun q hq => ?_, fun i hi => ?_⟩
      · obtain rfl | hq := List.mem_cons.1 hq
        · exact hp.congr hoff hfirst
        · exact hholds q hq
      · rw [overwriteAll_cons, hoff i fun bv hbv => hi bv (List.mem_cons_of_mem _ hbv)]
        refine overwrite_off ?_
        rw [hlen]
        exact hi p.1 List.mem_cons_self

/-- What is delivered is shown as the bytes of its place. -/
theorem shown_of_delivered {done : List (BioVec × (ℕ → UInt8))} {ps : List (BioVec × ℕ)}
    (h : List.Forall₂ (Delivered disk) done ps) :
    (done.map fun c => (c.1, bytes c.2 c.1)) = ps.map fun p => (p.1, slice disk p.2 p.1.bvLen) := by
  induction h with
  | nil => rfl
  | cons hc _ ih =>
      obtain ⟨hfst, hholds⟩ := hc
      rw [List.map_cons, List.map_cons, ih, hfst, bytes_of_holds hholds]

/-- **A read is the device's read**, since its buffers are apart: no pass
undoes an earlier one. -/
theorem follows_read {before : List (BioVec × List UInt8)} {d : Device} (h : Follows s before d)
    (ha : r.segments.Pairwise BioVec.Apart) :
    Follows (s.serve .read r.pos r.segments) before (d.read r) := by
  have hfilled := filled_serve r.segments s r.pos ha
  obtain ⟨hholds, hoff⟩ := fill_apart d (placed r.start r.segments) d.mem (by rwa [map_fst_placed])
  refine ⟨hfilled.disk.trans h.disk, ?_, ?_⟩
  · funext i
    by_cases hi : ∃ p ∈ placed r.start r.segments, p.1.Has i
    · obtain ⟨p, hp, hle, hlt⟩ := hi
      have hleft := hfilled.holds p hp (i - ramAddr p.1) (by omega)
      have hright := hholds p hp (i - ramAddr p.1) (by omega)
      rw [Nat.add_sub_cancel' hle] at hleft hright
      rw [hleft, h.disk, ← hright]
      rfl
    · have hnone : ∀ bv ∈ r.segments, ¬ bv.Has i := by
        intro bv hbv hhas
        rw [← map_fst_placed r.start r.segments] at hbv
        obtain ⟨p, hp, rfl⟩ := List.mem_map.1 hbv
        exact hi ⟨p, hp, hhas⟩
      rw [hfilled.off i hnone, h.mem]
      exact (hoff i (by rwa [map_fst_placed])).symm
  · obtain ⟨done, hdone, hall⟩ := hfilled.delivered
    rw [shown, hdone, List.map_append, shown_of_delivered hall, ← shown, h.shown, h.disk,
      List.append_assoc]
    rfl

/-- **A write is the device's write**, since a single segment is all that
lands. -/
theorem follows_write {before : List (BioVec × List UInt8)} {d : Device} (h : Follows s before d)
    (hone : r.segments.length ≤ 1) :
    Follows (s.serve .write r.pos r.segments) before (d.write r) := by
  obtain ⟨hdisk, hmem⟩ := disk_serve_write s r.pos r.segments
  match hsegments : r.segments with
  | [] =>
      refine ⟨?_, h.mem, ?_⟩
      · rw [Device.write, hsegments]
        exact h.disk.trans overwrite_nil.symm
      · rw [Device.write, hsegments]
        exact h.shown.trans (congrArg _ (List.append_nil _).symm)
  | [bv] =>
      have hland : landing s.mem [bv] = data s.mem [bv] := by
        show (bytes s.mem bv).take bv.bvLen ++ [] = bytes s.mem bv ++ []
        rw [List.take_of_length_le (Nat.le_of_eq length_bytes)]
      rw [hsegments, hland] at hdisk
      rw [hsegments] at hmem
      refine ⟨?_, hmem.trans h.mem, ?_⟩
      · rw [hdisk, h.disk, h.mem, Device.write, hsegments]
        rfl
      · have htrace : completions (s.serve .write r.pos [bv]).trace =
            completions s.trace ++ [(bv, s.mem)] := by
          rw [← completions_copied s.trace .write (r.pos * sectorSize) bv.bvLen]
          exact completions_concat _ bv s.mem
        rw [shown, htrace, List.map_append, ← shown, h.shown, h.mem, Device.write, hsegments,
          List.append_assoc]
        rfl
  | bv :: bv' :: rest =>
      rw [hsegments] at hone
      simp only [List.length_cons] at hone
      omega

/-- A request, either way. -/
theorem follows_serve {before : List (BioVec × List UInt8)} {d : Device} (h : Follows s before d)
    (hclean : r.Clean) : Follows (s.serve r.dir r.pos r.segments) before (d.serve r) := by
  unfold Request.Clean at hclean
  unfold Device.serve
  cases hdir : r.dir with
  | read =>
      rw [hdir] at hclean
      exact follows_read h hclean
  | write =>
      rw [hdir] at hclean
      exact follows_write h hclean

/-- A queue, request by request. -/
theorem follows_serveAll {before : List (BioVec × List UInt8)} {d : Device}
    (h : Follows s before d) (hclean : ∀ r ∈ rs, r.Clean) :
    Follows (s.serveAll rs) before (d.serveAll rs) := by
  induction rs generalizing s d with
  | nil => exact h
  | cons r rs ih =>
      have hr := follows_serve h (hclean r List.mem_cons_self)
      exact ih hr fun r' hr' => hclean r' (List.mem_cons_of_mem r hr')

/-- The device as the driver finds it. -/
def Store.device (s : Store) : Device := ⟨s.disk, s.mem, []⟩

theorem follows_start (s : Store) : Follows s (shown s.trace) s.device :=
  ⟨rfl, rfl, (List.append_nil _).symm⟩

/-- **The driver is a device.** For any queue of reads and writes inside the
disk, the buffers of a read apart and no write of more than one segment, the
queue function returns, and the disk, the memory and the bytes each segment
had when it was completed are those of the ideal device. -/
theorem ramdiskQueueFunc_refines (C : Contract B) (m : Machine κ) (rs : List Request) (fuel : ℕ)
    (hq : C.Queued m.kernel rs) (hin : ∀ r ∈ rs, r.Inside) (hclean : ∀ r ∈ rs, r.Clean)
    (hf : rounds rs < fuel) :
    ∃ m', ramdiskQueueFunc B fuel m = .ok ((), m') ∧
      m'.store.disk = (m.store.device.serveAll rs).disk ∧
      m'.store.mem = (m.store.device.serveAll rs).mem ∧
      shown m'.store.trace = shown m.store.trace ++ (m.store.device.serveAll rs).served := by
  obtain ⟨_, m', hrun, hstore⟩ := wp_ramdiskQueueFunc C hq hin hf
  have hfollows := follows_serveAll (follows_start m.store) hclean
  rw [← hstore] at hfollows
  exact ⟨m', hrun, hfollows.disk, hfollows.mem, hfollows.shown⟩

/-- A sector to be written from the first page and read back into the next. -/
def thereAndBack : List Request := [⟨0, .write, [sectorAt 0]⟩, ⟨0, .read, [sectorAt 4096]⟩]

/-- An empty disk, and the two requests queued. -/
def onesOnly : Machine (Option Request × List Request) where
  store := { disk := fun _ => 0, mem := fun i => if i < 512 then 1 else 0, trace := [] }
  kernel := (none, thereAndBack)

theorem thereAndBack_clean : ∀ r ∈ thereAndBack, r.Clean := by
  intro r hr
  obtain rfl | hr := List.mem_cons.1 hr
  · exact Nat.le_refl 1
  · rw [List.mem_singleton.1 hr]
    exact List.pairwise_singleton _ _

/-- A sector written and read back elsewhere. -/
theorem ramdiskQueueFunc_refines_thereAndBack :
    ∃ m', ramdiskQueueFunc listLayer 5 onesOnly = .ok ((), m') ∧
      m'.store.disk = (onesOnly.store.device.serveAll thereAndBack).disk ∧
      m'.store.mem = (onesOnly.store.device.serveAll thereAndBack).mem ∧
      shown m'.store.trace =
        shown onesOnly.store.trace ++ (onesOnly.store.device.serveAll thereAndBack).served :=
  ramdiskQueueFunc_refines listContract onesOnly thereAndBack 5 rfl (by decide) thereAndBack_clean
    (by decide)

/-! ## Reading back -/

namespace Device

variable {d : Device}

/-- Two queues one after the other. -/
theorem serveAll_append (rs rs' : List Request) :
    d.serveAll (rs ++ rs') = (d.serveAll rs).serveAll rs' := List.foldl_append

/-- Memory that no read goes to is kept. -/
theorem mem_serveAll (h : ∀ r ∈ rs, r.dir = .read → ∀ bv ∈ r.segments, ¬ bv.Has i) :
    (d.serveAll rs).mem i = d.mem i := by
  induction rs generalizing d with
  | nil => rfl
  | cons r rs ih =>
      refine (ih fun r' hr' => h r' (List.mem_cons_of_mem r hr')).trans ?_
      unfold serve
      cases hdir : r.dir with
      | write => rfl
      | read =>
          refine overwriteAll_uncovered fun p hp => ?_
          rw [stretch, length_slice]
          exact h r List.mem_cons_self hdir p.1 (fst_mem_of_mem_placed hp)

/-- A byte of the disk that no write goes over is kept. -/
theorem disk_serveAll (h : ∀ r ∈ rs, r.dir = .write → ¬ Within r.start (totalLen r.segments) i) :
    (d.serveAll rs).disk i = d.disk i := by
  induction rs generalizing d with
  | nil => rfl
  | cons r rs ih =>
      refine (ih fun r' hr' => h r' (List.mem_cons_of_mem r hr')).trans ?_
      unfold serve
      cases hdir : r.dir with
      | read => rfl
      | write =>
          refine overwrite_off ?_
          rw [length_data]
          exact h r List.mem_cons_self hdir

/-- One request is served by as many entries as it has segments. -/
theorem served_serve (d : Device) (r : Request) :
    ∃ more, (d.serve r).served = d.served ++ more ∧ more.length = r.segments.length := by
  unfold serve
  cases hdir : r.dir with
  | read =>
      refine ⟨_, rfl, ?_⟩
      have hfst := congrArg List.length (map_fst_placed r.start r.segments)
      rwa [List.length_map] at hfst ⊢
  | write => exact ⟨_, rfl, List.length_map _⟩

/-- What has been served stays served, and a queue adds an entry for each of
its segments. -/
theorem served_serveAll (d : Device) (rs : List Request) :
    ∃ more, (d.serveAll rs).served = d.served ++ more ∧
      more.length = (rs.flatMap Request.segments).length := by
  induction rs generalizing d with
  | nil => exact ⟨[], (List.append_nil _).symm, rfl⟩
  | cons r rs ih =>
      obtain ⟨more, hmore, hlen⟩ := served_serve d r
      obtain ⟨more', hmore', hlen'⟩ := ih (d.serve r)
      refine ⟨more ++ more', hmore'.trans (by rw [hmore, List.append_assoc]), ?_⟩
      rw [List.length_append, hlen, hlen', List.flatMap_cons, List.length_append]

/-- The entry of one segment of a read, in the middle of a queue. -/
theorem served_read (d : Device) (before after : List Request) {p : BioVec × ℕ} {j : ℕ} (hr : r.dir = .read)
    (hp : (placed r.start r.segments)[j]? = some p) :
    (d.serveAll (before ++ r :: after)).served[d.served.length +
        (before.flatMap Request.segments).length + j]? =
      some (p.1, (d.serveAll before).stretch p) := by
  obtain ⟨more, hmore, hlen⟩ := served_serveAll d before
  obtain ⟨more', hmore', -⟩ := served_serveAll ((d.serveAll before).serve r) after
  have hserve : ((d.serveAll before).serve r).served = (d.served ++ more) ++
      (placed r.start r.segments).map fun q => (q.1, (d.serveAll before).stretch q) := by
    unfold serve
    rw [hr, ← hmore]
    rfl
  have hall : (d.serveAll (before ++ r :: after)).served =
      (((d.serveAll before).serve r).serveAll after).served := by
    rw [serveAll_append]
    rfl
  have hjlt : j < (placed r.start r.segments).length := (List.getElem?_eq_some_iff.1 hp).1
  rw [hall, hmore', hserve, ← hlen, ← List.length_append,
    List.getElem?_append_left (by simp only [List.length_append, List.length_map]; omega),
    List.getElem?_append_right (Nat.le_add_right _ _), Nat.add_sub_cancel_left, List.getElem?_map,
    hp]
  rfl

/-- What a write of one segment puts on the disk. -/
theorem disk_serve_one {w : Request} {src : BioVec} {o : ℕ} (hw : w.dir = .write)
    (hsrc : w.segments = [src]) (ho : o < src.bvLen) :
    (d.serve w).disk (w.start + o) = d.mem (ramAddr src + o) := by
  have hwithin : Within w.start (data d.mem [src]).length (w.start + o) := by
    rw [length_data]
    exact ⟨Nat.le_add_right _ _, Nat.add_lt_add_left ho _⟩
  have hget := overwrite_within (d := d.disk) hwithin
  have hdata := getElem?_data d.mem [] [] ho
  rw [List.nil_append, totalLen_nil, Nat.zero_add] at hdata
  rw [Nat.add_sub_cancel_left] at hget
  unfold serve
  rw [hw]
  show overwrite d.disk w.start (data d.mem w.segments) (w.start + o) = _
  rw [hsrc]
  exact Option.some.inj (hget.trans hdata)

/-- What a read puts in memory. -/
theorem mem_serve_read {dst : BioVec} {k : ℕ} (hr : r.dir = .read) (hclean : r.Clean)
    (hdst : (dst, addr) ∈ placed r.start r.segments) (hk : k < dst.bvLen) :
    (d.serve r).mem (ramAddr dst + k) = d.disk (addr + k) := by
  unfold Request.Clean at hclean
  rw [hr] at hclean
  obtain ⟨hholds, -⟩ := fill_apart d (placed r.start r.segments) d.mem (by rwa [map_fst_placed])
  unfold serve
  rw [hr]
  exact hholds (dst, addr) hdst k hk

end Device

/-- **A read returns what was written last**, wherever it stands in the
queue. The byte that the read delivers, in the buffer of its segment when that
segment is completed, is the one the last write over its place took from
memory, if no read before that write changed it there; and it is still in the
buffer at the end if no later read goes over it. -/
theorem ramdiskQueueFunc_readBack (C : Contract B) (m : Machine κ)
    (before between after : List Request) (w r : Request) (fuel : ℕ)
    (hq : C.Queued m.kernel (before ++ w :: (between ++ r :: after)))
    (hin : ∀ r' ∈ before ++ w :: (between ++ r :: after), r'.Inside)
    (hclean : ∀ r' ∈ before ++ w :: (between ++ r :: after), r'.Clean)
    (hf : rounds (before ++ w :: (between ++ r :: after)) < fuel)
    (src dst : BioVec) (addr j o k : ℕ)
    (hw : w.dir = .write) (hsrc : w.segments = [src]) (hr : r.dir = .read)
    (hdst : (placed r.start r.segments)[j]? = some (dst, addr))
    (ho : o < src.bvLen) (hk : k < dst.bvLen) (hsame : addr + k = w.start + o)
    (hbefore : ∀ r' ∈ before, r'.dir = .read → ∀ bv ∈ r'.segments, ¬ bv.Has (ramAddr src + o))
    (hbetween : ∀ r' ∈ between, r'.dir = .write →
      ¬ Within r'.start (totalLen r'.segments) (addr + k)) :
    ∃ m' delivered, ramdiskQueueFunc B fuel m = .ok ((), m') ∧
      (shown m'.store.trace)[(shown m.store.trace).length +
          ((before ++ w :: between).flatMap Request.segments).length + j]? =
        some (dst, delivered) ∧
      delivered[k]? = some (m.store.mem (ramAddr src + o)) ∧
      ((∀ r' ∈ after, r'.dir = .read → ∀ bv ∈ r'.segments, ¬ bv.Has (ramAddr dst + k)) →
        m'.store.mem (ramAddr dst + k) = m.store.mem (ramAddr src + o)) := by
  obtain ⟨_, m', hrun, hstore⟩ := wp_ramdiskQueueFunc C hq hin hf
  have hfollows := follows_serveAll (follows_start m.store) hclean
  rw [← hstore] at hfollows
  -- the device when the write is served, and when the read is
  set d₁ := m.store.device.serveAll before
  set d₂ := (d₁.serve w).serveAll between
  have hsplit : before ++ w :: (between ++ r :: after) = (before ++ w :: between) ++ r :: after := by
    rw [List.append_assoc, List.cons_append]
  have hd₂ : m.store.device.serveAll (before ++ w :: between) = d₂ := by
    rw [Device.serveAll_append]
    rfl
  have hlast : d₂.disk (addr + k) = m.store.mem (ramAddr src + o) :=
    calc d₂.disk (addr + k)
        = (d₁.serve w).disk (addr + k) := Device.disk_serveAll hbetween
      _ = d₁.mem (ramAddr src + o) := by rw [hsame, Device.disk_serve_one hw hsrc ho]
      _ = m.store.mem (ramAddr src + o) := Device.mem_serveAll hbefore
  refine ⟨m', d₂.stretch (dst, addr), hrun, ?_, ?_, fun hafter => ?_⟩
  · have hentry := Device.served_read m.store.device (before ++ w :: between) after hr hdst
    rw [hd₂] at hentry
    rw [hfollows.shown, hsplit, Nat.add_assoc, List.getElem?_append_right (Nat.le_add_right _ _),
      Nat.add_sub_cancel_left, ← hentry]
    exact congrArg (fun i => _[i]?) (by rw [Store.device, List.length_nil, Nat.zero_add])
  · rw [Device.stretch, getElem?_slice hk, hlast]
  · have hall : m.store.device.serveAll (before ++ w :: (between ++ r :: after)) =
        (d₂.serve r).serveAll after := by
      rw [hsplit, Device.serveAll_append, hd₂]
      rfl
    calc m'.store.mem (ramAddr dst + k)
        = ((d₂.serve r).serveAll after).mem (ramAddr dst + k) := by rw [hfollows.mem, hall]
      _ = (d₂.serve r).mem (ramAddr dst + k) := Device.mem_serveAll hafter
      _ = d₂.disk (addr + k) :=
          Device.mem_serve_read hr (hclean r (by simp)) (List.mem_of_getElem? hdst) hk
      _ = m.store.mem (ramAddr src + o) := hlast

/-- The write and the read, and then a write that takes the sector's place. -/
def thereAndAway : List Request := thereAndBack ++ [⟨0, .write, [sectorAt 8192]⟩]

theorem thereAndAway_clean : ∀ r ∈ thereAndAway, r.Clean := by
  intro r hr
  obtain hr | hr := List.mem_append.1 hr
  · exact thereAndBack_clean r hr
  · rw [List.mem_singleton.1 hr]
    exact Nat.le_refl 1

/-- Byte 7 of the read, which is not the last request. -/
theorem ramdiskQueueFunc_readBack_thereAndAway :
    ∃ m' delivered, ramdiskQueueFunc listLayer 7 { onesOnly with kernel := (none, thereAndAway) } =
        .ok ((), m') ∧
      (shown m'.store.trace)[1]? = some (sectorAt 4096, delivered) ∧
      delivered[7]? = some (onesOnly.store.mem (0 + 7)) ∧
      m'.store.mem (4096 + 7) = onesOnly.store.mem (0 + 7) := by
  obtain ⟨m', delivered, hrun, hentry, hbyte, hend⟩ :=
    ramdiskQueueFunc_readBack listContract { onesOnly with kernel := (none, thereAndAway) } [] []
      [⟨0, .write, [sectorAt 8192]⟩] _ _ 7 rfl (by decide) thereAndAway_clean (by decide)
      (sectorAt 0) (sectorAt 4096) 0 0 7 7 rfl rfl rfl rfl (by decide) (by decide) rfl
      (fun _ h => absurd h List.not_mem_nil) (fun _ h => absurd h List.not_mem_nil)
  refine ⟨m', delivered, hrun, hentry, hbyte, hend fun r' hr' hread => ?_⟩
  rw [List.mem_singleton.1 hr'] at hread
  cases hread

end Ramdisk

end BlocTest
