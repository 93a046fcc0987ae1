import BlocTest.Ramdisk.Write
import BlocTest.Ramdisk.Read
import Mathlib.Data.List.Forall2
/-!
# The copies stay inside their requests

A later segment is copied at an address that is not its own. It stays inside
the request all the same: the address is that of the first segment that
remains, and no segment is longer than all that remain together. So every
copy of a request lies in the request's own range, and the disk changes only
in the ranges of the writes. Which request a copy was executed for is read
off the completions: it is the one whose segment is completed next.
-/

namespace BlocTest

namespace Ramdisk

open Prog

variable {κ ρ : Type} {B : BlockLayer κ ρ} {dir : Dir} {a n a' n' i pos : ℕ}
variable {bv : BioVec} {segments done done' : List BioVec} {s t u : Store}
variable {log log' rest rest' : List Event} {r : Request} {rs : List Request}

/-! ## Logs of copies -/

/-- The copies of a log are all in the direction `dir` and between memory
and some of the `n` bytes of the disk from `a` on. -/
def Copies (dir : Dir) (a n : ℕ) (log : List Event) : Prop :=
  ∀ d addr len, .copied d addr len ∈ log → d = dir ∧ a ≤ addr ∧ addr + len ≤ a + n

theorem Copies.append (h : Copies dir a n log) (h' : Copies dir a n log') :
    Copies dir a n (log ++ log') := by
  intro d addr len hmem
  rcases List.mem_append.1 hmem with hmem | hmem
  · exact h d addr len hmem
  · exact h' d addr len hmem

/-- Copies in a stretch are in any that holds it. -/
theorem Copies.mono (h : Copies dir a n log) (hle : a' ≤ a) (hend : a + n ≤ a' + n') :
    Copies dir a' n' log := by
  intro d addr len hmem
  obtain ⟨hd, haddr, hlen⟩ := h d addr len hmem
  exact ⟨hd, by omega, by omega⟩

/-- The segments whose completions are in a log. -/
def completedIn (log : List Event) : List BioVec := (completions log).map Prod.fst

/-- What is completed in two logs, in order. -/
theorem completedIn_append (log log' : List Event) :
    completedIn (log ++ log') = completedIn log ++ completedIn log' := by
  rw [completedIn, completions, List.filterMap_append, List.map_append]
  rfl

/-- A log that ends with a completion, if it does not end at once. -/
def Closed (log : List Event) : Prop :=
  log = [] ∨ ∃ log' bv mem, log = log' ++ [.completed bv mem]

/-- Two closed logs are one. -/
theorem Closed.append (h : Closed log) (h' : Closed log') : Closed (log ++ log') := by
  obtain rfl | ⟨log₁, bv, mem, rfl⟩ := h'
  · rwa [List.append_nil]
  · exact Or.inr ⟨log ++ log₁, bv, mem, (List.append_assoc _ _ _).symm⟩

/-- What follows a closed log up to the next end of one has a completion. -/
theorem Closed.eq_nil (h : Closed (log ++ rest)) (hnone : completedIn rest = []) : rest = [] := by
  obtain hnil | ⟨log', bv, mem, hlast⟩ := h
  · exact (List.append_eq_nil_iff.1 hnil).2
  · by_contra hne
    obtain ⟨rest', e, rfl⟩ := (List.eq_nil_or_concat rest).resolve_left hne
    rw [List.concat_eq_append] at hlast hnone
    obtain ⟨-, he⟩ := List.append_inj' ((List.append_assoc _ _ _).trans hlast) rfl
    rw [he, completedIn_append] at hnone
    exact absurd (List.append_eq_nil_iff.1 hnone).2 (List.cons_ne_nil bv [])

/-! ## What a part of a request leaves alone -/

/-- From `s` to `t` what `log` says has happened: nothing has been copied but
in the direction `dir` between memory and the `n` bytes of the disk from `a`
on, the segments `done` have been completed, and no other byte of the disk has
changed. -/
structure Stays (dir : Dir) (a n : ℕ) (s t : Store) (log : List Event) (done : List BioVec) :
    Prop where
  trace : t.trace = s.trace ++ log
  copies : Copies dir a n log
  completed : completedIn log = done
  disk : ∀ i, (dir = .write → ¬ Within a n i) → t.disk i = s.disk i

theorem Stays.refl (dir : Dir) (a n : ℕ) (s : Store) : Stays dir a n s s [] [] :=
  ⟨(List.append_nil _).symm, fun _ _ _ hmem => absurd hmem List.not_mem_nil, rfl, fun _ _ => rfl⟩

/-- One part after another. -/
theorem Stays.trans (h : Stays dir a n s t log done) (h' : Stays dir a n t u log' done') :
    Stays dir a n s u (log ++ log') (done ++ done') where
  trace := by rw [h'.trace, h.trace, List.append_assoc]
  copies := h.copies.append h'.copies
  completed := by rw [completedIn_append, h.completed, h'.completed]
  disk := fun i hi => by rw [h'.disk i hi, h.disk i hi]

/-- What stays in a stretch stays in any that holds it. -/
theorem Stays.mono (h : Stays dir a n s t log done) (hle : a' ≤ a) (hend : a + n ≤ a' + n') :
    Stays dir a' n' s t log done where
  trace := h.trace
  copies := h.copies.mono hle hend
  completed := h.completed
  disk := fun i hi => h.disk i fun hw hwithin => by
    obtain ⟨hlo, hhi⟩ := hwithin
    exact hi hw ⟨by omega, by omega⟩

/-- One segment, copied to the start of a stretch it fits in. -/
theorem stays_copy (dir : Dir) (s : Store) (h : bv.bvLen ≤ n) :
    Stays dir a n s (s.copy dir a bv) [.copied dir a bv.bvLen] [] := by
  have hcopies : Copies dir a n [.copied dir a bv.bvLen] := by
    intro d addr len hmem
    obtain ⟨rfl, rfl, rfl⟩ := Event.copied.inj (List.mem_singleton.1 hmem)
    exact ⟨rfl, Nat.le_refl _, by omega⟩
  cases dir with
  | read => exact ⟨rfl, hcopies, rfl, fun _ _ => rfl⟩
  | write =>
      refine ⟨rfl, hcopies, rfl, fun i hi => overwrite_off fun hwithin => hi rfl ?_⟩
      rw [length_slice] at hwithin
      obtain ⟨hlo, hhi⟩ := hwithin
      exact ⟨hlo, by omega⟩

/-- **A pass** copies every segment to one address, and the longest of them
decides how far. It completes none. -/
theorem stays_pass (dir : Dir) (s : Store) (h : ∀ bv ∈ segments, bv.bvLen ≤ n) :
    ∃ log, Stays dir a n s (s.pass dir a segments) log [] := by
  induction segments generalizing s with
  | nil => exact ⟨[], Stays.refl dir a n s⟩
  | cons bv rest ih =>
      rw [List.forall_mem_cons] at h
      obtain ⟨log, hlog⟩ := ih (s.copy dir a bv) h.2
      rw [pass_cons]
      exact ⟨_, (stays_copy dir s h.1).trans hlog⟩

/-- A completion copies nothing. -/
theorem stays_complete (dir : Dir) (s : Store) (bv : BioVec) :
    Stays dir a n s (s.complete (some bv)) [.completed bv s.mem] [bv] := by
  refine ⟨rfl, fun d addr len hmem => ?_, rfl, fun _ _ => rfl⟩
  cases List.mem_singleton.1 hmem

/-- **A request** stays inside its own range: each pass starts where the
segments before it end, and no segment is longer than what remains. Its
segments are completed in order, the last of them last. -/
theorem stays_serve (dir : Dir) (s : Store) (pos : ℕ) (segments : List BioVec) :
    ∃ log, Stays dir (pos * sectorSize) (totalLen segments) s (s.serve dir pos segments) log
      segments ∧ Closed log := by
  induction segments generalizing s pos with
  | nil => exact ⟨[], Stays.refl _ _ _ s, Or.inl rfl⟩
  | cons bv rest ih =>
      have hle : ∀ b ∈ bv :: rest, b.bvLen ≤ totalLen (bv :: rest) := fun b => le_totalLen
      obtain ⟨log, hpass⟩ := stays_pass (a := pos * sectorSize) dir s hle
      have hround := hpass.trans (stays_complete dir _ bv)
      obtain ⟨log', hrest, hclosed⟩ :=
        ih ((s.pass dir (pos * sectorSize) (bv :: rest)).complete (some bv))
          (pos + bv.bvLen / sectorSize)
      rw [pos_completed] at hrest
      refine ⟨_, hround.trans (hrest.mono (Nat.le_add_right _ _) ?_), ?_⟩
      · rw [totalLen_cons, Nat.add_assoc]
      · exact Closed.append (Or.inr ⟨log, bv, _, rfl⟩) hclosed

/-! ## A whole queue -/

/-- **The log of a request**: its segments are completed in it, each once and
in order, it ends with the last of these completions, and its copies lie in
the request's range. -/
structure Request.Logs (r : Request) (log : List Event) : Prop where
  completed : completedIn log = r.segments
  closed : Closed log
  copies : ∀ dir addr len, .copied dir addr len ∈ log →
    dir = r.dir ∧ r.start ≤ addr ∧ addr + len ≤ r.start + totalLen r.segments

/-- **Where the log of a request ends** is decided by its segments: of two
closed logs at the start of a trace with as many completions, each is the
other. -/
theorem closed_unique (hclosed : Closed log) (hclosed' : Closed log')
    (hdone : completedIn log = completedIn log') (happ : log ++ rest = log' ++ rest') :
    log = log' := by
  obtain ⟨mid, hlog, -⟩ | ⟨mid, hlog, -⟩ := List.append_eq_append_iff.1 happ
  · rw [hlog, completedIn_append, List.self_eq_append_right] at hdone
    rw [hlog] at hclosed'
    rw [hlog, hclosed'.eq_nil hdone, List.append_nil]
  · rw [hlog, completedIn_append, List.append_right_eq_self] at hdone
    rw [hlog] at hclosed
    rw [hlog, hclosed.eq_nil hdone, List.append_nil]

/-- A trace is cut into the logs of requests in one way. -/
theorem logs_unique {logs logs' : List (List Event)} (h : List.Forall₂ Request.Logs rs logs)
    (h' : List.Forall₂ (fun r log => completedIn log = r.segments ∧ Closed log) rs logs')
    (hflat : logs'.flatten = logs.flatten) : logs' = logs := by
  induction h generalizing logs' with
  | nil =>
      cases h'
      rfl
  | cons hlog _ ih =>
      cases h' with
      | cons hlog' hrest' =>
          rw [List.flatten_cons, List.flatten_cons] at hflat
          have heq := closed_unique hlog'.2 hlog.closed (hlog'.1.trans hlog.completed.symm) hflat
          subst heq
          rw [ih hrest' (List.append_cancel_left hflat)]

/-- Position `i` of the disk is in the range of no write. -/
def Unwritten (rs : List Request) (i : ℕ) : Prop :=
  ∀ r ∈ rs, r.dir = .write → ¬ Within r.start (totalLen r.segments) i

/-- **Serving a queue** leaves one log for each request. -/
theorem logs_serveAll (rs : List Request) (s : Store) :
    (∃ logs, (s.serveAll rs).trace = s.trace ++ logs.flatten ∧
      List.Forall₂ Request.Logs rs logs) ∧
    ∀ i, Unwritten rs i → (s.serveAll rs).disk i = s.disk i := by
  induction rs generalizing s with
  | nil => exact ⟨⟨[], (List.append_nil _).symm, .nil⟩, fun _ _ => rfl⟩
  | cons r rs ih =>
      obtain ⟨log, hlog, hclosed⟩ := stays_serve r.dir s r.pos r.segments
      obtain ⟨⟨logs, hlogs, hall⟩, hdisks⟩ := ih (s.serve r.dir r.pos r.segments)
      rw [serveAll_cons]
      refine ⟨⟨log :: logs, ?_, .cons ⟨hlog.completed, hclosed, hlog.copies⟩ hall⟩, fun i hi => ?_⟩
      · rw [hlogs, hlog.trace, List.flatten_cons, List.append_assoc]
      · obtain ⟨hr, hrs⟩ := List.forall_mem_cons.1 hi
        rw [hdisks i hrs, hlog.disk i hr]

/-- Every copy belongs to a request, and lies in its range. -/
theorem exists_request {logs : List (List Event)} {addr len : ℕ}
    (hall : List.Forall₂ Request.Logs rs logs) (hmem : .copied dir addr len ∈ logs.flatten) :
    ∃ r ∈ rs, dir = r.dir ∧ r.start ≤ addr ∧ addr + len ≤ r.start + totalLen r.segments := by
  induction hall with
  | nil => cases hmem
  | cons hlog _ ih =>
      rcases List.mem_append.1 hmem with hmem | hmem
      · exact ⟨_, List.mem_cons_self, hlog.copies dir addr len hmem⟩
      · obtain ⟨r, hr, hrange⟩ := ih hmem
        exact ⟨r, List.mem_cons_of_mem _ hr, hrange⟩

/-- **The RAM disk stays in bounds.** For any queue of reads and writes
inside the disk the queue function returns. What has happened is the log of
the first request, then that of the second, and so on, and no other cut of it
has the completions of each request in its log, and the last of them at the
end; every copy lies in the range of the request in whose log it is, and so
inside the disk; and a byte outside the ranges of the writes has never been
copied to and is as it was. -/
theorem ramdiskQueueFunc_bounds (C : Contract B) (m : Machine κ) (rs : List Request) (fuel : ℕ)
    (hq : C.Queued m.kernel rs) (hin : ∀ r ∈ rs, r.Inside) (hf : rounds rs < fuel) :
    ∃ m' logs, ramdiskQueueFunc B fuel m = .ok ((), m') ∧
      m'.store.trace = m.store.trace ++ logs.flatten ∧
      List.Forall₂ Request.Logs rs logs ∧
      (∀ logs' : List (List Event), logs'.flatten = logs.flatten →
        List.Forall₂ (fun r log => completedIn log = r.segments ∧ Closed log) rs logs' →
        logs' = logs) ∧
      (∀ dir addr len, .copied dir addr len ∈ logs.flatten → addr + len ≤ ramSize) ∧
      ∀ i, (∀ r ∈ rs, r.dir = .write → ¬ Within r.start (totalLen r.segments) i) →
        (∀ addr len, .copied .write addr len ∈ logs.flatten → ¬ Within addr len i) ∧
          m'.store.disk i = m.store.disk i := by
  obtain ⟨_, m', hrun, hstore⟩ := wp_ramdiskQueueFunc C hq hin hf
  obtain ⟨⟨logs, hlogs, hall⟩, hdisk⟩ := logs_serveAll rs m.store
  rw [← hstore] at hlogs hdisk
  refine ⟨m', logs, hrun, hlogs, hall, fun logs' hflat h' => logs_unique hall h' hflat,
    fun dir addr len hmem => ?_, fun i hi => ⟨?_, hdisk i hi⟩⟩
  · obtain ⟨r, hr, -, -, hend⟩ := exists_request hall hmem
    exact Nat.le_trans hend (hin r hr).bytes
  · intro addr len hmem hwithin
    obtain ⟨r, hr, hdir, hstart, hend⟩ := exists_request hall hmem
    obtain ⟨hlo, hhi⟩ := hwithin
    exact hi r hr hdir.symm ⟨by omega, by omega⟩

/-- A write and then a read. -/
theorem ramdiskQueueFunc_bounds_mixed :
    ∃ m' logs, ramdiskQueueFunc listLayer 7
        { onesAndTwos with kernel := (none, [twoSectors, twoPages]) } = .ok ((), m') ∧
      m'.store.trace = onesAndTwos.store.trace ++ logs.flatten ∧
      List.Forall₂ Request.Logs [twoSectors, twoPages] logs ∧
      (∀ logs' : List (List Event), logs'.flatten = logs.flatten →
        List.Forall₂ (fun r log => completedIn log = r.segments ∧ Closed log)
          [twoSectors, twoPages] logs' →
        logs' = logs) ∧
      (∀ dir addr len, .copied dir addr len ∈ logs.flatten → addr + len ≤ ramSize) ∧
      ∀ i, (∀ r ∈ [twoSectors, twoPages],
          r.dir = .write → ¬ Within r.start (totalLen r.segments) i) →
        (∀ addr len, .copied .write addr len ∈ logs.flatten → ¬ Within addr len i) ∧
          m'.store.disk i = onesAndTwos.store.disk i :=
  ramdiskQueueFunc_bounds listContract { onesAndTwos with kernel := (none, [twoSectors, twoPages]) }
    [twoSectors, twoPages] 7 rfl (by decide) (by decide)

end Ramdisk

end BlocTest
