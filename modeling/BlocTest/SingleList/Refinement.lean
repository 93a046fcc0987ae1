import BlocTest.SingleList.Helpers.List
import BlocTest.SingleList.Model.Session
/-!
# The list refines a sequence

Whatever calls are made on a fresh list, its methods answer what the same
calls on a plain sequence of pairs answer, and the chain they leave spells
that sequence. `wp_callOp_tells` is one call on a list whose count may say
anything of its pairs; `callOp_refines` is that call where the count is right,
and a run is an induction over it.
-/

namespace BlocTest

namespace SingleList

open Prog

variable {ι ν : Type} [DecidableEq ι]
variable {h₀ : Heap (ListNode ι ν)} {w : World ι ν} {ps : List (ι × ν)} {t : Tally ι ν}

/-- The list represents the pairs of the tally, and `list_len` is its count. -/
def Tells (h₀ : Heap (ListNode ι ν)) (w : World ι ν) (t : Tally ι ν) : Prop :=
  Rep h₀ w t.pairs ∧ w.list.listLen = t.len

/-- The list represents `ps` and counts it, modulo `2 ^ 32`. -/
def Counted (h₀ : Heap (ListNode ι ν)) (w : World ι ν) (ps : List (ι × ν)) : Prop :=
  Rep h₀ w ps ∧ w.list.listLen = UInt32.ofNat ps.length

/-! ## One call -/

/-- **One call does what the tally does**, whatever the count says of the
pairs. -/
theorem wp_callOp_tells {fuel : ℕ} (hT : Tells h₀ w t) (hf : t.pairs.length < fuel)
    (op : Op ι ν) :
    wp (callOp fuel op) (fun out w' => out = (t.call op).1 ∧ Tells h₀ w' (t.call op).2) w := by
  obtain ⟨hR, hlen⟩ := hT
  cases op with
  | addNode index value =>
      simp only [callOp, wp_bind, wp_pure]
      refine wp_mono (wp_addNode hR hf index value) ?_
      rintro r w' ⟨rfl, hR', hlen'⟩
      exact ⟨rfl, hR', by rw [hlen', hlen]; rfl⟩
  | deleteNode index =>
      simp only [callOp, wp_bind, wp_pure]
      refine wp_mono (wp_deleteNode hR hf index) fun r w' hD => ?_
      unfold Deleted at hD
      simp only [Tally.call, seqStep]
      split at hD
      · next hany =>
        obtain ⟨rfl, hR', hlen'⟩ := hD
        rw [if_pos hany, if_pos hany]
        exact ⟨rfl, hR', by rw [hlen', hlen]⟩
      · next hany =>
        obtain ⟨rfl, rfl⟩ := hD
        rw [if_neg hany, if_neg hany]
        exact ⟨rfl, hR, hlen⟩
  | findNode index =>
      simp only [callOp, wp_bind]
      refine wp_mono (wp_findNode hR hf index) ?_
      rintro r w ⟨rfl, hr, hnone⟩
      have hcall : t.call (.findNode index) =
          (.found (t.pairs.find? fun e => decide (e.1 = index)), t) := rfl
      rw [hcall]
      cases r with
      | none =>
          rw [hnone.1 rfl]
          exact wp_pure.2 ⟨rfl, hR, hlen⟩
      | some a =>
          rw [← hr, Option.bind_some]
          obtain ⟨n, hn⟩ : ∃ n, w.nodes.cell a = some n := by
            cases hc : w.nodes.cell a with
            | some n => exact ⟨n, rfl⟩
            | none => simp [← hr, entry, hc] at hnone
          simp only [wp_bind, wp_onNodes, Heap.wp_read hn, wp_pure, entry_eq hn]
          exact ⟨trivial, hR, hlen⟩
  | getListLen =>
      simp only [callOp, wp_bind, wp_pure]
      refine wp_mono wp_getListLen ?_
      rintro r _ ⟨rfl, rfl⟩
      exact ⟨by rw [hlen]; rfl, hR, hlen⟩
  | printAllNode =>
      simp only [callOp, wp_bind, wp_pure]
      refine wp_mono (wp_printAllNode hR hf) ?_
      rintro r _ ⟨rfl, rfl⟩
      exact ⟨rfl, hR, hlen⟩

omit [DecidableEq ι] in
/-- Counting on wraps as the count does. -/
theorem ofNat_succ (k : ℕ) : UInt32.ofNat (k + 1) = UInt32.ofNat k + 1 := by
  simp [UInt32.ofNat_add]

/-- A tally that counts its pairs still does after a call, and answers what
the sequence answers. -/
theorem Tally.call_counted (ps : List (ι × ν)) (op : Op ι ν) :
    Tally.call ⟨ps, UInt32.ofNat ps.length⟩ op =
      ((seqStep ps op).1, ⟨(seqStep ps op).2, UInt32.ofNat (seqStep ps op).2.length⟩) := by
  cases op with
  | addNode index value =>
      simp only [Tally.call, seqStep]
      rw [List.length_append, List.length_singleton, ofNat_succ]
  | deleteNode index =>
      simp only [Tally.call, seqStep]
      split
      · next hany =>
        obtain ⟨e, he, hi⟩ := List.any_eq_true.1 hany
        have hpos : 0 < ps.length := List.length_pos_of_mem he
        obtain ⟨k, hk⟩ : ∃ k, ps.length = k + 1 := ⟨ps.length - 1, by omega⟩
        rw [List.length_eraseP_of_mem he hi, hk, ofNat_succ, Nat.add_sub_cancel]
        simp
      · rfl
  | findNode index => rfl
  | getListLen => rfl
  | printAllNode => rfl

/-- **One call refines one step of the sequence.** -/
theorem callOp_refines (hC : Counted h₀ w ps) {fuel : ℕ} (hf : ps.length < fuel) (op : Op ι ν) :
    wp (callOp fuel op) (fun out w' => out = (seqStep ps op).1 ∧
      Counted h₀ w' (seqStep ps op).2) w := by
  have hT : Tells h₀ w ⟨ps, UInt32.ofNat ps.length⟩ := hC
  have hcall := wp_callOp_tells hT hf op
  rw [Tally.call_counted] at hcall
  exact hcall

/-- A call stores at most one pair. -/
theorem length_seqStep (ps : List (ι × ν)) (op : Op ι ν) :
    (seqStep ps op).2.length ≤ ps.length + 1 := by
  cases op with
  | addNode index value => simp [seqStep]
  | deleteNode index =>
      have := List.length_eraseP_le (l := ps) (p := fun e => decide (e.1 = index))
      rw [seqStep]
      split <;> simp only <;> omega
  | findNode index => simp [seqStep]
  | getListLen => simp [seqStep]
  | printAllNode => simp [seqStep]

/-- **A run refines the run of the sequence.** -/
theorem runOps_refines {fuel : ℕ} (ops : List (Op ι ν)) :
    ∀ {w : World ι ν} {ps : List (ι × ν)}, Counted h₀ w ps → ps.length + ops.length < fuel →
      wp (runOps fuel ops) (fun outs w' => outs = (seqRun ps ops).1 ∧
        Counted h₀ w' (seqRun ps ops).2) w := by
  induction ops with
  | nil => exact fun hC _ => wp_pure.2 ⟨rfl, hC⟩
  | cons op ops ih =>
      intro w ps hC hf
      rw [List.length_cons] at hf
      simp only [runOps, wp_bind, wp_pure]
      refine wp_mono (callOp_refines hC (by omega) op) ?_
      rintro out w' ⟨rfl, hC'⟩
      have hlen := length_seqStep ps op
      refine wp_mono (ih hC' (by omega)) ?_
      rintro outs w'' ⟨rfl, hC''⟩
      exact ⟨rfl, hC''⟩

/-- **The pointer list refines a sequence.** On a freshly constructed list,
whatever the memory held before, any calls run to the end without a fault,
answer what a plain sequence of pairs answers, and leave a null-terminated
chain without repetitions that spells the sequence. -/
theorem list_refines_sequence (w₀ : World ι ν) (ops : List (Op ι ν)) (fuel : ℕ)
    (hf : ops.length < fuel) :
    ∃ w s l, (do construct; runOps fuel ops) w₀ = .ok ((seqRun [] ops).1, w) ∧
      w.list.head = some s ∧ Chain w.nodes (some s) (s :: l) ∧ (s :: l).Nodup ∧
      l.map (entry w.nodes) = (seqRun [] ops).2.map some := by
  have hrun : wp (do construct; runOps fuel ops) (fun outs w => outs = (seqRun [] ops).1 ∧
      Counted w₀.nodes w (seqRun [] ops).2) w₀ := by
    rw [wp_bind]
    refine wp_mono wp_construct ?_
    rintro _ w ⟨hR, hlen⟩
    exact runOps_refines ops ⟨hR, hlen⟩ (by simpa using hf)
  obtain ⟨_, w, hw, rfl, ⟨s, l, hL, hps⟩, -⟩ := hrun
  exact ⟨w, s, l, hw, hL.head, hL.chain, hL.nodup, hps⟩

/-- A memory with nothing in it. -/
def blank : World ℕ ℕ := ⟨Heap.empty fun _ => ⟨none, 0, 0⟩, ⟨none, 0⟩⟩

/-- Calls that store an index twice, delete the first holder and look for
the second. -/
def twice : List (Op ℕ ℕ) :=
  [.addNode 1 10, .addNode 2 20, .addNode 1 30, .deleteNode 1, .findNode 1, .getListLen]

example : (seqRun [] twice).1 =
    [.status 0, .status 0, .status 0, .status 0, .found (some (1, 30)), .len 2] := by decide

/-- The calls on an empty memory. -/
theorem list_refines_sequence_twice :
    ∃ w s l, (do construct; runOps 7 twice) blank = .ok ((seqRun [] twice).1, w) ∧
      w.list.head = some s ∧ Chain w.nodes (some s) (s :: l) ∧ (s :: l).Nodup ∧
      l.map (entry w.nodes) = (seqRun [] twice).2.map some :=
  list_refines_sequence blank twice 7 (by decide)

end SingleList

end BlocTest
