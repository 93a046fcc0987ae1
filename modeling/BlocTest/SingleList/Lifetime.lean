import BlocTest.SingleList.Refinement
/-!
# The life of a list

`destroy_list` is public and is also what the destructor calls, and it
leaves the head null without any method testing for it. So a life that
calls it once is over: every later method that looks at the chain reads
through null, the destructor included. A life that does not call it frees
every cell it took, each once.
-/

namespace BlocTest

namespace SingleList

open Prog

variable {ι ν : Type} [DecidableEq ι]
variable {h₀ : Heap (ListNode ι ν)} {w : World ι ν} {ps : List (ι × ν)}

/-! ## A life without `destroy_list` -/

/-- Calls other than `destroy_list` keep the list a list. -/
theorem wp_runCalls {fuel : ℕ} {calls : List (Call ι ν)} (hno : Call.destroyList ∉ calls) :
    ∀ {w : World ι ν} {ps : List (ι × ν)}, Counted h₀ w ps → ps.length + calls.length < fuel →
      wp (runCalls fuel calls) (fun _ w' => ∃ ps', Counted h₀ w' ps' ∧
        ps'.length ≤ ps.length + calls.length) w := by
  induction calls with
  | nil => exact fun hC _ => wp_pure.2 ⟨_, hC, by simp⟩
  | cons call calls ih =>
      intro w ps hC hf
      rw [List.mem_cons, not_or] at hno
      rw [List.length_cons] at hf ⊢
      cases call with
      | destroyList => exact absurd rfl hno.1
      | op o =>
          rw [runCalls, wp_bind]
          refine wp_mono (callOp_refines hC (by omega) o) ?_
          rintro out w' ⟨-, hC'⟩
          have hlen := length_seqStep ps o
          refine wp_mono (ih hno.2 hC' (by omega)) ?_
          rintro _ w'' ⟨ps', hC'', hlen'⟩
          exact ⟨ps', hC'', by omega⟩

/-! ## A life after `destroy_list` -/

/-- **With the head null only `get_list_len` returns**, and it changes
nothing. -/
theorem wp_callOp_null (hw : w.list.head = none) {fuel : ℕ} {op : Op ι ν}
    {Q : Out ι ν → World ι ν → Prop} (h : wp (callOp fuel op) Q w) : ∃ out, Q out w := by
  cases op with
  | addNode index value =>
      -- the walk to the last node has nowhere to start
      simp only [callOp, wp_bind, wp_addNode_iff, hw] at h
      cases fuel <;> simp [loop, addRound] at h
  | deleteNode index => simp [callOp, deleteNode, hw] at h
  | findNode index => simp [callOp, findNode, hw] at h
  | getListLen =>
      simp only [callOp, getListLen, wp_bind, wp_get, wp_pure] at h
      exact ⟨_, h⟩
  | printAllNode => simp [callOp, printAllNode, hw] at h

/-- So a life whose head is null does not end well. -/
theorem not_wp_ending {fuel : ℕ} {Q : Unit → World ι ν → Prop} (hw : w.list.head = none)
    (calls : List (Call ι ν)) : ¬ wp (do runCalls fuel calls; destruct fuel) Q w := by
  induction calls with
  | nil =>
      simp only [runCalls, wp_bind, wp_pure, destruct]
      exact not_wp_destroyList hw
  | cons call calls ih =>
      intro h
      cases call with
      | op o =>
          simp only [runCalls, wp_bind] at h ih
          obtain ⟨-, h'⟩ := wp_callOp_null hw h
          exact ih h'
      | destroyList =>
          simp only [runCalls, wp_bind] at h
          exact not_wp_destroyList hw h

/-- And one call of `destroy_list` makes it null. -/
theorem not_wp_of_mem {fuel : ℕ} {calls : List (Call ι ν)} (hmem : Call.destroyList ∈ calls) :
    ∀ {w : World ι ν} {ps : List (ι × ν)}, Counted h₀ w ps → ps.length + calls.length < fuel →
      ∀ {Q : Unit → World ι ν → Prop}, ¬ wp (do runCalls fuel calls; destruct fuel) Q w := by
  induction calls with
  | nil => cases hmem
  | cons call calls ih =>
      intro w ps hC hf Q h
      rw [List.length_cons] at hf
      cases call with
      | op o =>
          have hmem' : Call.destroyList ∈ calls := by simpa using hmem
          simp only [runCalls, wp_bind] at h ih
          obtain ⟨out, w', hrun, hrest⟩ := h
          have hstep := (wp_of_eq hrun).1 (callOp_refines hC (by omega) o)
          have hlen := length_seqStep ps o
          exact ih hmem' hstep.2 (by omega) hrest
      | destroyList =>
          simp only [runCalls, wp_bind] at h
          obtain ⟨⟨s, l, hL, hps⟩, -⟩ := hC
          have hlen : l.length = ps.length := by simpa using congrArg List.length hps
          obtain ⟨r, w', hrun, hrest⟩ := h
          have hnull := ((wp_of_eq hrun).1 (wp_destroyList hL (by omega))).2.1
          exact not_wp_ending hnull calls (by simpa only [wp_bind] using hrest)

/-! ## The whole life -/

/-- Every cell handed out since `w₀` has been freed, and freed once. -/
def FreedOnce (w₀ w : World ι ν) : Prop :=
  ∀ a, w₀.nodes.frontier ≤ a → a < w.nodes.frontier → w.nodes.freed.count a = 1

/-- **The life of a list is safe exactly when it never calls
`destroy_list`.** Then no step faults, and the destructor leaves every
cell the life took freed once; otherwise some step, the destructor at the
latest, reads through the null head. -/
theorem lifetime_safe_iff (w₀ : World ι ν) (calls : List (Call ι ν)) (fuel : ℕ)
    (hf : calls.length < fuel) :
    (∃ w, lifetime fuel calls w₀ = .ok ((), w) ∧ FreedOnce w₀ w) ↔
      Call.destroyList ∉ calls := by
  constructor
  · rintro ⟨w, hrun, -⟩ hmem
    have hwp : wp (lifetime fuel calls) (fun _ _ => True) w₀ := ⟨(), w, hrun, trivial⟩
    rw [lifetime, wp_bind] at hwp
    obtain ⟨_, w₁, hc, hrest⟩ := hwp
    obtain ⟨hR, hlen⟩ := (wp_of_eq hc).1 wp_construct
    exact not_wp_of_mem hmem ⟨hR, hlen⟩ (by simpa using hf) hrest
  · intro hno
    have hwp : wp (lifetime fuel calls) (fun _ w => FreedOnce w₀ w) w₀ := by
      rw [lifetime, wp_bind]
      refine wp_mono wp_construct ?_
      rintro _ w₁ ⟨hR, hlen⟩
      rw [wp_bind]
      refine wp_mono (wp_runCalls hno ⟨hR, hlen⟩ (by simpa using hf)) ?_
      rintro _ w₂ ⟨ps, ⟨⟨s, l, hL, hps⟩, -⟩, hps'⟩
      have hlen : l.length = ps.length := by simpa using congrArg List.length hps
      rw [List.length_nil] at hps'
      rw [destruct, wp_bind]
      refine wp_mono (wp_destroyList hL (by omega)) ?_
      rintro r w₃ ⟨-, -, hgone, -, -⟩
      exact wp_pure.2 fun a ha hlt => Heap.count_freed hlt (hgone a ha)
    obtain ⟨_, w, hrun, hw⟩ := hwp
    exact ⟨w, hrun, hw⟩

/-- Calls of which none destroys the list. -/
theorem lifetime_safe_iff_twice :
    (∃ w, lifetime 7 (twice.map Call.op) blank = .ok ((), w) ∧ FreedOnce blank w) ↔
      Call.destroyList ∉ twice.map Call.op :=
  lifetime_safe_iff blank (twice.map Call.op) 7 (by decide)

/-- `destroy_list` and then the destructor: the destructor reads
`list.head->next` through null. -/
theorem destroyList_then_destruct :
    lifetime 2 [.destroyList] blank = .error .nullDeref := rfl

end SingleList

end BlocTest
