import BlocTest.SingleList.DelNode
/-!
# The length counter under the external mutator

`list_len` follows the chain through `add_node` and `delete_node`, which
update it, and loses it at the first `del_last_nth_node`, which unlinks a
node and has no statement for the counter. The counter is a `u32`, so the
chain has to stay shorter than `2 ^ 32` too.
-/

namespace BlocTest

namespace SingleList

open Prog

variable {ι ν : Type} [DecidableEq ι]

/-- What `del_last_nth_node` asks of its argument: a node of the list. -/
def InRange (ps : List (ι × ν)) : Mutation ι ν → Prop
  | .delLastNthNode n => 1 ≤ n.toInt ∧ n.toInt ≤ ps.length
  | _ => True

instance (ps : List (ι × ν)) (m : Mutation ι ν) : Decidable (InRange ps m) :=
  match m with
  | .addNode _ _ => isTrue trivial
  | .deleteNode _ => isTrue trivial
  | .delLastNthNode _ => inferInstanceAs (Decidable (_ ∧ _))

/-- Every mutation of the sequence, made from `ps`, is in range where it is
made. -/
def Valid (ps : List (ι × ν)) : List (Mutation ι ν) → Prop
  | [] => True
  | m :: ms => InRange ps m ∧ Valid (seqMutate ps m) ms

instance decidableValid : (ps : List (ι × ν)) → (ms : List (Mutation ι ν)) →
    Decidable (Valid ps ms)
  | _, [] => isTrue trivial
  | ps, m :: ms =>
      have := decidableValid (seqMutate ps m) ms
      inferInstanceAs (Decidable (_ ∧ _))

/-- `list_len` is the number of nodes reachable from `head->next`. -/
def LenExact (w : World ι ν) : Prop :=
  ∃ s l, w.list.head = some s ∧ Chain w.nodes (some s) (s :: l) ∧ w.list.listLen.toNat = l.length

variable {h₀ : Heap (ListNode ι ν)} {w w' : World ι ν} {ps : List (ι × ν)} {fuel : ℕ}
variable {ms : List (Mutation ι ν)} {m : Mutation ι ν}

/-! ## The two mutators of the class -/

/-- **A mutation of the class keeps the count.** -/
theorem mutate_counted (hC : Counted h₀ w ps) (hf : ps.length < fuel)
    (hm : ∀ n, m ≠ .delLastNthNode n) :
    wp (mutate fuel m) (fun _ w' => Counted h₀ w' (seqMutate ps m)) w := by
  cases m with
  | addNode index value =>
      have hop := callOp_refines hC hf (.addNode index value)
      simp only [callOp, mutate, wp_bind, wp_pure] at hop ⊢
      exact wp_mono hop fun _ _ h => h.2
  | deleteNode index =>
      have hop := callOp_refines hC hf (.deleteNode index)
      simp only [callOp, mutate, wp_bind, wp_pure] at hop ⊢
      refine wp_mono hop fun _ w' h => ?_
      obtain ⟨-, hC'⟩ := h
      rw [seqStep] at hC'
      split at hC'
      · exact hC'
      · next hany =>
        have hno : ∀ e ∈ ps, ¬ decide (e.1 = index) = true := fun e he hi =>
          hany (List.any_eq_true.2 ⟨e, he, hi⟩)
        rw [seqMutate, List.eraseP_of_forall_not hno]
        exact hC'
  | delLastNthNode n => exact absurd rfl (hm n)

omit [DecidableEq ι] in
/-- A counted list shorter than `2 ^ 32` has the exact length. -/
theorem Counted.len_eq_iff (hC : Counted h₀ w ps) : LenExact w ↔ ps.length < 2 ^ 32 := by
  obtain ⟨⟨s, l, hL, hps⟩, hlen⟩ := hC
  have hl : l.length = ps.length := by simpa using congrArg List.length hps
  have hmod : w.list.listLen.toNat = ps.length % 2 ^ 32 := by
    rw [hlen]
    exact UInt32.toNat_ofNat'
  constructor
  · intro h
    obtain ⟨s', l', hs', hc', hlen'⟩ := h
    rw [hL.head] at hs'
    cases hs'
    have heq := congrArg List.length (chain_unique hc' hL.chain)
    simp only [List.length_cons] at heq
    have := Nat.mod_lt ps.length (show 0 < 2 ^ 32 by decide)
    omega
  · intro hlt
    exact ⟨s, l, hL.head, hL.chain, by rw [hmod, Nat.mod_eq_of_lt hlt, hl]⟩

/-! ## The external mutator -/

omit [DecidableEq ι] in
/-- **`del_last_nth_node` loses the count**: it takes a node off the chain
and leaves `list_len`. -/
theorem not_lenExact_delLastNthNode {n : Int32} (hC : Counted h₀ w ps) (hw : LenExact w)
    (hn : 1 ≤ n.toInt ∧ n.toInt ≤ ps.length) (hf : ps.length + 1 < fuel) :
    ¬ wp (delLastNthNode fuel n getList) (fun _ w' => LenExact w') w := by
  intro hwp
  obtain ⟨⟨s, l, hL, hps⟩, -⟩ := hC
  have hl : l.length = ps.length := by simpa using congrArg List.length hps
  have hlen : (s :: l).length = l.length + 1 := List.length_cons
  rw [wp_delLastNthNode, hL.head] at hwp
  -- the nodes could be counted, so the traversal unlinks one
  obtain ⟨c, h', hrun, hexact, hcount⟩ := wp_traversal_count hL.chain hwp
  have hclt := c.toInt_lt
  have hfit : FitsInt (n.toInt + 1) := fits_succ (by rw [intMax]; omega)
  have hhit := wp_traversal_hit hfit hn.1 hL.chain (by omega : (s :: l).length < fuel)
    (by simp only [intMax]; omega) (by omega)
  obtain ⟨-, pre, a, b, post, mb, hsplit, -, hmb, rfl⟩ := (wp_of_eq hrun).1 hhit
  have hchain := chain_unlink (hsplit ▸ hL.chain) hmb
  have hsize := congrArg List.length hsplit
  simp only [List.length_cons, List.length_append] at hsize
  -- both counts are exact, of chains a node apart
  obtain ⟨s₁, l₁, hs₁, hc₁, hlen₁⟩ := hw
  obtain ⟨s₂, l₂, hs₂, hc₂, hlen₂⟩ := hexact
  replace hlen₂ : w.list.listLen.toNat = l₂.length := hlen₂
  rw [hL.head] at hs₁ hs₂
  cases hs₁
  cases hs₂
  have h₁ := congrArg List.length (chain_unique hc₁ hL.chain)
  have h₂ := congrArg List.length (chain_unique hc₂ hchain)
  simp only [List.length_cons, List.length_append] at h₁ h₂
  omega

/-! ## Runs -/

/-- A step adds one node at most. -/
theorem length_seqMutate (ps : List (ι × ν)) (m : Mutation ι ν) :
    (seqMutate ps m).length ≤ ps.length + 1 := by
  cases m with
  | addNode index value => simp [seqMutate]
  | deleteNode index =>
      have := List.length_eraseP_le (l := ps) (p := fun e => decide (e.1 = index))
      rw [seqMutate]
      omega
  | delLastNthNode n =>
      have := List.length_eraseIdx_le ps (ps.length - n.toInt.toNat)
      rw [seqMutate]
      omega

/-- Steps add as many nodes as they are. -/
theorem length_foldl_seqMutate :
    ∀ ps : List (ι × ν), (ms.foldl seqMutate ps).length ≤ ps.length + ms.length := by
  induction ms with
  | nil => simp
  | cons m ms ih =>
      intro ps
      have h₁ := ih (seqMutate ps m)
      have h₂ := length_seqMutate ps m
      rw [List.foldl_cons, List.length_cons]
      omega

/-- A run leaves no more nodes than it has steps. -/
theorem length_seqAfter : (seqAfter ms).length ≤ ms.length := by
  simpa [seqAfter] using length_foldl_seqMutate []

/-- In a valid run each step is in range where it is made. -/
theorem Valid.inRange {before after : List (Mutation ι ν)} :
    ∀ {ps : List (ι × ν)}, Valid ps (before ++ m :: after) →
      InRange (before.foldl seqMutate ps) m := by
  induction before with
  | nil => exact fun hv => hv.1
  | cons m' before ih => exact fun hv => ih hv.2

/-- A run that never leaves the class keeps the count. -/
theorem mutateAll_counted (hno : ∀ n, Mutation.delLastNthNode n ∉ ms) :
    ∀ {w : World ι ν} {ps : List (ι × ν)}, Counted h₀ w ps → ps.length + ms.length < fuel →
      wp (mutateAll fuel ms) (fun _ w' => Counted h₀ w' (ms.foldl seqMutate ps)) w := by
  induction ms with
  | nil => exact fun hC _ => wp_pure.2 hC
  | cons m ms ih =>
      intro w ps hC hf
      simp only [List.mem_cons, not_or] at hno
      rw [List.length_cons] at hf
      rw [mutateAll, wp_bind]
      refine wp_mono (mutate_counted hC (by omega) fun n h => (hno n).1 h.symm) fun _ w' hC' => ?_
      have := length_seqMutate ps m
      exact ih (fun n => (hno n).2) hC' (by omega)

/-- A run from construction that never leaves the class keeps the count. -/
theorem constructed_counted (hno : ∀ n, Mutation.delLastNthNode n ∉ ms) (hf : ms.length < fuel)
    (w₀ : World ι ν) :
    wp (do construct; mutateAll fuel ms) (fun _ w => Counted w₀.nodes w (seqAfter ms)) w₀ := by
  rw [wp_bind]
  refine wp_mono wp_construct ?_
  rintro _ w ⟨hR, hlen⟩
  exact mutateAll_counted hno ⟨hR, hlen⟩ (by simpa using hf)

/-- A run is taken apart at its last step. -/
theorem wp_mutateAll_concat {Q : Unit → World ι ν → Prop} :
    ∀ {w : World ι ν}, wp (mutateAll fuel (ms ++ [m])) Q w ↔
      wp (mutateAll fuel ms) (fun _ w' => wp (mutate fuel m) Q w') w := by
  induction ms with
  | nil => simp [mutateAll]
  | cons m' ms ih =>
      intro w
      simp only [List.cons_append, mutateAll, wp_bind, ih]

/-- Whether a mutation is the external one. -/
def Mutation.isExternal : Mutation ι ν → Bool
  | .delLastNthNode _ => true
  | _ => false

/-- The state a run reaches has an exact count. -/
def ExactAfter (fuel : ℕ) (w₀ : World ι ν) (ms : List (Mutation ι ν)) : Prop :=
  ∃ w, (do construct; mutateAll fuel ms) w₀ = .ok ((), w) ∧ LenExact w

/-- **The first external step of a run cannot be exact** where the step
before it was. -/
theorem not_exactAfter_concat {n : Int32} {w₀ : World ι ν}
    (hno : ∀ k, Mutation.delLastNthNode k ∉ ms) (hin : InRange (seqAfter ms) (.delLastNthNode n))
    (hf : ms.length + 1 < fuel) (hexact : ExactAfter fuel w₀ ms) :
    ¬ ExactAfter fuel w₀ (ms ++ [.delLastNthNode n]) := by
  intro h
  obtain ⟨w', hw', hwl'⟩ := h
  obtain ⟨w, hw, hwl⟩ := hexact
  have hcount := constructed_counted hno (by omega : ms.length < fuel) w₀
  have hC := (wp_of_eq hw).1 hcount
  have hlen : (seqAfter ms).length ≤ ms.length := length_seqAfter
  have hstep : wp (do construct; mutateAll fuel (ms ++ [.delLastNthNode n]))
      (fun _ u => LenExact u) w₀ := ⟨(), w', hw', hwl'⟩
  simp only [wp_bind, wp_mutateAll_concat] at hstep
  rw [← wp_bind] at hstep
  exact not_lenExact_delLastNthNode hC hwl hin (by omega) ((wp_of_eq hw).1 hstep)

/-- **The counter is exact after every step exactly when** no step is a
`del_last_nth_node` and the list never reaches `2 ^ 32` nodes. -/
theorem lenExact_iff (w₀ : World ι ν) (ms : List (Mutation ι ν)) (fuel : ℕ) (hv : Valid [] ms)
    (hf : ms.length + 1 < fuel) :
    (∀ before, before <+: ms → ExactAfter fuel w₀ before) ↔
      (∀ n, Mutation.delLastNthNode n ∉ ms) ∧
        ∀ before, before <+: ms → (seqAfter before).length < 2 ^ 32 := by
  constructor
  · intro hexact
    have hno : ∀ n, Mutation.delLastNthNode n ∉ ms := by
      intro n hn
      -- take the first external step
      obtain ⟨m, hm⟩ := Option.isSome_iff_exists.1 (List.find?_isSome.2 ⟨_, hn, rfl⟩ :
        (ms.find? Mutation.isExternal).isSome)
      obtain ⟨hext, pre, post, rfl, hpre⟩ := List.find?_eq_some_iff_append.1 hm
      have hin : ∀ k, Mutation.delLastNthNode k ∉ pre := fun k hk => by
        simpa [Mutation.isExternal] using hpre _ hk
      rw [List.length_append, List.length_cons] at hf
      cases m with
      | addNode index value => cases hext
      | deleteNode index => cases hext
      | delLastNthNode k =>
          exact not_exactAfter_concat hin hv.inRange (by omega)
            (hexact pre (List.prefix_append _ _)) (hexact _ ⟨post, by simp⟩)
    refine ⟨hno, fun before hb => ?_⟩
    obtain ⟨w, hw, hwl⟩ := hexact before hb
    have hlen := hb.length_le
    have hC := (wp_of_eq hw).1 (constructed_counted
      (fun n hn => hno n (hb.subset hn)) (by omega : before.length < fuel) w₀)
    exact hC.len_eq_iff.1 hwl
  · rintro ⟨hno, hsmall⟩ before hb
    have hlen := hb.length_le
    obtain ⟨_, w, hw, hC⟩ := constructed_counted
      (fun n hn => hno n (hb.subset hn)) (by omega : before.length < fuel) w₀
    exact ⟨w, hw, hC.len_eq_iff.2 (hsmall before hb)⟩

/-- Two nodes, and the first one taken out from the end. -/
def addAddDel : List (Mutation ℕ ℕ) := [.addNode 1 10, .addNode 2 20, .delLastNthNode 2]

/-- Two nodes added, and one taken out from the end. -/
theorem lenExact_iff_addAddDel :
    (∀ before, before <+: addAddDel → ExactAfter 5 blank before) ↔
      (∀ n, Mutation.delLastNthNode n ∉ addAddDel) ∧
        ∀ before, before <+: addAddDel → (seqAfter before).length < 2 ^ 32 :=
  lenExact_iff blank addAddDel 5 (by decide) (by decide)

/-- One node added and taken out from the end: no node is left, and
`list_len` is `1`. -/
theorem delLastNthNode_stale_len :
    ∃ w, (do construct; mutateAll 4 [.addNode 0 1, .delLastNthNode 1]) blank = .ok ((), w) ∧
      w.list.head = some 0 ∧ Chain w.nodes (some 0) [0] ∧ w.list.listLen = 1 :=
  ⟨_, rfl, rfl, ⟨rfl, _, rfl, rfl⟩, rfl⟩

end SingleList

end BlocTest
