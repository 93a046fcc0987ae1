import BlocTest.SingleList.Lifetime
import BlocTest.SingleList.Model.Session
import BlocTest.SingleList.Reverse
/-!
# A session shows what its tally shows

The functions around the list work on its `List_t` directly, so nothing the
class does protects the chain from them. What does is that each keeps it a
chain of the same cells, less at most the one it frees: a session that mixes
them with the methods runs to the end, shows what a plain sequence shows, and
the destructor finds every node there is. What they do not keep is
`list_len`.
-/

namespace BlocTest

namespace SingleList

open Prog

variable {ι ν : Type}
variable {h₀ : Heap (ListNode ι ν)} {w w' : World ι ν} {ps : List (ι × ν)} {fuel : ℕ}
variable {s : ℕ} {l : List ℕ}

/-! ## The functions around the list -/

/-- **`print_list` shows the values in order**, and leaves everything
alone. -/
theorem wp_printList (hR : Rep h₀ w ps) (hf : ps.length < fuel) :
    wp (printList fuel getList) (fun vs w' => vs = ps.map Prod.snd ∧ w' = w) w := by
  obtain ⟨s, l, hL, hps⟩ := hR
  obtain ⟨n, hn, hc⟩ := hL.sentinel
  simp only [printList, getList, headOf, wp_bind, wp_getHead, wp_onNodes]
  rw [hL.head, Heap.wp_getNext hn]
  refine wp_loop (fun k b h => h = w.nodes ∧ ∃ l ps', ps'.length = k ∧ Chain h b.1 l ∧
      l.map (entry h) = ps'.map some ∧ b.2 ++ ps'.map Prod.snd = ps.map Prod.snd) ?_
    fuel ps.length _ w.nodes hf ⟨rfl, l, ps, rfl, hc, hps, rfl⟩
  rintro k ⟨p, values⟩ _ ⟨rfl, l, ps', rfl, hc, hps', hout⟩
  cases l with
  | nil =>
      obtain rfl : ps' = [] := by simpa using hps'.symm
      obtain rfl : p = none := chain_nil.1 hc
      simp only [printListRound, wp_pure, round_inr]
      exact ⟨by simpa using hout, trivial⟩
  | cons a l =>
      obtain ⟨rfl, n, hn, hl⟩ := hc
      cases ps' with
      | nil => simp at hps'
      | cons e ps' =>
          simp only [List.map_cons, entry_eq hn, List.cons.injEq, Option.some.injEq] at hps'
          obtain ⟨rfl, hps'⟩ := hps'
          rw [printListRound, wp_bind, Heap.wp_read hn, wp_bind, Heap.wp_getNext hn]
          simp only [wp_pure, round_inl]
          exact ⟨ps'.length, by simp, trivial, l, ps', rfl, hl, hps', by simpa using hout⟩

/-- The same nodes chained the other way, and nothing but links rewritten. -/
theorem IsList.reverse (hL : IsList h₀ w s l) (hh : w'.list = w.list)
    (hc : Chain w'.nodes (some s) (s :: l.reverse)) (hr : Relinks w.nodes w'.nodes (s :: l)) :
    IsList h₀ w' s l.reverse := by
  have hmem : ∀ a, a ∈ s :: l.reverse ↔ a ∈ s :: l := fun a => by simp
  refine ⟨by rw [hh, hL.head], hc, fun a ha => hL.own a ((hmem a).1 ha), ?_, ?_, ?_⟩
  · intro a ha hlive
    refine (hmem a).2 (hL.owned a ha ?_)
    have hentry := congrArg Option.isSome (entry_relinks hr a)
    simpa only [entry, Option.isSome_map, hlive] using hentry.symm
  · intro a ha
    have hoff : a ∉ s :: l := fun hin => by
      have := hL.own a hin
      omega
    rw [hr.off a hoff, hL.frame a ha]
  · rw [hr.frontier]
    exact hL.mono

/-- **`list_reverse` reverses the sequence**, and `list_len` is as it was. -/
theorem wp_listReverse_rep (hR : Rep h₀ w ps) (hf : ps.length < fuel) :
    wp (listReverse fuel getList) (fun _ w' => Rep h₀ w' ps.reverse ∧ w'.list = w.list) w := by
  obtain ⟨s, l, hL, hps⟩ := hR
  have hlen : l.length = ps.length := by simpa using congrArg List.length hps
  refine wp_mono (wp_listReverse hL.head hL.chain (by omega)) ?_
  rintro _ w' ⟨hlist, hchain, hrel⟩
  refine ⟨⟨s, l.reverse, hL.reverse hlist hchain hrel, ?_⟩, hlist⟩
  rw [List.map_reverse, List.map_reverse, ← hps]
  exact congrArg List.reverse (List.map_congr_left fun a _ => entry_relinks hrel a)

/-- **`del_last_nth_node` takes one pair out of the sequence**, and `list_len`
is as it was. -/
theorem wp_delLastNthNode_rep {n : Int32} (hR : Rep h₀ w ps) (hn : 1 ≤ n.toInt)
    (hnl : n.toInt ≤ ps.length) (hk : (ps.length : ℤ) < intMax) (hf : ps.length + 1 < fuel) :
    wp (delLastNthNode fuel n getList) (fun _ w' =>
      Rep h₀ w' (ps.eraseIdx (ps.length - n.toInt.toNat)) ∧ w'.list = w.list) w := by
  obtain ⟨s, l, hL, hps⟩ := hR
  have hlen : l.length = ps.length := by simpa using congrArg List.length hps
  have hcons : (s :: l).length = l.length + 1 := List.length_cons
  have hfit : FitsInt (n.toInt + 1) := fits_succ (by omega)
  rw [wp_delLastNthNode, hL.head]
  refine wp_mono (wp_traversal_hit hfit hn hL.chain (by omega) (by omega) (by omega)) ?_
  rintro _ h' ⟨-, pre, a, b, post, mb, hl, hpost, hmb, rfl⟩
  let w' : World ι ν := ⟨(w.nodes.link a mb.next).free b, w.list⟩
  obtain ⟨hL', hps'⟩ := hL.unlink hl hmb (rfl : w'.nodes = _) rfl
  -- as many nodes stand before the frame as pairs stay in front
  have hat : pre.length = ps.length - n.toInt.toNat := by
    have := congrArg List.length hl
    simp only [List.length_cons, List.length_append] at this
    omega
  refine ⟨⟨s, _, hL', ?_⟩, rfl⟩
  rw [hps', hps, List.eraseIdx_map, hat]

/-! ## One step -/

variable [DecidableEq ι] {t : Tally ι ν}

/-- **One step shows what the tally shows.** -/
theorem wp_runStep_tells (hT : Tells h₀ w t) (hf : t.pairs.length + 1 < fuel)
    {step : Step ι ν} (hv : t.Admits step) :
    wp (runStep fuel step) (fun shown w' => shown = (t.step step).1 ∧
      Tells h₀ w' (t.step step).2) w := by
  cases step with
  | call op =>
      simp only [runStep, wp_bind, wp_pure]
      refine wp_mono (wp_callOp_tells hT (by omega) op) ?_
      rintro out w' ⟨rfl, hT'⟩
      exact ⟨rfl, hT'⟩
  | printList =>
      simp only [runStep, wp_bind, wp_pure]
      refine wp_mono (wp_printList hT.1 (by omega)) ?_
      rintro vs _ ⟨rfl, rfl⟩
      exact ⟨rfl, hT⟩
  | listReverse =>
      simp only [runStep, wp_bind, wp_pure]
      refine wp_mono (wp_listReverse_rep hT.1 (by omega)) ?_
      rintro _ w' ⟨hR', hlist⟩
      exact ⟨rfl, hR', by rw [hlist, hT.2]; rfl⟩
  | delLastNthNode n =>
      obtain ⟨hn, hnl, hk⟩ := hv
      simp only [runStep, wp_bind, wp_pure]
      refine wp_mono (wp_delLastNthNode_rep hT.1 hn hnl hk hf) ?_
      rintro _ w' ⟨hR', hlist⟩
      exact ⟨rfl, hR', by rw [hlist, hT.2]; rfl⟩

/-! ## Sessions -/

/-- A step stores at most one pair. -/
theorem Tally.length_step (t : Tally ι ν) (step : Step ι ν) :
    (t.step step).2.pairs.length ≤ t.pairs.length + 1 := by
  cases step with
  | call op =>
      have hop := length_seqStep t.pairs op
      cases op with
      | addNode index value => exact hop
      | deleteNode index =>
          simp only [Tally.step, Tally.call]
          split
          · exact hop
          · simp only; omega
      | findNode index => exact hop
      | getListLen => exact hop
      | printAllNode => exact hop
  | printList => simp [Tally.step]
  | listReverse => simp [Tally.step]
  | delLastNthNode n =>
      have := List.length_eraseIdx_le t.pairs (t.pairs.length - n.toInt.toNat)
      simp only [Tally.step]
      omega

/-- **Steps show what the tally shows**, by induction on them. -/
theorem wp_runSteps_tells (steps : List (Step ι ν)) :
    ∀ {w : World ι ν} {t : Tally ι ν}, Tells h₀ w t → t.AdmitsAll steps →
      t.pairs.length + steps.length + 1 < fuel →
      wp (runSteps fuel steps) (fun shown w' => shown = (t.run steps).1 ∧
        Tells h₀ w' (t.run steps).2 ∧
        (t.run steps).2.pairs.length ≤ t.pairs.length + steps.length) w := by
  induction steps with
  | nil => exact fun hT _ _ => wp_pure.2 ⟨rfl, hT, by simp [Tally.run]⟩
  | cons step steps ih =>
      intro w t hT hv hf
      rw [List.length_cons] at hf ⊢
      simp only [runSteps, wp_bind, wp_pure]
      refine wp_mono (wp_runStep_tells hT (by omega) hv.1) ?_
      rintro shown w' ⟨rfl, hT'⟩
      have hlen := t.length_step step
      refine wp_mono (ih hT' hv.2 (by omega)) ?_
      rintro rest w'' ⟨rfl, hT'', hlen'⟩
      exact ⟨rfl, hT'', by simp only [Tally.run]; omega⟩

/-! ## What the count has lost -/

/-- How many steps take a node out past the methods. -/
def externals (steps : List (Step ι ν)) : ℕ :=
  steps.countP fun
    | .delLastNthNode _ => true
    | _ => false

omit [DecidableEq ι] in
/-- They are counted step by step. -/
theorem externals_cons (step : Step ι ν) (steps : List (Step ι ν)) :
    externals (step :: steps) = externals [step] + externals steps := by
  simp only [externals, List.countP_cons, List.countP_nil]
  omega

/-- **One step moves the count and the length together**, or takes a node out
past the count. -/
theorem Tally.len_step {d : ℕ} {step : Step ι ν} (ht : t.len = UInt32.ofNat (t.pairs.length + d))
    (hv : t.Admits step) :
    (t.step step).2.len =
      UInt32.ofNat ((t.step step).2.pairs.length + (d + externals [step])) := by
  cases step with
  | call op =>
      cases op with
      | addNode index value =>
          have hlen : t.pairs.length + 1 + d = t.pairs.length + d + 1 := by omega
          show t.len + 1 = UInt32.ofNat ((t.pairs ++ [(index, value)]).length + d)
          rw [List.length_append, List.length_singleton, hlen, ofNat_succ, ht]
      | deleteNode index =>
          simp only [Tally.step, Tally.call, seqStep]
          split
          · next hany =>
            obtain ⟨e, he, hi⟩ := List.any_eq_true.1 hany
            have hpos : 0 < t.pairs.length := List.length_pos_of_mem he
            obtain ⟨k, hk⟩ : ∃ k, t.pairs.length + d = k + 1 := ⟨t.pairs.length + d - 1, by omega⟩
            show t.len - 1 = UInt32.ofNat ((t.pairs.eraseP _).length + d)
            rw [List.length_eraseP_of_mem he hi, ht, hk, ofNat_succ,
              (by omega : t.pairs.length - 1 + d = k)]
            simp
          · exact ht
      | findNode index => exact ht
      | getListLen => exact ht
      | printAllNode => exact ht
  | printList => exact ht
  | listReverse =>
      show t.len = UInt32.ofNat (t.pairs.reverse.length + d)
      rw [List.length_reverse, ht]
  | delLastNthNode n =>
      obtain ⟨hn, hnl, -⟩ := hv
      show t.len =
        UInt32.ofNat ((t.pairs.eraseIdx (t.pairs.length - n.toInt.toNat)).length + (d + 1))
      rw [List.length_eraseIdx_of_lt (by omega), ht]
      congr 1
      omega

/-- **The count is ahead by the nodes taken out past it.** -/
theorem Tally.len_run (steps : List (Step ι ν)) :
    ∀ {t : Tally ι ν} {d : ℕ}, t.len = UInt32.ofNat (t.pairs.length + d) → t.AdmitsAll steps →
      (t.run steps).2.len =
        UInt32.ofNat ((t.run steps).2.pairs.length + (d + externals steps)) := by
  induction steps with
  | nil => exact fun ht _ => ht
  | cons step steps ih =>
      intro t d ht hv
      have hrun := ih (Tally.len_step ht hv.1) hv.2
      rw [Nat.add_assoc, ← externals_cons] at hrun
      exact hrun

/-- **A session shows what its tally shows**, whichever of the list's methods
and of the functions around it are its steps, in whatever order, provided each
`del_last_nth_node` names a node. Before the destructor the list represents
the sequence and `list_len` is ahead of it by the nodes taken out past it; and
the destructor leaves every cell of the session freed, once, and everything
else as it was. -/
theorem session_shows (w₀ : World ι ν) (steps : List (Step ι ν)) (fuel : ℕ)
    (hv : Tally.fresh.AdmitsAll steps) (hf : steps.length + 1 < fuel) :
    ∃ w₁ w, (do construct; runSteps fuel steps) w₀ = .ok ((Tally.fresh.run steps).1, w₁) ∧
      Rep w₀.nodes w₁ (Tally.fresh.run steps).2.pairs ∧
      w₁.list.listLen =
        UInt32.ofNat ((Tally.fresh.run steps).2.pairs.length + externals steps) ∧
      session fuel steps w₀ = .ok ((Tally.fresh.run steps).1, w) ∧ FreedOnce w₀ w ∧
      ∀ a, a < w₀.nodes.frontier → w.nodes.cell a = w₀.nodes.cell a := by
  have hrun : wp (do construct; runSteps fuel steps) (fun shown w =>
      shown = (Tally.fresh.run steps).1 ∧ Tells w₀.nodes w (Tally.fresh.run steps).2 ∧
      (Tally.fresh.run steps).2.pairs.length ≤ steps.length) w₀ := by
    rw [wp_bind]
    refine wp_mono wp_construct ?_
    rintro _ w ⟨hR, hlen⟩
    have hT : Tells w₀.nodes w (Tally.fresh : Tally ι ν) := ⟨hR, hlen⟩
    have hfresh : (Tally.fresh : Tally ι ν).pairs.length = 0 := rfl
    simpa [hfresh] using wp_runSteps_tells steps hT hv (by omega)
  obtain ⟨_, w₁, hw₁, rfl, hT, hsmall⟩ := hrun
  have hahead := Tally.len_run steps (t := Tally.fresh) (d := 0) rfl hv
  rw [Nat.zero_add] at hahead
  have hR := hT.1
  obtain ⟨s, l, hL, hps⟩ := hT.1
  have hl : l.length = (Tally.fresh.run steps).2.pairs.length := by
    simpa using congrArg List.length hps
  obtain ⟨_, w, hw, -, -, hgone, hkept, -⟩ := wp_destroyList hL (by omega : l.length < fuel)
  refine ⟨w₁, w, hw₁, hR, by rw [hT.2, hahead], ?_, ?_, hkept⟩
  · refine eq_of_wp ?_
    have hall : wp (do construct; runSteps fuel steps)
        (fun shown w' => shown = (Tally.fresh.run steps).1 ∧ w' = w₁) w₀ :=
      ⟨_, w₁, hw₁, rfl, rfl⟩
    simp only [session, destruct, wp_bind, wp_pure] at hall ⊢
    refine wp_mono hall fun _ _ h => wp_mono h ?_
    rintro shown w' ⟨rfl, rfl⟩
    exact (wp_of_eq hw).2 ⟨rfl, rfl⟩
  · exact fun a ha hlt => Heap.count_freed hlt (hgone a ha)

instance decidableAdmits (t : Tally ι ν) (step : Step ι ν) : Decidable (t.Admits step) :=
  match step with
  | .call _ => isTrue trivial
  | .printList => isTrue trivial
  | .listReverse => isTrue trivial
  | .delLastNthNode _ => inferInstanceAs (Decidable (_ ∧ _ ∧ _))

instance decidableAdmitsAll : (t : Tally ι ν) → (steps : List (Step ι ν)) →
    Decidable (t.AdmitsAll steps)
  | _, [] => isTrue trivial
  | t, step :: steps =>
      have := decidableAdmitsAll (t.step step).2 steps
      inferInstanceAs (Decidable (_ ∧ _))

/-- Two nodes turned round, the new first one taken out from the end. -/
def turnAndDrop : List (Step ℕ ℕ) :=
  [.call (.addNode 1 10), .call (.addNode 2 20), .listReverse, .delLastNthNode 2, .printList,
    .call .getListLen]

example : (Tally.fresh.run turnAndDrop).1 =
    [.answer (.status 0), .answer (.status 0), .nothing, .nothing, .values [10],
      .answer (.len 2)] := by decide

/-- The list of two nodes, turned round and cut. -/
theorem session_shows_turnAndDrop :
    ∃ w₁ w, (do construct; runSteps 8 turnAndDrop) blank =
        .ok ((Tally.fresh.run turnAndDrop).1, w₁) ∧
      Rep blank.nodes w₁ (Tally.fresh.run turnAndDrop).2.pairs ∧
      w₁.list.listLen =
        UInt32.ofNat ((Tally.fresh.run turnAndDrop).2.pairs.length + externals turnAndDrop) ∧
      session 8 turnAndDrop blank = .ok ((Tally.fresh.run turnAndDrop).1, w) ∧
      FreedOnce blank w ∧ ∀ a, a < blank.nodes.frontier → w.nodes.cell a = blank.nodes.cell a :=
  session_shows blank turnAndDrop 8 (by decide) (by decide)

end SingleList

end BlocTest
