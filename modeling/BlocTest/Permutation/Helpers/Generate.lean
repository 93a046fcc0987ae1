import BlocTest.Common.Enumerate
import BlocTest.Permutation.Model.Daima
/-!
# What a generator does

Both generators choose a head, hand what the choice leaves down and restore
the tuple when they come back, so one description covers them: the lines
printed are the tuples of the enumeration that belongs to what `erase`
leaves. The counter of the loop is an integer of the source's type, and past
what that type holds the loop cannot get.
-/

namespace BlocTest

namespace Permutation

open Prog IntType

variable {α ι : Type} [IntType ι]
variable {s s' t : Refs α} {tup : List α} {x : α} {n i : ι} {k j : ℕ} {c : Cut}
variable {erase : List α → ι → Prog (Refs α) (List α)} {self : ι → Prog (Refs α) Unit}

/-! ## Statements of the body -/

/-- What a tuple is printed as. -/
def line (tup : List α) : List (Token α) := tup.map .elem ++ [.endl]

theorem wp_traversalVec {Q : Unit → Refs α → Prop} :
    wp (traversalVec tup) Q s ↔ Q () { s with cout := s.cout ++ line tup } := by
  induction tup generalizing s with
  | nil =>
      rw [traversalVec, wp_modify]
      rfl
  | cons x tup ih =>
      simp only [traversalVec, wp_bind, wp_modify, ih, line, List.append_assoc, List.map_cons,
        List.cons_append, List.nil_append]

theorem wp_pushBack {Q : Unit → Refs α → Prop} : wp (pushBack x) Q s ↔
    Q () { s with dst := s.dst ++ [x], pushes := s.pushes + 1 } := by
  rw [pushBack, wp_modify]

theorem wp_popBack {Q : Unit → Refs α → Prop} :
    wp popBack Q s ↔ s.dst ≠ [] ∧ Q () { s with dst := s.dst.dropLast } := by
  simp only [popBack, wp_bind, wp_get, wp_ite, List.isEmpty_iff, wp_fault, wp_set]
  exact ⟨fun h => ⟨h.1, h.2 h.1⟩, fun h => ⟨h.1, fun _ => h.2⟩⟩

theorem wp_onLocal {m : Prog (Refs α) Unit} {Q : Unit → Refs α → Prop} : wp (onLocal tup m) Q s ↔
    wp m (fun a t => Q a { t with a := s.a }) { s with a := tup } := wp_zoom

/-- `erase` takes off the vector what `c` does not leave. -/
def Erases (erase : List α → ι → Prog (Refs α) (List α)) (c : Cut) : Prop :=
  ∀ {tup : List α} {i : ι} {k : ℕ} {s : Refs α} {Q : List α → Refs α → Prop},
    toInt i = k → k < tup.length → (wp (erase tup i) Q s ↔ Q (c.rest tup k) s)

theorem erases_eraseAt : Erases (α := α) (ι := ι) eraseAt others := by
  intro tup i k s Q hi hk
  rw [eraseAt, toIndex_of_toInt hi, if_pos hk, wp_pure]
  rfl

theorem erases_eraseUpTo : Erases (α := α) (ι := ι) eraseUpTo following := by
  intro tup i k s Q hi hk
  rw [eraseUpTo, toIndex_of_toInt hi, if_pos hk, wp_pure]
  rfl

/-! ## One round -/

theorem wp_generateRound_end {R : ι ⊕ Unit → Refs α → Prop} (hi : toInt i = k)
    (hk : s.a.length ≤ k) : wp (generateRound erase self n i) R s ↔ R (.inr ()) s := by
  simp only [generateRound, wp_bind, wp_get, toIndex_of_toInt hi, List.getElem?_eq_none hk, wp_pure]

/-- A round chooses the element at `k`: the recursive call is made on what
the choice leaves. -/
theorem wp_generateRound (he : Erases erase c) {R : ι ⊕ Unit → Refs α → Prop} (hi : toInt i = k)
    (hx : s.a[k]? = some x) : wp (generateRound erase self n i) R s ↔
      Fits ι (toInt n - 1) ∧ wp (self (ofInt (toInt n - 1)))
        (fun _ t => t.dst ≠ [] ∧ Fits ι (toInt i + 1) ∧
          R (.inl (ofInt (toInt i + 1))) { t with a := s.a, dst := t.dst.dropLast })
        { s with a := c.rest s.a k, dst := s.dst ++ [x], pushes := s.pushes + 1 } := by
  have hk := (List.getElem?_eq_some_iff.1 hx).1
  simp only [generateRound, wp_bind, wp_get, toIndex_of_toInt hi, hx, he hi hk, wp_pushBack,
    wp_arith, wp_onLocal, wp_popBack, wp_pure]

/-! ## A whole call -/

/-- What a generator that has to choose `k` more elements has done. -/
structure Generated (c : Cut) (k : ℕ) (s s' : Refs α) : Prop where
  a : s'.a = s.a
  dst : s'.dst = s.dst
  cout : s'.cout = s.cout ++ (enumerate c k s.a).flatMap fun tup => line (s.dst ++ tup)
  pushes : s'.pushes = s.pushes + choices c k s.a

/-- The same in the middle of the loop: `s'` is about to choose a head at
position `j`. -/
structure Generating (c : Cut) (k j : ℕ) (s t : Refs α) : Prop where
  a : t.a = s.a
  dst : t.dst = s.dst
  cout : t.cout ++ ((enumerateFrom c k j s.a).flatMap fun tup => line (s.dst ++ tup)) =
    s.cout ++ (enumerate c (k + 1) s.a).flatMap fun tup => line (s.dst ++ tup)
  pushes : t.pushes + choicesFrom c k j s.a = s.pushes + choices c (k + 1) s.a

theorem Generating.start : Generating c k 0 s s :=
  ⟨rfl, rfl, by rw [enumerate_succ], by rw [choices_succ]⟩

/-- The loop has run through the vector. -/
theorem Generating.finish (hg : Generating c k j s t) (hj : s.a.length ≤ j) :
    Generated c (k + 1) s t := by
  obtain ⟨ha, hdst, hcout, hpushes⟩ := hg
  rw [enumerateFrom_of_le hj, List.flatMap_nil, List.append_nil] at hcout
  rw [choicesFrom_of_le hj] at hpushes
  exact ⟨ha, hdst, hcout, hpushes⟩

/-- **One more head.** The call on what the choice of `x` leaves prints the
tuples with that head. -/
theorem Generating.next (hg : Generating c k j s t) (hx : s.a[j]? = some x)
    (hcall : Generated c k
      { t with a := c.rest t.a j, dst := t.dst ++ [x], pushes := t.pushes + 1 } s') :
    s'.dst ≠ [] ∧ Generating c k (j + 1) s { s' with a := t.a, dst := s'.dst.dropLast } := by
  obtain ⟨ha, hdst, hcout, hpushes⟩ := hg
  rw [ha, hdst] at hcall
  obtain ⟨-, hdst', hcout', hpushes'⟩ := hcall
  refine ⟨by rw [hdst']; simp, ha, by rw [hdst']; simp, ?_, ?_⟩
  · rw [enumerateFrom_cons hx, List.flatMap_append, List.flatMap_map, ← List.append_assoc] at hcout
    simp only [List.append_assoc, List.cons_append, List.nil_append] at hcout'
    rw [hcout', ← hcout]
  · rw [choicesFrom_cons hx] at hpushes
    simp only at hpushes' ⊢
    omega

/-- **A round of the loop** chooses the next head, when the recursive call
does what a generator does on anything shorter. -/
theorem wp_generateRound_next (he : Erases erase c) (hi : toInt i = j) (hx : s.a[j]? = some x)
    (hg : Generating c k j s t) (hfitn : Fits ι (toInt n - 1)) (hfiti : Fits ι (toInt i + 1))
    (hself : ∀ u : Refs α, u.a.length < s.a.length →
      wp (self (ofInt (toInt n - 1))) (fun _ s' => Generated c k u s') u) :
    wp (generateRound erase self n i)
      (fun r s' => ∃ i', r = .inl i' ∧ toInt i' = (j + 1 : ℕ) ∧ Generating c k (j + 1) s s') t := by
  have hrest : (c.rest t.a j).length < s.a.length := by
    rw [hg.a]
    exact c.rest_length_lt (List.getElem?_eq_some_iff.1 hx).1
  have hi' : toInt (ofInt (toInt i + 1) : ι) = (j + 1 : ℕ) := by
    rw [toInt_ofInt hfiti, hi]
    rfl
  rw [wp_generateRound he hi (by rwa [hg.a])]
  refine ⟨hfitn, wp_mono (hself _ hrest) fun _ s' hcall => ?_⟩
  obtain ⟨hdst, hnext⟩ := hg.next hx hcall
  exact ⟨hdst, hfiti, _, rfl, hi', hnext⟩

/-- **A generator prints the tuples of its enumeration**, in their order,
and leaves the vector and the tuple as they were, provided its counter can
run to the end of the vector. -/
theorem wp_generate (he : Erases erase c) {fuel : ℕ} (hn : toInt n = k)
    (hfit : k = 0 ∨ Fits ι s.a.length) (hf : s.a.length < fuel) :
    wp (generate erase fuel n) (fun _ s' => Generated c k s s') s := by
  induction fuel generalizing n k s with
  | zero => omega
  | succ fuel ih =>
      rw [generate, wp_ite, wp_bind, wp_get, wp_traversalVec]
      constructor
      · intro hzero
        obtain rfl : k = 0 := by omega
        refine ⟨rfl, rfl, ?_, rfl⟩
        rw [enumerate_zero, List.flatMap_singleton, List.append_nil]
      · intro hne
        obtain ⟨k, rfl⟩ := Nat.exists_eq_succ_of_ne_zero (by omega : k ≠ 0)
        have hlen : Fits ι s.a.length := hfit.resolve_left (Nat.succ_ne_zero k)
        have hpred : toInt n - 1 = k := by omega
        have hfitn : Fits ι (toInt n - 1) :=
          fits_of_nonneg (fits_toInt n) (by omega) (by omega)
        have hself : ∀ u : Refs α, u.a.length < s.a.length →
            wp (generate erase fuel (ofInt (toInt n - 1))) (fun _ s' => Generated c k u s') u := by
          intro u hu
          have hshort : u.a.length < fuel := by omega
          exact ih ((toInt_ofInt hfitn).trans hpred) (.inr (fits_natCast hlen hu.le)) hshort
        refine wp_loop (fun m i t => ∃ j : ℕ, toInt i = j ∧ m + j = s.a.length ∧
          Generating c k j s t) ?_ (fuel + 1) s.a.length (ofInt 0) s hf
          ⟨0, toInt_ofInt_zero, rfl, Generating.start⟩
        rintro m i t ⟨j, hi, hm, hg⟩
        cases hx : s.a[j]? with
        | none =>
            have hj := List.getElem?_eq_none_iff.1 hx
            rw [wp_generateRound_end hi (by rwa [hg.a]), round_inr]
            exact hg.finish hj
        | some x =>
            have hj := (List.getElem?_eq_some_iff.1 hx).1
            have hfiti : Fits ι (toInt i + 1) := fits_of_nonneg hlen (by omega) (by omega)
            refine wp_mono (wp_generateRound_next he hi hx hg hfitn hfiti hself) ?_
            rintro _ s' ⟨i', rfl, hi', hg'⟩
            exact ⟨m - 1, by omega, j + 1, hi', by omega, hg'⟩

/-- **The counter gets no further than its type.** On a vector it cannot
run through, a generator with something to choose never returns. -/
theorem not_wp_generate (he : Erases erase c) {Q : Unit → Refs α → Prop} {fuel : ℕ}
    (hn : toInt n ≠ 0) (hfit : ¬ Fits ι s.a.length) : ¬ wp (generate erase fuel n) Q s := by
  cases fuel with
  | zero => exact wp_fault
  | succ fuel =>
      rw [generate, if_neg hn]
      refine not_wp_loop (fun i t => 0 ≤ toInt i ∧ t.a = s.a) ?_ (fuel + 1) (ofInt 0) s
        ⟨by rw [toInt_ofInt_zero], rfl⟩
      rintro i t R ⟨hi, ha⟩ hround
      have hlt := toInt_lt_of_not_fits (x := i) hfit (Int.natCast_nonneg _)
      have hk : (toInt i).toNat < t.a.length := by
        rw [ha]
        omega
      rw [wp_generateRound he (Int.toNat_of_nonneg hi).symm (List.getElem?_eq_getElem hk)] at hround
      -- whatever the recursive call does, the counter is stepped and the vector restored
      obtain ⟨-, _, u, -, -, hfiti, hR⟩ := hround
      exact ⟨ofInt (toInt i + 1), { u with a := t.a, dst := u.dst.dropLast },
        ⟨by rw [toInt_ofInt hfiti]; omega, ha⟩, hR⟩

end Permutation

end BlocTest
