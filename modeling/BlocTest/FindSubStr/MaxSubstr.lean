import BlocTest.FindSubStr.Helpers.FindSubStr
import Mathlib.Data.List.Chain
/-!
# `max_substr`, call after call

The running maximum is a static, so it outlives the call: a later call goes
on from what the one before returned, and does not look at the first string
of its vector. Its answer is right only when the first longest string of the
new vector is the one returned before, or is found after the first string
and is longer than anything in the vector before.
-/

namespace BlocTest

namespace FindSubStr

open Prog

variable {α : Type} {m m' : Globals α} {v v' : List (List α)} {vs : List (List (List α))}
variable {first l f r : List α} {rest : List (List α)} {fuel : ℕ}

/-- When a call on `v'` is right after a right call on `v`. -/
def Renews (v v' : List (List α)) : Prop :=
  ∃ f, FirstLongest v' f ∧
    (FirstLongest v f ∨ FirstLongest v'.tail f ∧ ∀ x ∈ v, x.length < f.length)

/-- What a string is compared with first does not matter when it is shorter
than the first longest. -/
theorem FirstLongest.cons (h : FirstLongest rest f) (hl : l.length < f.length) :
    FirstLongest (l :: rest) f := by
  obtain ⟨pre, post, rfl, hpre, hpost⟩ := h
  refine ⟨l :: pre, post, rfl, fun x hx => ?_, hpost⟩
  rcases List.mem_cons.1 hx with rfl | hx
  · exact hl
  · exact hpre x hx

/-- The first longest string is the first one, or the first longest of the
others and longer than it. -/
theorem FirstLongest.cases (h : FirstLongest (l :: rest) r) :
    r = l ∨ FirstLongest rest r ∧ l.length < r.length := by
  obtain ⟨pre, post, hsplit, hpre, hpost⟩ := h
  cases pre with
  | nil =>
      rw [List.nil_append, List.cons.injEq] at hsplit
      exact .inl hsplit.1.symm
  | cons a pre =>
      rw [List.cons_append, List.cons.injEq] at hsplit
      obtain ⟨rfl, rfl⟩ := hsplit
      refine .inr ⟨⟨pre, post, rfl, fun x hx => hpre x ?_, hpost⟩, hpre _ List.mem_cons_self⟩
      exact List.mem_cons_of_mem _ hx

/-- A first string that none of the others beats is the first longest. -/
theorem FirstLongest.head (h : ∀ x ∈ rest, x.length ≤ f.length) : FirstLongest (f :: rest) f :=
  ⟨[], rest, rfl, fun _ hx => absurd hx List.not_mem_nil, h⟩

/-- **When a later call is right.** -/
theorem firstLongest_foldl_iff (hl : FirstLongest v l) :
    FirstLongest (first :: rest) (rest.foldl longer l) ↔ Renews v (first :: rest) := by
  have hr := firstLongest_foldl l rest
  constructor
  · intro h
    refine ⟨_, h, ?_⟩
    rcases hr.cases with heq | ⟨htail, hlt⟩
    · rw [heq]
      exact .inl hl
    · refine .inr ⟨htail, fun x hx => ?_⟩
      have := hl.length_le hx
      omega
  · intro h
    obtain ⟨f, hf, hcase⟩ := h
    have hlast : FirstLongest (l :: rest) f := by
      rcases hcase with hsame | ⟨htail, hlonger⟩
      · rw [hl.unique hsame]
        exact FirstLongest.head fun x hx => hf.length_le (List.mem_cons_of_mem _ hx)
      · exact htail.cons (hlonger l hl.mem)
    rwa [hr.unique hlast]

/-! ## A run of calls -/

/-- One call, as an equation: it returns what it leaves in the static. -/
theorem maxSubstr_eq (hint : (first :: rest).length < 2 ^ 31)
    (hf : (first :: rest).length ≤ fuel) :
    maxSubstr fuel (first :: rest) m = .ok (rest.foldl longer (m.longest.getD first),
      { m with longest := some (rest.foldl longer (m.longest.getD first)) }) := by
  refine eq_of_wp (wp_mono (wp_maxSubstr hint hf) ?_)
  rintro _ _ ⟨rfl, rfl⟩
  exact ⟨rfl, rfl⟩

/-- **One call of a run**: it has to be right, and the rest goes on from
what it leaves in the static. -/
theorem wp_maxSubstrs_cons (hf : (first :: rest).length ≤ fuel)
    (hr : rest.foldl longer (m.longest.getD first) = r) :
    wp (maxSubstrs fuel ((first :: rest) :: vs))
      (fun answers _ => List.Forall₂ FirstLongest ((first :: rest) :: vs) answers) m ↔
    (first :: rest).length < 2 ^ 31 ∧ FirstLongest (first :: rest) r ∧
      wp (maxSubstrs fuel vs) (fun answers _ => List.Forall₂ FirstLongest vs answers)
        { m with longest := some r } := by
  subst hr
  rw [maxSubstrs, wp_bind]
  by_cases hint : (first :: rest).length < 2 ^ 31
  · rw [wp_of_eq (maxSubstr_eq hint hf), and_iff_right hint]
    simp only [wp_bind, wp_pure, List.forall₂_cons]
    rw [wp_and_left]
  · refine iff_of_false (not_wp_maxSubstr (by omega)) fun h => ?_
    exact hint h.1

/-- **The calls after a right call on `v`** are all right exactly when each
renews the one before it. -/
theorem wp_maxSubstrs_iff (hm : m.longest = some l) (hl : FirstLongest v l)
    (hne : ∀ v ∈ vs, v ≠ []) (hf : ∀ v ∈ vs, v.length ≤ fuel) :
    wp (maxSubstrs fuel vs) (fun answers _ => List.Forall₂ FirstLongest vs answers) m ↔
      (∀ v ∈ vs, v.length < 2 ^ 31) ∧ (v :: vs).IsChain Renews := by
  induction vs generalizing m v l with
  | nil =>
      rw [maxSubstrs, wp_pure]
      exact iff_of_true .nil ⟨fun v hv => absurd hv List.not_mem_nil, .singleton v⟩
  | cons v' vs ih =>
      rw [List.forall_mem_cons] at hne hf
      obtain ⟨first, rest, rfl⟩ := List.exists_cons_of_ne_nil hne.1
      have hr : rest.foldl longer (m.longest.getD first) = rest.foldl longer l := by
        rw [hm, Option.getD_some]
      rw [wp_maxSubstrs_cons hf.1 hr, List.forall_mem_cons, List.isChain_cons_cons, and_assoc,
        firstLongest_foldl_iff hl]
      refine and_congr_right fun _ => ?_
      rw [and_left_comm]
      refine and_congr_right fun hren => ?_
      exact ih rfl ((firstLongest_foldl_iff hl).2 hren) hne.2 hf.2

/-- **Every call is right exactly when** no vector has `2 ^ 31` strings or
more and each call renews the one before it: the first longest string of its
vector is that of the vector before, or is the first longest after the
vector's first string and longer than every string of the vector before. -/
theorem maxSubstrs_right_iff (vs : List (List (List α))) (m : Globals α) (fuel : ℕ)
    (hm : m.longest = none) (hne : ∀ v ∈ vs, v ≠ []) (hf : ∀ v ∈ vs, v.length ≤ fuel) :
    (∃ answers m', maxSubstrs fuel vs m = .ok (answers, m') ∧
      List.Forall₂ FirstLongest vs answers) ↔
    (∀ v ∈ vs, v.length < 2 ^ 31) ∧ vs.IsChain Renews := by
  change wp (maxSubstrs fuel vs) (fun answers _ => List.Forall₂ FirstLongest vs answers) m ↔ _
  cases vs with
  | nil =>
      rw [maxSubstrs, wp_pure]
      exact iff_of_true .nil ⟨fun v hv => absurd hv List.not_mem_nil, .nil⟩
  | cons v vs =>
      rw [List.forall_mem_cons] at hne hf
      obtain ⟨first, rest, rfl⟩ := List.exists_cons_of_ne_nil hne.1
      -- the first call has no history
      have hfirst := firstLongest_foldl first rest
      have hr : rest.foldl longer (m.longest.getD first) = rest.foldl longer first := by
        rw [hm, Option.getD_none]
      rw [wp_maxSubstrs_cons hf.1 hr, List.forall_mem_cons, and_assoc, and_iff_right hfirst]
      exact and_congr_right fun _ => wp_maxSubstrs_iff rfl hfirst hne.2 hf.2

/-- A later vector with a longer string, not in front. -/
theorem maxSubstrs_right_iff_two :
    (∃ answers m', maxSubstrs 2 [[[1], [1, 2]], [[3], [1, 2, 3]]] (fresh []) =
        .ok (answers, m') ∧
      List.Forall₂ FirstLongest [[[1], [1, 2]], [[3], [1, 2, 3]]] answers) ↔
    (∀ v ∈ [[[1], [1, 2]], [[3], [1, 2, 3]]], v.length < 2 ^ 31) ∧
      [[[1], [1, 2]], [[3], [1, 2, 3]]].IsChain Renews :=
  maxSubstrs_right_iff [[[1], [1, 2]], [[3], [1, 2, 3]]] (fresh ([] : List ℕ)) 2 rfl (by decide)
    (by decide)

/-- The second call answers with a string its vector does not have. -/
theorem maxSubstrs_stale :
    maxSubstrs 2 [["aaa".toList], ["b".toList]] (fresh []) =
      .ok (["aaa".toList, "aaa".toList], { fresh [] with longest := some "aaa".toList }) ∧
    "aaa".toList ∉ ["b".toList] := by
  decide

end FindSubStr

end BlocTest
