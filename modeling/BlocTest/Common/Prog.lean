import Mathlib.Tactic.Common
import Mathlib.Data.Nat.Notation
/-!
# Programs with a state and faults

The imperative language the rest of the development is written in: a
program reads and writes a state and either returns or stops at a fault.
`wp m Q s` says that `m`, run from `s`, returns and that its result and
final state satisfy `Q`, so it is total correctness, and a program that
faults or runs out of fuel satisfies it for no `Q`. Each construct has its
rule, stated as an equivalence so that `simp` runs programs with it.

Nothing here knows of any particular program.
-/

namespace BlocTest

/-- What stops a program before it returns. -/
inductive Fault where
  /-- A read or a write through the null pointer. -/
  | nullDeref
  /-- A read or a write of a cell that is not live: never allocated, or
  already freed. -/
  | deadCell
  /-- A free of a cell that is not live. -/
  | badFree
  /-- A signed operation whose result does not fit. -/
  | intOverflow
  /-- A division by zero. -/
  | divByZero
  /-- An index or a byte range outside its array. -/
  | outOfRange
  /-- The rounds a loop or a recursion was allowed have been used up. -/
  | outOfFuel
  deriving DecidableEq, Repr

/-- A program over the state `σ` returning an `α`. -/
abbrev Prog (σ α : Type) := StateT σ (Except Fault) α

namespace Prog

variable {σ τ α β : Type}

/-- Stop at a fault. -/
def fault (e : Fault) : Prog σ α := fun _ => .error e

/-- **Total correctness.** From `s` the program returns, and what it
returns and the state it leaves satisfy `Q`. -/
def wp (m : Prog σ α) (Q : α → σ → Prop) (s : σ) : Prop :=
  ∃ a s', m s = .ok (a, s') ∧ Q a s'

variable {m : Prog σ α} {Q Q' : α → σ → Prop} {s s' : σ}

/-! ## The rules of the constructs -/

@[simp] theorem wp_pure {a : α} : wp (pure a : Prog σ α) Q s ↔ Q a s := by
  constructor
  · intro h
    obtain ⟨b, t, h, hQ⟩ := h
    cases h
    exact hQ
  · intro hQ
    exact ⟨a, s, rfl, hQ⟩

@[simp] theorem wp_fault {e : Fault} : ¬ wp (fault e : Prog σ α) Q s := by
  intro h
  obtain ⟨a, t, h, -⟩ := h
  cases h

/-- **Sequencing.** The rest of the program is what the first part has to
establish. -/
@[simp] theorem wp_bind {f : α → Prog σ β} {R : β → σ → Prop} :
    wp (m >>= f) R s ↔ wp m (fun a t => wp (f a) R t) s := by
  change (∃ b u, (m s).bind (fun p => f p.1 p.2) = .ok (b, u) ∧ R b u) ↔
    ∃ a t, m s = .ok (a, t) ∧ ∃ b u, f a t = .ok (b, u) ∧ R b u
  cases hm : m s with
  | error e => simp [Except.bind]
  | ok p =>
      obtain ⟨a, t⟩ := p
      simp [Except.bind]

@[simp] theorem wp_map {f : α → β} {R : β → σ → Prop} :
    wp (f <$> m) R s ↔ wp m (fun a t => R (f a) t) s := by
  rw [map_eq_pure_bind, wp_bind]
  simp only [wp_pure]

@[simp] theorem wp_get {R : σ → σ → Prop} : wp (get : Prog σ σ) R s ↔ R s s := by
  constructor
  · intro h
    obtain ⟨a, t, h, hR⟩ := h
    cases h
    exact hR
  · intro hR
    exact ⟨s, s, rfl, hR⟩

@[simp] theorem wp_set {R : PUnit → σ → Prop} {t : σ} :
    wp (set t : Prog σ PUnit) R s ↔ R ⟨⟩ t := by
  constructor
  · intro h
    obtain ⟨a, u, h, hR⟩ := h
    cases h
    exact hR
  · intro hR
    exact ⟨⟨⟩, t, rfl, hR⟩

@[simp] theorem wp_modify {R : PUnit → σ → Prop} {f : σ → σ} :
    wp (modify f : Prog σ PUnit) R s ↔ R ⟨⟩ (f s) := by
  constructor
  · intro h
    obtain ⟨a, u, h, hR⟩ := h
    cases h
    exact hR
  · intro hR
    exact ⟨⟨⟩, f s, rfl, hR⟩

/-- A conditional is run by cases on its condition. -/
theorem wp_ite {c : Prop} [Decidable c] {m₁ m₂ : Prog σ α} :
    wp (if c then m₁ else m₂) Q s ↔ (c → wp m₁ Q s) ∧ (¬ c → wp m₂ Q s) := by
  by_cases hc : c <;> simp [hc]

/-! ## Consequence, and what a run determines -/

/-- **Consequence.** A weaker postcondition holds of the same run. -/
theorem wp_mono (h : wp m Q s) (hQ : ∀ a t, Q a t → Q' a t) : wp m Q' s := by
  obtain ⟨a, t, hm, hq⟩ := h
  exact ⟨a, t, hm, hQ a t hq⟩

/-- What does not depend on the run may be established apart from it. -/
theorem wp_and_left {p : Prop} : wp m (fun a t => p ∧ Q a t) s ↔ p ∧ wp m Q s := by
  constructor
  · intro h
    obtain ⟨a, t, hm, hp, hQ⟩ := h
    exact ⟨hp, a, t, hm, hQ⟩
  · intro h
    exact wp_mono h.2 fun a t hQ => ⟨h.1, hQ⟩

/-- A program whose run is known has the postconditions of that run. -/
theorem wp_of_eq {a : α} (h : m s = .ok (a, s')) : wp m Q s ↔ Q a s' := by
  constructor
  · intro h
    obtain ⟨b, t, hm, hQ⟩ := h
    rw [h] at hm
    cases hm
    exact hQ
  · intro hQ
    exact ⟨a, s', h, hQ⟩

/-- What follows a run that returned. -/
theorem bind_ok {f : α → Prog σ β} {a : α} (h : m s = .ok (a, s')) : (m >>= f) s = f a s' := by
  change (m s).bind (fun p => f p.1 p.2) = f a s'
  rw [h]
  rfl

/-- A run that stops at a fault stops there. -/
theorem bind_error {f : α → Prog σ β} {e : Fault} (h : m s = .error e) :
    (m >>= f) s = .error e := by
  change (m s).bind (fun p => f p.1 p.2) = .error e
  rw [h]
  rfl

/-- What some run of a program whose run is known satisfies, that run does. -/
theorem exists_run_iff {a : α} {P : σ → Prop} (h : m s = .ok (a, s')) :
    (∃ t, m s = .ok (a, t) ∧ P t) ↔ P s' := by
  constructor
  · intro h
    obtain ⟨t, ht, hP⟩ := h
    rw [h] at ht
    cases ht
    exact hP
  · exact fun hP => ⟨s', h, hP⟩

/-- The strongest postcondition is the run itself. -/
theorem eq_of_wp {a : α} (h : wp m (fun b t => b = a ∧ t = s') s) : m s = .ok (a, s') := by
  obtain ⟨b, t, hm, rfl, rfl⟩ := h
  exact hm

/-! ## Loops

`loop body fuel b` runs `body` on the loop's variables until it answers
with a result, for at most `fuel` rounds. -/

/-- Run `body` until it answers `.inr`, for at most the given number of
rounds. -/
def loop (body : β → Prog σ (β ⊕ α)) : ℕ → β → Prog σ α
  | 0, _ => fault .outOfFuel
  | fuel + 1, b => do
      match ← body b with
      | .inl b' => loop body fuel b'
      | .inr a => pure a

/-- What a round owes: the invariant at a smaller measure if the loop goes
on, the postcondition if it stops. -/
def Round (Inv : ℕ → β → σ → Prop) (Q : α → σ → Prop) (n : ℕ) : β ⊕ α → σ → Prop
  | .inl b, t => ∃ k, k < n ∧ Inv k b t
  | .inr a, t => Q a t

@[simp] theorem round_inl {Inv : ℕ → β → σ → Prop} {n : ℕ} {b : β} :
    Round Inv Q n (.inl b) s ↔ ∃ k, k < n ∧ Inv k b s := Iff.rfl

@[simp] theorem round_inr {Inv : ℕ → β → σ → Prop} {n : ℕ} {a : α} :
    Round Inv Q n (.inr a) s ↔ Q a s := Iff.rfl

/-- **The loop rule.** An invariant each round re-establishes at a smaller
measure carries the loop to its postcondition, within any fuel above the
measure it starts at. -/
theorem wp_loop {body : β → Prog σ (β ⊕ α)} (Inv : ℕ → β → σ → Prop)
    (hround : ∀ n b t, Inv n b t → wp (body b) (Round Inv Q n) t) :
    ∀ (fuel n : ℕ) (b : β) (t : σ), n < fuel → Inv n b t → wp (loop body fuel b) Q t := by
  intro fuel
  induction fuel with
  | zero => intro n b t hn; omega
  | succ fuel ih =>
      intro n b t hn hInv
      rw [loop, wp_bind]
      refine wp_mono (hround n b t hInv) fun r u hr => ?_
      cases r with
      | inl b' =>
          obtain ⟨k, hk, hInv'⟩ := hr
          exact ih k b' u (by omega) hInv'
      | inr a => exact wp_pure.2 hr

/-- **A loop that cannot stop.** If no round that returns answers with a
result, and each re-establishes the invariant, the loop never returns,
whatever its fuel. -/
theorem not_wp_loop {body : β → Prog σ (β ⊕ α)} (Inv : β → σ → Prop)
    (hround : ∀ b t R, Inv b t → wp (body b) R t → ∃ b' u, Inv b' u ∧ R (.inl b') u) :
    ∀ (fuel : ℕ) (b : β) (t : σ), Inv b t → ¬ wp (loop body fuel b) Q t := by
  intro fuel
  induction fuel with
  | zero => exact fun b t _ => wp_fault
  | succ fuel ih =>
      intro b t hInv hwp
      rw [loop, wp_bind] at hwp
      obtain ⟨b', u, hInv', hrest⟩ := hround b t _ hInv hwp
      exact ih b' u hInv' hrest

/-! ## Loops over a list

`forReturn body xs` runs `body` on the elements of `xs`, in order, until it
returns a result from the function the loop is in. -/

/-- Run `body` on each element in turn, until it returns. -/
def forReturn (body : β → Prog σ (Option α)) : List β → Prog σ (Option α)
  | [] => pure none
  | x :: xs => do
      match ← body x with
      | none => forReturn body xs
      | some a => pure (some a)

/-- What a pass owes: the invariant if the loop goes on, the postcondition if
the function returns. -/
def Pass (Inv : σ → Prop) (Q : Option α → σ → Prop) : Option α → σ → Prop
  | none, t => Inv t
  | some a, t => Q (some a) t

@[simp] theorem pass_none {Inv : σ → Prop} {Q : Option α → σ → Prop} :
    Pass Inv Q none s ↔ Inv s := Iff.rfl

@[simp] theorem pass_some {Inv : σ → Prop} {Q : Option α → σ → Prop} {a : α} :
    Pass Inv Q (some a) s ↔ Q (some a) s := Iff.rfl

/-- **The rule of a loop over a list.** `Inv k` is what holds before the pass
over the element at `k`. -/
theorem wp_forReturn {body : β → Prog σ (Option α)} {Q : Option α → σ → Prop} {xs : List β}
    (Inv : ℕ → σ → Prop)
    (hpass : ∀ k x t, xs[k]? = some x → Inv k t → wp (body x) (Pass (Inv (k + 1)) Q) t)
    (hend : ∀ t, Inv xs.length t → Q none t) (hs : Inv 0 s) : wp (forReturn body xs) Q s := by
  induction xs generalizing Inv s with
  | nil => exact wp_pure.2 (hend s hs)
  | cons x xs ih =>
      rw [forReturn, wp_bind]
      refine wp_mono (hpass 0 x s rfl hs) fun r t hr => ?_
      cases r with
      | none => exact ih (fun k => Inv (k + 1)) (fun k y u hy => hpass (k + 1) y u hy) hend hr
      | some a => exact wp_pure.2 hr

/-- The same for a loop over the first `n` numbers. -/
theorem wp_forReturn_range {body : ℕ → Prog σ (Option α)} {Q : Option α → σ → Prop} {n : ℕ}
    (Inv : ℕ → σ → Prop)
    (hpass : ∀ k t, k < n → Inv k t → wp (body k) (Pass (Inv (k + 1)) Q) t)
    (hend : ∀ t, Inv n t → Q none t) (hs : Inv 0 s) :
    wp (forReturn body (List.range n)) Q s := by
  refine wp_forReturn Inv (fun k x t hx ht => ?_) (fun t ht => hend t ?_) hs
  · obtain ⟨hk, rfl⟩ := List.getElem?_eq_some_iff.1 hx
    rw [List.getElem_range]
    exact hpass k t (by simpa using hk) ht
  · rwa [List.length_range] at ht

/-- The rule of a loop over a list that runs to its end. -/
theorem wp_forM {body : β → Prog σ PUnit} {Q : PUnit → σ → Prop} {xs : List β}
    (Inv : ℕ → σ → Prop)
    (hpass : ∀ k x t, xs[k]? = some x → Inv k t → wp (body x) (fun _ => Inv (k + 1)) t)
    (hend : ∀ t, Inv xs.length t → Q ⟨⟩ t) (hs : Inv 0 s) : wp (xs.forM body) Q s := by
  induction xs generalizing Inv s with
  | nil => exact wp_pure.2 (hend s hs)
  | cons x xs ih =>
      rw [List.forM_eq_forM, List.forM_cons, wp_bind]
      refine wp_mono (hpass 0 x s rfl hs) fun _ t ht => ?_
      exact ih (fun k => Inv (k + 1)) (fun k y u hy => hpass (k + 1) y u hy) hend ht

/-! ## Programs over a part of the state -/

/-- Run a program over a component of the state, leaving the rest alone. -/
def zoom (look : σ → τ) (store : σ → τ → σ) (m : Prog τ α) : Prog σ α := fun s =>
  match m (look s) with
  | .ok (a, t) => .ok (a, store s t)
  | .error e => .error e

/-- A program on a part of the state leaves the rest. -/
@[simp] theorem wp_zoom {look : σ → τ} {store : σ → τ → σ} {m : Prog τ α} :
    wp (zoom look store m) Q s ↔ wp m (fun a t => Q a (store s t)) (look s) := by
  cases hm : m (look s) with
  | error e => simp [wp, zoom, hm]
  | ok p =>
      obtain ⟨a, t⟩ := p
      simp [wp, zoom, hm]

/-- Call a function that reads and writes none of the state. -/
def call (m : Prog Unit α) : Prog σ α := zoom (fun _ => ()) (fun s _ => s) m

/-- A call that has its own state leaves the caller's. -/
@[simp] theorem wp_call {m : Prog Unit α} : wp (call m) Q s ↔ wp m (fun a _ => Q a s) () :=
  wp_zoom

end Prog

end BlocTest
