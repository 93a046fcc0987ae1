import BlocTest.Kconfig.Helpers.Equality
/-!
# Comparing expressions

`expr_eliminate_yn`, `expr_eq` and `expr_eliminate_eq`: what each leaves of
its arguments, and what their results say of the values.
-/

namespace BlocTest

namespace Kconfig

variable {tab : SymbolTable} {e e' : Expr} {type : Junction}

/-! ## An expression and its copy

The operands of an expression are taken out of its copy in order, so that
each one meets itself first among those that are left. -/

/-- A cluster that has only `y` and `n` for operands. -/
def Expr.Spent (type : Junction) : Expr → Prop
  | two t l r => t = type ∧ l.Spent type ∧ r.Spent type
  | symbol sym => sym = .yes ∨ sym = .no
  | _ => False

/-- The part `s` of a cluster is turned into `s'`, and what is left of it is spent. -/
inductive Facing (type : Junction) (s s' : Expr) : Expr → Expr → Prop
  | here : Facing type s s' s s'
  | left {l l' r : Expr} (h : Facing type s s' l l') :
      Facing type s s' (.two type l r) (.two type l' r)
  | right {l r r' : Expr} (hl : l.Spent type) (h : Facing type s s' r r') :
      Facing type s s' (.two type l r) (.two type l r')

/-- A part that stays as it is leaves the whole as it is. -/
theorem Facing.self {s : Expr} (h : Facing type s s e e') : e' = e := by
  induction h with
  | here => rfl
  | left _ ih => rw [ih]
  | right _ _ ih => rw [ih]

/-- A part that is a node is its left side first and then its right side. -/
theorem Facing.parts {l r l' r' : Expr} (hl' : l'.Spent type)
    (h : Facing type (.two type l r) (.two type l' r') e e') :
    ∃ m, Facing type l l' e m ∧ Facing type r r' m e' := by
  induction h with
  | here => exact ⟨_, .left .here, .right hl' .here⟩
  | left _ ih =>
      obtain ⟨m, hl, hr⟩ := ih
      exact ⟨_, .left hl, .left hr⟩
  | right hs _ ih =>
      obtain ⟨m, hl, hr⟩ := ih
      exact ⟨_, .right hs hl, .right hs hr⟩

/-- The operands of a node of the operation are its two sides. -/
theorem operands_two (type : Junction) (l r : Expr) :
    (Expr.two type l r).operands type = some (l, r) := by
  simp [Expr.operands]

/-- A symbol is equal to itself only. -/
theorem eq_of_exprEq_symbol_left {sym : SymPtr} (h : exprEq (.symbol sym) e = true) :
    e = .symbol sym := by
  rw [exprEq.eq_def] at h
  cases e with
  | symbol s => rw [of_decide_eq_true h]
  | _ => cases h

/-- And nothing else is equal to a symbol. -/
theorem eq_of_exprEq_symbol_right {sym : SymPtr} (h : exprEq e (.symbol sym) = true) :
    e = .symbol sym := by
  rw [exprEq.eq_def] at h
  cases e with
  | symbol s => rw [of_decide_eq_true h]
  | _ => cases h

/-- Nothing is taken out for a `y` or an `n` of the first expression. -/
theorem eliminated_constant {sym : SymPtr} (h : sym = .yes ∨ sym = .no) (e : Expr) :
    eliminated type (.symbol sym) e = (.symbol sym, e) := by
  generalize hn : e.size = n
  induction n using Nat.strong_induction_on generalizing e with
  | _ n ih =>
      subst hn
      match h2 : e.operands type with
      | some (l, r) =>
          have hsize := Expr.size_of_operands h2
          rw [eliminated_right rfl h2, ih l.size (by omega) l rfl, ih r.size (by omega) r rfl,
            ← Expr.eq_two_of_operands h2]
      | none =>
          rw [eliminated_operands rfl h2]
          split_ifs with hsame heq
          · rfl
          · refine absurd ⟨?_, (eq_of_exprEq_symbol_left heq).symm⟩ hsame
            exact h.imp (congrArg Expr.symbol) (congrArg Expr.symbol)
          · rfl

/-- Nothing is taken out of an expression that is spent. -/
theorem eliminated_spent {x d : Expr} (hx : x.operands type = none) (hd : d.Spent type) :
    eliminated type x d = (x, d) := by
  induction d with
  | two t l r ihl ihr =>
      obtain ⟨rfl, hl, hr⟩ := hd
      rw [eliminated_right hx (operands_two t l r), ihl hl, ihr hr]
  | symbol sym =>
      rw [eliminated_operands hx rfl]
      split_ifs with hsame heq
      · rfl
      · have hx := eq_of_exprEq_symbol_right heq
        subst hx
        exact absurd ⟨hd.imp (congrArg Expr.symbol) (congrArg Expr.symbol), rfl⟩ hsame
      · rfl
  | _ => cases hd

/-- An operand takes itself out of the copy. -/
theorem eliminated_facing_operand {s : Expr} (hs : s.operands type = none)
    (hrefl : exprEq s s = true) :
    ∃ s', s'.Spent type ∧ ∀ e e', Facing type s s' e e' → eliminated type s e = (s', e') := by
  by_cases hconst : s = .symbol .yes ∨ s = .symbol .no
  · refine ⟨s, ?_, fun e e' h => ?_⟩
    · obtain rfl | rfl := hconst
      · exact .inl rfl
      · exact .inr rfl
    · rw [h.self]
      obtain rfl | rfl := hconst
      · exact eliminated_constant (.inl rfl) e
      · exact eliminated_constant (.inr rfl) e
  · have hunit : type.unit = .yes ∨ type.unit = .no := by
      cases type
      · exact .inr rfl
      · exact .inl rfl
    refine ⟨.symbol type.unit, hunit, fun e e' h => ?_⟩
    induction h with
    | here =>
        rw [eliminated_operands hs hs, if_neg fun h => hconst h.1, if_pos hrefl]
    | left _ ih =>
        rw [eliminated_right hs (operands_two type _ _), ih, eliminated_constant hunit]
    | right hl _ ih =>
        rw [eliminated_right hs (operands_two type _ _), eliminated_spent hs hl, ih]

/-- A part takes itself out of the copy, if its operands are found equal to
themselves. -/
theorem eliminated_facing {n : ℕ} (hrefl : ∀ x : Expr, x.size < n → exprEq x x = true) (s : Expr)
    (hs : s.size ≤ n) (hlt : s.operands type = none → s.size < n) :
    ∃ s', s'.Spent type ∧ ∀ e e', Facing type s s' e e' → eliminated type s e = (s', e') := by
  generalize hm : s.size = m
  induction m using Nat.strong_induction_on generalizing s with
  | _ m ih =>
      subst hm
      match hops : s.operands type with
      | some (l, r) =>
          have hsize := Expr.size_of_operands hops
          obtain ⟨l', hl', hl⟩ := ih l.size (by omega) l (by omega) (by omega) rfl
          obtain ⟨r', hr', hr⟩ := ih r.size (by omega) r (by omega) (by omega) rfl
          refine ⟨.two type l' r', ⟨rfl, hl', hr'⟩, fun e e' h => ?_⟩
          rw [Expr.eq_two_of_operands hops] at h
          obtain ⟨m, hleft, hright⟩ := h.parts hl'
          rw [eliminated_left hops, hl e m hleft, hr m e' hright]
      | none => exact eliminated_facing_operand hops (hrefl s (hlt hops))

/-- A spent cluster comes down to `y` or `n`. -/
theorem exprEliminateYn_of_spent {s : Expr} (h : s.Spent type) :
    exprEliminateYn s = .symbol .yes ∨ exprEliminateYn s = .symbol .no := by
  induction s with
  | two t l r ihl ihr =>
      obtain ⟨-, hl, hr⟩ := h
      cases t <;> obtain hl | hl := ihl hl <;> obtain hr | hr := ihr hr <;>
        simp [exprEliminateYn, hl, hr]
  | symbol sym =>
      obtain rfl | rfl := h
      · exact .inl rfl
      · exact .inr rfl
  | _ => cases h

/-- When the walk leaves one remainder of an expression and its copy, the
second walk finds nothing more to take out. -/
theorem exprEliminateEq_self {s : Expr} (hj : e.junction = some type)
    (h : eliminated type e e = (s, s)) :
    exprEliminateEq e e = (exprEliminateYn s, exprEliminateYn s) := by
  obtain ⟨p, q, hp, hq, hpq⟩ := exprEliminateEq_cases e e
  have hps : p = (s, s) := by
    obtain ⟨hnone, -⟩ | ⟨t, ht, hp⟩ := hp
    · rw [hj] at hnone
      cases hnone
    · rw [hj] at ht
      cases ht
      rw [hp, h]
  subst hps
  obtain ⟨-, rfl⟩ | ⟨t, ht, hne, -⟩ := hq
  · exact hpq
  · exact absurd ht hne

/-- An expression is equal to itself. -/
theorem exprEq_self (e : Expr) : exprEq e e = true := by
  generalize hn : e.size = n
  induction n using Nat.strong_induction_on generalizing e with
  | _ n ih =>
      subst hn
      rw [exprEq.eq_def]
      cases e with
      | symbol sym => exact decide_eq_true rfl
      | comp type l r => exact decide_eq_true ⟨rfl, rfl, rfl⟩
      | not e => exact ih e.size (by simp only [Expr.size]; omega) e rfl
      | two type l r =>
          obtain ⟨s, hs, hspent⟩ := eliminated_facing (fun x hx => ih x.size hx x rfl)
            (.two type l r) (Nat.le_refl _) (fun h => by rw [operands_two] at h; cases h)
          have hself := exprEliminateEq_self rfl (hspent _ _ .here)
          simp only [if_true]
          obtain h | h := exprEliminateYn_of_spent hs
          · rw [hself, h]
            rfl
          · rw [hself, h]
            rfl

/-! ## The three functions -/

/-- **Removing `y` and `n`.** The value is kept, no operand that is left
outside negations is `y` or `n`, and exactly the expressions without such
operands are left as they are. -/
theorem exprEliminateYn_reduces (tab : SymbolTable) (e : Expr) :
    (∀ cfg : Config tab, (exprEliminateYn e).calcValue cfg = e.calcValue cfg) ∧
      (exprEliminateYn e).Reduced ∧ (exprEliminateYn e = e ↔ e.Reduced) := by
  refine ⟨fun cfg => calcValue_exprEliminateYn e, reduced_exprEliminateYn e, ?_, ?_⟩
  · intro h
    rw [← h]
    exact reduced_exprEliminateYn e
  · exact exprEliminateYn_of_reduced

/-- **`expr_eq` is sound.** An expression is equal to its copy, and two that
are found equal have one value in every configuration. -/
theorem exprEq_sound (tab : SymbolTable) :
    (∀ e, exprEq e e = true) ∧ ∀ e1 e2, exprEq e1 e2 = true →
      ∀ cfg : Config tab, e1.calcValue cfg = e2.calcValue cfg :=
  ⟨exprEq_self, fun _ _ h _ => calcValue_eq_of_exprEq h⟩

/-- **What `expr_eliminate_eq` leaves decides for what it was given.** The
remainders are reduced outside negations, and where they stand in an order,
the two expressions stand in it too. -/
theorem exprEliminateEq_orders (tab : SymbolTable) (e1 e2 : Expr) (cfg : Config tab) :
    (exprEliminateEq e1 e2).1.Reduced ∧ (exprEliminateEq e1 e2).2.Reduced ∧
      ((exprEliminateEq e1 e2).1.calcValue cfg ≤ (exprEliminateEq e1 e2).2.calcValue cfg →
        e1.calcValue cfg ≤ e2.calcValue cfg) ∧
      ((exprEliminateEq e1 e2).2.calcValue cfg ≤ (exprEliminateEq e1 e2).1.calcValue cfg →
        e2.calcValue cfg ≤ e1.calcValue cfg) := by
  obtain ⟨p, q, -, -, hpq⟩ := exprEliminateEq_cases e1 e2
  have hordered := orderedAs_exprEliminateEq cfg e1 e2
  refine ⟨?_, ?_, hordered.1, hordered.2⟩
  · rw [hpq]
    exact reduced_exprEliminateYn q.1
  · rw [hpq]
    exact reduced_exprEliminateYn q.2

end Kconfig

end BlocTest
