import BlocTest.Kconfig.Helpers.Values
/-!
# Taking common operands out of two expressions

What `__expr_eliminate_eq` takes out of two clusters is a factor they had in
common, so what is known of the remainders is known of the expressions.
-/

namespace BlocTest

namespace Kconfig

variable {tab : SymbolTable} {cfg : Config tab}

/-! ## `expr_eliminate_yn` -/

/-- What is removed is neutral, or decides the value of its node. -/
theorem calcValue_exprEliminateYn (e : Expr) :
    (exprEliminateYn e).calcValue cfg = e.calcValue cfg := by
  induction e with
  | two type l r ihl ihr =>
      rw [calcValue_two, ← ihl, ← ihr]
      cases type with
      | and =>
          simp only [exprEliminateYn]
          split_ifs with hl hl hr hr
          · rw [hl]
            cases (exprEliminateYn r).calcValue cfg <;> rfl
          · rw [hl]
            cases (exprEliminateYn r).calcValue cfg <;> rfl
          · rw [hr]
            cases (exprEliminateYn l).calcValue cfg <;> rfl
          · rw [hr]
            cases (exprEliminateYn l).calcValue cfg <;> rfl
          · rfl
      | or =>
          simp only [exprEliminateYn]
          split_ifs with hl hl hr hr
          · rw [hl]
            cases (exprEliminateYn r).calcValue cfg <;> rfl
          · rw [hl]
            cases (exprEliminateYn r).calcValue cfg <;> rfl
          · rw [hr]
            cases (exprEliminateYn l).calcValue cfg <;> rfl
          · rw [hr]
            cases (exprEliminateYn l).calcValue cfg <;> rfl
          · rfl
  | _ => rfl

/-- Neither `y` nor `n` is an operand of an `||` or an `&&` outside negations;
what is negated `expr_eliminate_yn` does not look at. -/
def Expr.Reduced : Expr → Prop
  | two _ l r => (l ≠ symbol .yes ∧ l ≠ symbol .no ∧ l.Reduced) ∧
      (r ≠ symbol .yes ∧ r ≠ symbol .no ∧ r.Reduced)
  | _ => True

/-- What is returned has no such operand. -/
theorem reduced_exprEliminateYn (e : Expr) : (exprEliminateYn e).Reduced := by
  induction e with
  | two type l r ihl ihr =>
      cases type with
      | and =>
          simp only [exprEliminateYn]
          split_ifs with hno hyes hno' hyes'
          · trivial
          · exact ihr
          · trivial
          · exact ihl
          · exact ⟨⟨hyes, hno, ihl⟩, hyes', hno', ihr⟩
      | or =>
          simp only [exprEliminateYn]
          split_ifs with hno hyes hno' hyes'
          · exact ihr
          · trivial
          · exact ihl
          · trivial
          · exact ⟨⟨hyes, hno, ihl⟩, hyes', hno', ihr⟩
  | _ => trivial

/-- Without such an operand nothing is removed. -/
theorem exprEliminateYn_of_reduced {e : Expr} (h : e.Reduced) : exprEliminateYn e = e := by
  induction e with
  | two type l r ihl ihr =>
      obtain ⟨⟨hly, hln, hl⟩, hry, hrn, hr⟩ := h
      cases type <;> simp [exprEliminateYn, ihl hl, ihr hr, hly, hln, hry, hrn]
  | _ => rfl

/-- Nothing is added. -/
theorem size_exprEliminateYn_le (e : Expr) : (exprEliminateYn e).size ≤ e.size := by
  induction e with
  | two type l r ihl ihr =>
      have hl := l.size_pos
      cases type <;> simp only [exprEliminateYn] <;> split_ifs <;>
        simp only [Expr.size] at * <;> omega
  | _ => exact Nat.le_refl _

/-! ## The walk, as equations -/

/-- The two expressions `__expr_eliminate_eq` leaves. -/
def eliminated (type : Junction) (e1 e2 : Expr) : Expr × Expr :=
  (exprEliminateEqHelper type e1 e2).1

/-- Neither side grows: an operand taken out leaves a symbol. -/
theorem size_eliminated_le (type : Junction) (e1 e2 : Expr) :
    (eliminated type e1 e2).1.size ≤ e1.size ∧ (eliminated type e1 e2).2.size ≤ e2.size :=
  (exprEliminateEqHelper type e1 e2).2

/-- A node on the left is walked side by side, against what is left of the
other expression. -/
theorem eliminated_left {type : Junction} {e1 e2 l r : Expr}
    (h : e1.operands type = some (l, r)) : eliminated type e1 e2 =
      (.two type (eliminated type l e2).1 (eliminated type r (eliminated type l e2).2).1,
        (eliminated type r (eliminated type l e2).2).2) := by
  unfold eliminated
  rw [exprEliminateEqHelper]
  split
  · rename_i h'
    rw [h] at h'
    cases h'
    rfl
  · rename_i h'
    rw [h] at h'
    cases h'

/-- Once the left is an operand, a node on the right is walked. -/
theorem eliminated_right {type : Junction} {e1 e2 l r : Expr} (h1 : e1.operands type = none)
    (h : e2.operands type = some (l, r)) : eliminated type e1 e2 =
      ((eliminated type (eliminated type e1 l).1 r).1,
        .two type (eliminated type e1 l).2 (eliminated type (eliminated type e1 l).1 r).2) := by
  unfold eliminated
  rw [exprEliminateEqHelper]
  split
  · rename_i h'
    rw [h1] at h'
    cases h'
  · split
    · rename_i h'
      rw [h] at h'
      cases h'
      rfl
    · rename_i h'
      rw [h] at h'
      cases h'

/-- Two operands that are equal are both replaced, and any others are left. -/
theorem eliminated_operands {type : Junction} {e1 e2 : Expr} (h1 : e1.operands type = none)
    (h2 : e2.operands type = none) : eliminated type e1 e2 =
      if (e1 = .symbol .yes ∨ e1 = .symbol .no) ∧ e1 = e2 then (e1, e2)
      else if exprEq e1 e2 then (.symbol type.unit, .symbol type.unit)
      else (e1, e2) := by
  unfold eliminated
  rw [exprEliminateEqHelper]
  split
  · rename_i h'
    rw [h1] at h'
    cases h'
  · split
    · rename_i h'
      rw [h2] at h'
      cases h'
    · split_ifs <;> rfl

/-- `expr_eliminate_eq` takes out what the type of the first names, then what
the type of the second does. -/
theorem exprEliminateEq_cases (e1 e2 : Expr) : ∃ p q : Expr × Expr,
    ((e1.junction = none ∧ p = (e1, e2)) ∨
      ∃ type, e1.junction = some type ∧ p = eliminated type e1 e2) ∧
    (((p.2.junction = none ∨ p.1.junction = p.2.junction) ∧ q = p) ∨
      ∃ type, p.2.junction = some type ∧ p.1.junction ≠ some type ∧
        q = eliminated type p.1 p.2) ∧
    exprEliminateEq e1 e2 = (exprEliminateYn q.1, exprEliminateYn q.2) := by
  rw [exprEliminateEq]
  split
  rename_i e1' e2' hsize hfirst
  refine ⟨(e1', e2'), _, ?_, ?_, rfl⟩
  · split at hfirst
    · rename_i type htype
      exact .inr ⟨type, htype, (congrArg Subtype.val hfirst).symm⟩
    · rename_i hnone
      exact .inl ⟨hnone, (congrArg Subtype.val hfirst).symm⟩
  · split
    · rename_i type htype
      split_ifs with h
      · exact .inl ⟨.inr (h.trans htype.symm), rfl⟩
      · exact .inr ⟨type, htype, h, rfl⟩
    · rename_i hnone
      exact .inl ⟨.inl hnone, rfl⟩

/-! ## What is taken out is a common factor -/

/-- Two values that come from two others by putting the same one back. -/
def Factored (type : Junction) (v w v' w' : Tristate) : Prop :=
  ∃ d, v = type.apply d v' ∧ w = type.apply d w'

/-- The first pair stands in the order the second stands in. -/
def OrderedAs (v w v' w' : Tristate) : Prop :=
  (v' ≤ w' → v ≤ w) ∧ (w' ≤ v' → w ≤ v)

theorem Factored.refl (type : Junction) (v w : Tristate) : Factored type v w v w :=
  ⟨type.neutral, (type.apply_neutral v).symm, (type.apply_neutral w).symm⟩

/-- The factor is common to both, in either order. -/
theorem Factored.comm {type : Junction} {v w v' w' : Tristate} (h : Factored type v w v' w') :
    Factored type w v w' v' := by
  obtain ⟨d, hv, hw⟩ := h
  exact ⟨d, hw, hv⟩

/-- The two sides of a cluster are factored one after the other. -/
theorem Factored.node {type : Junction} {l r w l' r' w₁ w₂ : Tristate}
    (hl : Factored type l w l' w₁) (hr : Factored type r w₁ r' w₂) :
    Factored type (type.apply l r) w (type.apply l' r') w₂ := by
  obtain ⟨a, hla, hwa⟩ := hl
  obtain ⟨b, hrb, hwb⟩ := hr
  refine ⟨type.apply a b, ?_, ?_⟩
  · rw [hla, hrb]
    ac_rfl
  · rw [hwa, hwb]
    ac_rfl

/-- A common factor put back keeps the order. -/
theorem Factored.orderedAs {type : Junction} {v w v' w' : Tristate}
    (h : Factored type v w v' w') : OrderedAs v w v' w' := by
  obtain ⟨d, rfl, rfl⟩ := h
  exact ⟨fun hle => type.apply_mono (le_refl d) hle, fun hle => type.apply_mono (le_refl d) hle⟩

theorem OrderedAs.refl (v w : Tristate) : OrderedAs v w v w :=
  ⟨id, id⟩

/-- What one step has kept the next one keeps. -/
theorem OrderedAs.trans {v w v' w' v'' w'' : Tristate} (h : OrderedAs v w v' w')
    (h' : OrderedAs v' w' v'' w'') : OrderedAs v w v'' w'' :=
  ⟨h.1 ∘ h'.1, h.2 ∘ h'.2⟩

/-- Equal remainders come from equal values. -/
theorem OrderedAs.eq {v w v' : Tristate} (h : OrderedAs v w v' v') : v = w :=
  le_antisymm (h.1 (le_refl v')) (h.2 (le_refl v'))

/-- What `__expr_eliminate_eq` leaves is a factor away from what it was given,
if smaller expressions that are found equal have the same value. A pair of
operands has to be smaller itself. -/
theorem factored_eliminated {n : ℕ} (heq : ∀ e1 e2 : Expr, e1.size + e2.size < n →
      exprEq e1 e2 = true → e1.calcValue cfg = e2.calcValue cfg) (type : Junction)
    (e1 e2 : Expr) (hn : e1.size + e2.size ≤ n)
    (hlt : e1.operands type = none → e2.operands type = none → e1.size + e2.size < n) :
    Factored type (e1.calcValue cfg) (e2.calcValue cfg)
      ((eliminated type e1 e2).1.calcValue cfg) ((eliminated type e1 e2).2.calcValue cfg) := by
  generalize hm : e1.size + e2.size = m
  induction m using Nat.strong_induction_on generalizing e1 e2 with
  | _ m ih =>
      subst hm
      match h1 : e1.operands type with
      | some (l, r) =>
          have hsize := Expr.size_of_operands h1
          have hle := (size_eliminated_le type l e2).2
          have hl := ih _ (by omega) l e2 (by omega) (by omega) rfl
          have hr := ih _ (by omega) r (eliminated type l e2).2 (by omega) (by omega) rfl
          rw [eliminated_left h1, Expr.eq_two_of_operands h1, calcValue_two, calcValue_two]
          exact hl.node hr
      | none =>
          match h2 : e2.operands type with
          | some (l, r) =>
              have hsize := Expr.size_of_operands h2
              have hle := (size_eliminated_le type e1 l).1
              have hl := ih _ (by omega) e1 l (by omega) (by omega) rfl
              have hr := ih _ (by omega) (eliminated type e1 l).1 r (by omega) (by omega) rfl
              rw [eliminated_right h1 h2, Expr.eq_two_of_operands h2, calcValue_two,
                calcValue_two]
              exact (hl.comm.node hr.comm).comm
          | none =>
              rw [eliminated_operands h1 h2]
              split_ifs with hyn heq'
              · exact Factored.refl type _ _
              · refine ⟨e1.calcValue cfg, ?_, ?_⟩
                · rw [calcValue_unit, type.apply_neutral_right]
                · rw [calcValue_unit, type.apply_neutral_right, heq e1 e2 (hlt h1 h2) heq']
              · exact Factored.refl type _ _

/-- `expr_eliminate_eq` leaves two expressions that stand in the order of the
two it was given. -/
theorem orderedAs_exprEliminateEq_of {e1 e2 : Expr} (heq : ∀ e1' e2' : Expr,
      e1'.size + e2'.size < e1.size + e2.size →
      exprEq e1' e2' = true → e1'.calcValue cfg = e2'.calcValue cfg) :
    OrderedAs (e1.calcValue cfg) (e2.calcValue cfg) ((exprEliminateEq e1 e2).1.calcValue cfg)
      ((exprEliminateEq e1 e2).2.calcValue cfg) := by
  have factored : ∀ type p1 p2, p1.size + p2.size ≤ e1.size + e2.size →
      (p1.junction = some type ∨ p2.junction = some type) →
      OrderedAs (p1.calcValue cfg) (p2.calcValue cfg)
        ((eliminated type p1 p2).1.calcValue cfg) ((eliminated type p1 p2).2.calcValue cfg) := by
    intro type p1 p2 hle hnode
    refine (factored_eliminated heq type p1 p2 hle ?_).orderedAs
    intro h1 h2
    obtain h | h := hnode
    · exact absurd h (Expr.junction_ne_of_operands h1)
    · exact absurd h (Expr.junction_ne_of_operands h2)
  obtain ⟨p, q, hp, hq, hpq⟩ := exprEliminateEq_cases e1 e2
  rw [hpq]
  simp only [calcValue_exprEliminateYn]
  have hfirst : OrderedAs (e1.calcValue cfg) (e2.calcValue cfg) (p.1.calcValue cfg)
      (p.2.calcValue cfg) ∧ p.1.size + p.2.size ≤ e1.size + e2.size := by
    obtain ⟨-, rfl⟩ | ⟨type, htype, rfl⟩ := hp
    · exact ⟨OrderedAs.refl _ _, Nat.le_refl _⟩
    · have hsize := size_eliminated_le type e1 e2
      exact ⟨factored type e1 e2 (Nat.le_refl _) (.inl htype), by omega⟩
  refine hfirst.1.trans ?_
  obtain ⟨-, rfl⟩ | ⟨type, htype, -, rfl⟩ := hq
  · exact OrderedAs.refl _ _
  · exact factored type p.1 p.2 hfirst.2 (.inr htype)

/-- Expressions that `expr_eq` finds equal have one value. -/
theorem calcValue_eq_of_exprEq {e1 e2 : Expr} (h : exprEq e1 e2 = true) :
    e1.calcValue cfg = e2.calcValue cfg := by
  generalize hn : e1.size + e2.size = n
  induction n using Nat.strong_induction_on generalizing e1 e2 with
  | _ n ih =>
      subst hn
      rw [exprEq.eq_def] at h
      split at h
      · obtain ⟨rfl, rfl, rfl⟩ := of_decide_eq_true h
        rfl
      · rw [of_decide_eq_true h]
      · rename_i e1' e2'
        rw [calcValue_not, calcValue_not]
        exact congrArg exprNot (ih _ (by simp only [Expr.size]; omega) h rfl)
      · rename_i t1 l1 r1 t2 l2 r2
        split_ifs at h with ht
        have hordered := @orderedAs_exprEliminateEq_of tab cfg (.two t1 l1 r1) (.two t2 l2 r2)
          fun e1' e2' hlt heq => ih _ hlt heq rfl
        split at h
        · rename_i s1 s2 hpair
          rw [hpair, of_decide_eq_true h] at hordered
          exact hordered.eq
        · cases h
      · cases h

/-- The same, with what `expr_eq` finds equal known to have one value. -/
theorem orderedAs_exprEliminateEq (cfg : Config tab) (e1 e2 : Expr) :
    OrderedAs (e1.calcValue cfg) (e2.calcValue cfg) ((exprEliminateEq e1 e2).1.calcValue cfg)
      ((exprEliminateEq e1 e2).2.calcValue cfg) :=
  orderedAs_exprEliminateEq_of fun _ _ _ h => calcValue_eq_of_exprEq h

end Kconfig

end BlocTest
