import BlocTest.Kconfig.Helpers.Joins
import Mathlib.Tactic.Linarith
/-!
# One pass of removing duplicates

`expr_eliminate_dups1` goes through all pairs of operands of a cluster, and
through the clusters below the first of each pair. A pass either joins
something, which leaves a `y` or an `n` to be removed, or has found no two
operands to join.
-/

namespace BlocTest

namespace Kconfig

open Branching Prog

variable {tab : SymbolTable} {e e' c c' x y : Expr} {p q : Place} {type : Junction} {s : Shape}

/-! ## Clusters of expressions -/

/-- Removing `y` and `n` makes the expression smaller. -/
def Expr.Reducible (e : Expr) : Prop :=
  (exprEliminateYn e).size < e.size

/-- One side is `y` or `n`, or can be made smaller. -/
theorem reducible_two {l r : Expr} (h : l = .symbol .yes ∨ l = .symbol .no ∨ r = .symbol .yes ∨
    r = .symbol .no ∨ l.Reducible ∨ r.Reducible) : (Expr.two type l r).Reducible := by
  have hl := size_exprEliminateYn_le l
  have hr := size_exprEliminateYn_le r
  have hl_pos := l.size_pos
  have hr_pos := r.size_pos
  unfold Expr.Reducible at *
  obtain rfl | rfl | rfl | rfl | h | h := h
  all_goals cases type <;> simp only [exprEliminateYn] <;> split_ifs <;>
    simp only [Expr.size] at * <;> omega

/-- A part that can be made smaller makes the whole smaller. -/
theorem reducible_of_get (h : get p e = some c) (hc : c.Reducible) : e.Reducible := by
  induction p generalizing e with
  | nil =>
      cases h
      exact hc
  | cons d p ih =>
      obtain ⟨i, l, r, rfl, hside⟩ := get_cons h
      obtain ⟨-, h⟩ | ⟨-, h⟩ := hside
      · exact reducible_two (.inr (.inr (.inr (.inr (.inl (ih h))))))
      · exact reducible_two (.inr (.inr (.inr (.inr (.inr (ih h))))))

/-- What joining operands makes of an expression. -/
structure Shrinks (tab : SymbolTable) (e e' : Expr) : Prop where
  keeps : ∀ P, Expr.Local P → P e → P e'
  value : e.Plain tab → ∀ cfg : Config tab, e'.calcValue cfg = e.calcValue cfg
  size : e'.size ≤ e.size
  reducible : e'.Reducible

/-- What two joins make of an expression, one after the other. -/
theorem Shrinks.trans {e'' : Expr} (h : Shrinks tab e e') (h' : Shrinks tab e' e'') :
    Shrinks tab e e'' where
  keeps P hP he := h'.keeps P hP (h.keeps P hP he)
  value he cfg := (h'.value (h.keeps _ local_plain he) cfg).trans (h.value he cfg)
  size := Nat.le_trans h'.size h.size
  reducible := h'.reducible

/-- What is made of a part is made of the whole. -/
theorem Shrinks.put (hx : Shrinks tab x y) (h : get p e = some x) :
    Shrinks tab e (Branching.put y p e) where
  keeps P hP he := holds_put hP.two h he (hx.keeps P hP (holds_get hP.two h he))
  value he cfg := value_put_congr (fun e => e.calcValue cfg) calcValue_two h
    (hx.value (holds_get local_plain.two h he) cfg)
  size := by
    have hsize := size_put (x := y) Expr.size (fun _ _ _ => rfl) h
    have := hx.size
    omega
  reducible := reducible_of_get (get_put h) hx.reducible

/-- Either nothing was joined, and what was searched is known, or something
was. -/
def Outcome (tab : SymbolTable) (found : Expr → Prop) (e : Expr) (n : ℕ) (e' : Expr) (n' : ℕ) :
    Prop :=
  (e' = e ∧ n' = n ∧ found e) ∨ (n < n' ∧ Shrinks tab e e')

/-- Either way the expression does not grow. -/
theorem Outcome.size {found : Expr → Prop} {n n' : ℕ} (h : Outcome tab found e n e' n') :
    e'.size ≤ e.size := by
  obtain ⟨rfl, -, -⟩ | ⟨-, h⟩ := h
  · exact Nat.le_refl _
  · exact h.size

/-- Of two parts of a pass, nothing was joined if neither joined anything. -/
theorem Outcome.trans {found found' : Expr → Prop} {e'' : Expr} {n n' n'' : ℕ}
    (h : Outcome tab found e n e' n') (h' : Outcome tab found' e' n' e'' n'') :
    Outcome tab (fun e => found e ∧ found' e) e n e'' n'' := by
  obtain ⟨rfl, rfl, hf⟩ | ⟨hn, hs⟩ := h
  · obtain ⟨rfl, rfl, hf'⟩ | ⟨hn', hs'⟩ := h'
    · exact .inl ⟨rfl, rfl, hf, hf'⟩
    · exact .inr ⟨hn', hs'⟩
  · obtain ⟨rfl, rfl, -⟩ | ⟨hn', hs'⟩ := h'
    · exact .inr ⟨hn, hs⟩
    · exact .inr ⟨Nat.lt_trans hn hn', hs.trans hs'⟩

/-- What was found says as much as follows from it. -/
theorem Outcome.mono {found found' : Expr → Prop} {n n' : ℕ} (h : Outcome tab found e n e' n')
    (hf : found e → found' e) : Outcome tab found' e n e' n' := by
  obtain ⟨he, hn, hfound⟩ | h := h
  · exact .inl ⟨he, hn, hf hfound⟩
  · exact .inr h

/-! ## Expressions with nothing to join -/

/-- No two operands of a cluster can be joined, of the expression or of an
operand that is a cluster itself. A negation is an operand whatever it
negates: clusters under it are not looked at. -/
inductive Settled (tab : SymbolTable) : Expr → Prop
  | atom {e : Expr} (h : e.junction = none) : Settled tab e
  | cluster {e : Expr} {type : Junction} {s : Shape} (hs : HasShape type s e)
      (hj : e.junction = some type)
      (hpairs : ∀ p q x y, s.at? p = some .operand → s.at? q = some .operand → p ≠ q →
        get p e = some x → get q e = some y → exprJoin tab type x y = none)
      (hoperands : ∀ p x, s.at? p = some .operand → get p e = some x → Settled tab x) :
      Settled tab e

/-- What a call that joins nothing has looked at: the operands below the first
place with those below the second. -/
def Searched (tab : SymbolTable) (type : Junction) (p : Place) (s : Shape) (q : Place) (t : Shape)
    (e : Expr) : Prop :=
  ∀ p' q' x y, s.at? p' = some .operand → t.at? q' = some .operand → p ++ p' ≠ q ++ q' →
    get (p ++ p') e = some x → get (q ++ q') e = some y →
    exprJoin tab type x y = none ∧ Settled tab x

/-- What a call leaves of the subtree at a place, from a subtree `c` and a count `n`. -/
def Leaves (tab : SymbolTable) (type : Junction) (base : Place) (s : Shape) (e c : Expr) (n : ℕ)
    (found : Expr → Prop) (st : Dups) : Prop :=
  ∃ c', st.tree = put c' base e ∧ HasShape type s c' ∧ Outcome tab found c n c' st.transCount

/-- One call after another one, at places of the same cluster. -/
theorem Leaves.trans {base : Place} {n : ℕ} {found found' : Expr → Prop} {m : Prog Dups Unit}
    {st : Dups} (hc : get base e = some c) (h : Leaves tab type base s e c n found st)
    (hm : ∀ c₁ n₁, c₁.size ≤ c.size → HasShape type s c₁ →
      get base (put c₁ base e) = some c₁ →
      wp m (fun _ => Leaves tab type base s (put c₁ base e) c₁ n₁ found') ⟨put c₁ base e, n₁⟩) :
    wp m (fun _ => Leaves tab type base s e c n fun e => found e ∧ found' e) st := by
  obtain ⟨c₁, htree, hs, hout⟩ := h
  obtain ⟨tree, n₁⟩ := st
  subst htree
  refine wp_mono (hm c₁ n₁ hout.size hs (get_put hc)) fun _ st h => ?_
  obtain ⟨c₂, htree, hs₂, hout₂⟩ := h
  exact ⟨c₂, by rw [htree, put_put hc], hs₂, hout.trans hout₂⟩

/-- What a call has found says as much as follows from it. -/
theorem Leaves.mono {base : Place} {n : ℕ} {found found' : Expr → Prop} {st : Dups}
    (h : Leaves tab type base s e c n found st) (hf : found c → found' c) :
    Leaves tab type base s e c n found' st := by
  obtain ⟨c', htree, hs, hout⟩ := h
  exact ⟨c', htree, hs, hout.mono hf⟩

end Kconfig

end BlocTest
