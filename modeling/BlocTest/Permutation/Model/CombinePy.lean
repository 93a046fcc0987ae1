import BlocTest.Common.Prog
import Mathlib.Algebra.Ring.Int.Defs
/-!
# Combinations, in Python

`combine.py`: each element is taken or skipped. The selection is one list,
which every call of the recursion changes in place.
-/

namespace BlocTest

namespace Permutation

open Prog

variable {α : Type}

/-- The selection, and what has been printed. -/
structure Selection (α : Type) where
  selectData : List α
  printed : List (List α)
  deriving DecidableEq, Repr

/-- `select_data.append(x)`. -/
def append (x : α) : Prog (Selection α) Unit :=
  modify fun s => { s with selectData := s.selectData ++ [x] }

/-- `select_data.pop()`. -/
def pop : Prog (Selection α) Unit := do
  let s ← get
  if s.selectData.isEmpty then
    fault .outOfRange
  else
    set { s with selectData := s.selectData.dropLast }

/-- `combine` of `combine.py`, within a depth of recursion. -/
def combinePy (data : List α) (targetNum : ℤ) : ℕ → ℕ → Prog (Selection α) Unit
  | 0, _ => fault .outOfFuel
  | fuel + 1, step => do
      let s ← get
      if (s.selectData.length : ℤ) = targetNum then
        set { s with printed := s.printed ++ [s.selectData] }
      else
        -- there is no element at `step` when `step >= len(data)`
        match data[step]? with
        | none => return
        | some x =>
            append x
            combinePy data targetNum fuel (step + 1)
            pop
            combinePy data targetNum fuel (step + 1)

end Permutation

end BlocTest
