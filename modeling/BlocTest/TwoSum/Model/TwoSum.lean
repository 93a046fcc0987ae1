import BlocTest.Common.Prog
import Mathlib.Algebra.Ring.Int.Defs
/-!
# Two numbers with a given sum

`two_sum.py`: `data` grows by `target - nums[i]` once position `i` has been
compared with it, so `data[j]` is what position `j` is waiting for.
-/

namespace BlocTest

namespace TwoSum

open Prog

/-- The list a call of `twoSum` fills, and what has been printed. -/
structure Locals where
  data : List ℤ
  printed : List ℤ
  deriving DecidableEq, Repr

/-- `print n`. -/
def print (n : ℤ) : Prog Locals Unit :=
  modify fun s => { s with printed := s.printed ++ [n] }

/-- `xs[i]`. -/
def item (xs : List ℤ) (i : ℕ) : Prog Locals ℤ :=
  match xs[i]? with
  | some x => pure x
  | none => fault .outOfRange

/-- `data.append(x)`. -/
def append (x : ℤ) : Prog Locals Unit :=
  modify fun s => { s with data := s.data ++ [x] }

/-- The body of the loop over `j`. -/
def compare (nums : List ℤ) (i j : ℕ) : Prog Locals (Option (List ℕ)) := do
  let x ← item nums i
  let s ← get
  let y ← item s.data j
  if x ≠ y then
    print 12
    pure none
  else
    pure (some [j, i])

/-- The body of the loop over `i`. -/
def visit (nums : List ℤ) (target : ℤ) (i : ℕ) : Prog Locals (Option (List ℕ)) := do
  let s ← get
  print s.data.length
  match ← forReturn (compare nums i) (List.range s.data.length) with
  | some answer => pure (some answer)
  | none =>
      let x ← item nums i
      append (target - x)
      pure none

/-- `twoSum`, which returns `None` where the model returns `none`. -/
def twoSum (nums : List ℤ) (target : ℤ) : Prog Locals (Option (List ℕ)) := do
  modify fun s => { s with data := [] }
  print nums.length
  forReturn (visit nums target) (List.range nums.length)

end TwoSum

end BlocTest
