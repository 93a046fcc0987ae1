import BlocTest.Common.IntType
/-!
# Permutations and combinations

`daima.cpp`, over any integer type and any element type: the elements are
`int`s there, and nothing looks at them. A generator is given the vector to
choose from and the tuple built so far by reference, so both are part of the
state; each round of its loop works on a copy of the vector. The counter of
`push_back`s is an observer's.
-/

namespace BlocTest

namespace Permutation

open Prog IntType

/-- What is written to `cout`. -/
inductive Token (α : Type) where
  | elem (x : α)
  | endl
  deriving DecidableEq, Repr

/-- What the generators are given by reference, and what they have done. -/
structure Refs (α : Type) where
  a : List α
  dst : List α
  cout : List (Token α)
  /-- How many `dst.push_back` have been executed. -/
  pushes : ℕ
  deriving DecidableEq, Repr

section Generators

variable {α ι : Type} [IntType ι]

/-- `traversal_vec`. -/
def traversalVec : List α → Prog (Refs α) Unit
  | [] => modify fun s => { s with cout := s.cout ++ [.endl] }
  | x :: t => do
      modify fun s => { s with cout := s.cout ++ [.elem x] }
      traversalVec t

/-- `dst.push_back(x)`. -/
def pushBack (x : α) : Prog (Refs α) Unit :=
  modify fun s => { s with dst := s.dst ++ [x], pushes := s.pushes + 1 }

/-- `dst.pop_back()`. -/
def popBack : Prog (Refs α) Unit := do
  let s ← get
  if s.dst.isEmpty then
    fault .outOfRange
  else
    set { s with dst := s.dst.dropLast }

/-- `tmp.erase(it+i)`. -/
def eraseAt (tmp : List α) (i : ι) : Prog (Refs α) (List α) :=
  if toIndex i < tmp.length then pure (tmp.eraseIdx (toIndex i)) else fault .outOfRange

/-- `tmp.erase(it,it+i+1)`. -/
def eraseUpTo (tmp : List α) (i : ι) : Prog (Refs α) (List α) :=
  if toIndex i < tmp.length then pure (tmp.drop (toIndex i + 1)) else fault .outOfRange

/-- Call a generator on a local vector: what it does to `a` it does to
`tmp`. -/
def onLocal (tmp : List α) (m : Prog (Refs α) Unit) : Prog (Refs α) Unit :=
  zoom (fun s => { s with a := tmp }) (fun s t => { t with a := s.a }) m

/-- One round of the loop of a generator, over `i`. `erase` is what it takes
off its copy of `a`, and `self` its recursive call. -/
def generateRound (erase : List α → ι → Prog (Refs α) (List α)) (self : ι → Prog (Refs α) Unit)
    (n i : ι) : Prog (Refs α) (ι ⊕ Unit) := do
  let a := (← get).a
  match a[toIndex i]? with
  | none => return .inr ()
  | some x =>
      let tmp ← erase a i
      pushBack x
      onLocal tmp (self (← arith (toInt n - 1)))
      popBack
      return .inl (← arith (toInt i + 1))

/-- The body the generators share, within a depth of recursion. -/
def generate (erase : List α → ι → Prog (Refs α) (List α)) : ℕ → ι → Prog (Refs α) Unit
  | 0, _ => fault .outOfFuel
  | fuel + 1, n => do
      if toInt n = 0 then
        traversalVec (← get).dst
      else
        loop (generateRound erase (generate erase fuel) n) (fuel + 1) (ofInt 0)

/-- `permutation` on four arguments. -/
def permutation (fuel : ℕ) (n : ι) : Prog (Refs α) Unit := generate eraseAt fuel n

/-- `combine` on four arguments. -/
def combine (fuel : ℕ) (n : ι) : Prog (Refs α) Unit := generate eraseUpTo fuel n

end Generators

/-! ## The sizes -/

section Sizes

variable {ι : Type} [IntType ι]

/-- `factorial`, within a depth of recursion. -/
def factorial : ℕ → ι → Prog Unit ι
  | 0, _ => fault .outOfFuel
  | fuel + 1, n => do
      if toInt n = 1 then
        return ofInt 1
      else
        let f ← factorial fuel (← arith (toInt n - 1))
        arith (toInt n * toInt f)

/-- One round of the loop of `calculate`, over `sum` and `i`. -/
def calculateRound (fuel : ℕ) (x n : ι) (b : ι × ι) : Prog Unit ((ι × ι) ⊕ ι) := do
  let (sum, i) := b
  if toInt i < toInt n then
    let f ← factorial fuel x
    let pred : ι ← arith (toInt x - 1)
    let g ← factorial fuel (← arith (toInt pred - toInt i))
    let q ← quotient f g
    let sum ← arith (toInt sum + toInt q)
    return .inl (sum, ← arith (toInt i + 1))
  else
    return .inr sum

/-- `calculate`. -/
def calculate (fuel : ℕ) (x n : ι) : Prog Unit ι :=
  loop (calculateRound fuel x n) fuel (ofInt 0, ofInt 0)

/-- `factorial(m)/factorial(m-n)`. -/
def lineCount (fuel : ℕ) (m n : ι) : Prog Unit ι := do
  let f ← factorial fuel m
  let g ← factorial fuel (← arith (toInt m - toInt n))
  quotient f g

end Sizes

/-! ## The wrappers -/

section Wrappers

variable {α ι : Type} [IntType ι]

/-- The computations that open a wrapper: `p_size`, and the number of
elements of the array, which nothing uses. -/
def sizes (fuel : ℕ) (n : ι) : Prog (Refs α) (ι × ℕ) := do
  let size := (← get).a.length
  let m : ι := ofInt size
  let pSize ← call (calculate fuel (ofInt size) n)
  let q ← call (lineCount fuel m n)
  return (pSize, toIndex q + size)

/-- The body the wrappers share: the sizes, then the generator on a new
`dst`. -/
def wrapper (generator : ι → Prog (Refs α) Unit) (fuel : ℕ) (n : ι) : Prog (Refs α) Unit := do
  let _ ← sizes fuel n
  zoom (fun s => { s with dst := [] }) (fun s t => { t with dst := s.dst }) (generator n)

/-- `permutation` on two arguments. -/
def permutationOf (fuel : ℕ) (n : ι) : Prog (Refs α) Unit := wrapper (permutation fuel) fuel n

/-- `combine` on two arguments. -/
def combineOf (fuel : ℕ) (n : ι) : Prog (Refs α) Unit := wrapper (combine fuel) fuel n

end Wrappers

end Permutation

end BlocTest
