import BlocTest.Common.CInt
import BlocTest.Common.Heap
import BlocTest.Common.Overwrite
/-!
# `fast_sort`

The function of the article on quicksort, on a memory of `int`s that records
each address it is read or written at. The memory has no end: what lies
outside the array that is sorted is arbitrary, and reading it is not a fault
here but an entry in the record.
-/

namespace BlocTest

namespace FastSort

open Prog

/-- What the function prints. -/
inductive Output where
  | element (x : Int32)
  | newline
  | pivot (i : Int32)
  deriving DecidableEq, Repr

/-- The memory, the addresses read and written so far and what has been
printed. -/
structure Memory where
  cells : ℕ → Int32
  accesses : List ℕ
  printed : List Output

/-- `&p[i]`. -/
def address : Ptr → Int32 → Prog Memory ℕ
  | none, _ => fault .nullDeref
  | some a, i =>
      if (a : ℤ) + i.toInt < 0 then fault .outOfRange else return ((a : ℤ) + i.toInt).toNat

/-- `p[i]`, read. -/
def load (p : Ptr) (i : Int32) : Prog Memory Int32 := do
  let a ← address p i
  modify fun s => { s with accesses := s.accesses ++ [a] }
  return (← get).cells a

/-- `p[i] = x`. -/
def store (p : Ptr) (i x : Int32) : Prog Memory Unit := do
  let a ← address p i
  modify fun s => { s with
    cells := overwrite s.cells a [x]
    accesses := s.accesses ++ [a] }

/-- `printf`. -/
def print (out : Output) : Prog Memory Unit :=
  modify fun s => { s with printed := s.printed ++ [out] }

/-- `p[i]` and `p[j]` change places, through `temp`. -/
def exchange (p : Ptr) (i j : Int32) : Prog Memory Unit := do
  let temp ← load p i
  store p i (← load p j)
  store p j temp

/-- One round of the loop that prints the array, over `i`. -/
def printRound (data : Ptr) (dataLen i : Int32) : Prog Memory (Int32 ⊕ Unit) := do
  if i < dataLen then
    print (.element (← load data i))
    return .inl (← signed (i.toInt + 1))
  else
    return .inr ()

/-- One round of `while(data[j] > key)`, over `j`. -/
def scanDownRound (key : Int32) (data : Ptr) (i j : Int32) : Prog Memory (Int32 ⊕ Int32) := do
  if (← load data j) > key then
    let j ← signed (j.toInt - 1)
    if i ≥ j then
      return .inr j
    else
      return .inl j
  else
    return .inr j

/-- One round of `while(data[i] <= key)`, over `i`. -/
def scanUpRound (key : Int32) (data : Ptr) (j i : Int32) : Prog Memory (Int32 ⊕ Int32) := do
  if (← load data i) ≤ key then
    if i ≥ j then
      return .inr i
    else
      return .inl (← signed (i.toInt + 1))
  else
    return .inr i

/-- One round of `for(i = 0, j = data_len - 1; i < j;)`, over `i` and `j`. -/
def partitionRound (fuel : ℕ) (key : Int32) (data : Ptr) :
    Int32 × Int32 → Prog Memory ((Int32 × Int32) ⊕ Int32)
  | (i, j) => do
      if i < j then
        let j ← loop (scanDownRound key data i) fuel j
        let i ← loop (scanUpRound key data j) fuel i
        if i < j then
          exchange data i j
        else
          exchange data 0 i
          print (.pivot i)
        return .inl (i, j)
      else
        return .inr i

/-- `fast_sort`, within a depth of recursion. -/
def fastSort : ℕ → Ptr → Int32 → Prog Memory Unit
  | 0, _, _ => fault .outOfFuel
  | fuel + 1, data, dataLen => do
      -- the array is read before its length is looked at
      let key ← load data 0
      if data = none ∨ dataLen ≤ 1 then
        return
      loop (printRound data dataLen) (fuel + 1) 0
      print .newline
      let last ← signed (dataLen.toInt - 1)
      let i ← loop (partitionRound (fuel + 1) key data) (fuel + 1) (0, last)
      fastSort fuel (some (← address data 0)) i
      let next ← signed (i.toInt + 1)
      let rest ← signed ((← signed (dataLen.toInt - 1)).toInt - i.toInt)
      fastSort fuel (some (← address data next)) rest

end FastSort

end BlocTest
