import BlocTest.Common.CInt
/-!
# The longest substring without a repeated character

`find_sub_str.cpp`, over any alphabet. The scan works on three global
strings: it grows `cur_str` until a character repeats, files it under
`sub_str`, cuts `test_str` after the earlier occurrence and starts over.
`max_substr` keeps its running maximum in a `static`, so that is part of the
state too.
-/

namespace BlocTest

namespace FindSubStr

variable {α : Type}

/-- The globals, and the static local of `max_substr`, which is not there
before the first call. -/
structure Globals (α : Type) where
  subStr : List (List α)
  curStr : List α
  testStr : List α
  longest : Option (List α)
  deriving DecidableEq, Repr

/-- `string::npos`. -/
def npos : ℕ := 2 ^ 64 - 1

/-- `string::find` of one character. -/
def find [DecidableEq α] (str : List α) (c : α) : ℕ := (str.idxOf? c).getD npos

/-- `string::substr` from a position on. -/
def substr {σ : Type} (str : List α) (pos : ℕ) : Prog σ (List α) :=
  if pos ≤ str.length then pure (str.drop pos) else Prog.fault .outOfRange

/-- `is_repeat`. -/
def isRepeat [DecidableEq α] (c : α) : Prog (Globals α) Bool := do
  let m ← get
  -- the position is kept in an `int` and widened again for the comparison
  let index := ofSize (find m.curStr c)
  if npos = toSize index then
    set { m with curStr := m.curStr ++ [c] }
    return false
  else
    set { m with subStr := m.subStr ++ [m.curStr] }
    let rest ← substr m.testStr (toSize (← Prog.signed (index.toInt + 1)))
    modify fun m => { m with testStr := rest }
    modify fun m => { m with curStr := [] }
    return true

/-- One round of the loop of `find_substr`, over `i`. -/
def findRound [DecidableEq α] (i : Int32) : Prog (Globals α) (Int32 ⊕ Bool) := do
  let m ← get
  match m.testStr[toSize i]? with
  | none =>
      set { m with subStr := m.subStr ++ [m.curStr] }
      return .inr true
  | some c =>
      match ← isRepeat c with
      | true => return .inr false
      | false => return .inl (← Prog.signed (i.toInt + 1))

/-- `find_substr`. -/
def findSubstr [DecidableEq α] (fuel : ℕ) : Prog (Globals α) Bool :=
  Prog.loop findRound fuel 0

/-- One round of the loop of `max_substr`, over `i`. -/
def maxRound (strArray : List (List α)) (i : Int32) : Prog (Globals α) (Int32 ⊕ Unit) := do
  match strArray[toSize i]? with
  | none => return .inr ()
  | some str =>
      modify fun m => { m with
        longest := m.longest.map fun longest =>
          if longest.length < str.length then str else longest }
      return .inl (← Prog.signed (i.toInt + 1))

/-- `max_substr`. What it returns is a reference to the static, read here at
the return. -/
def maxSubstr (fuel : ℕ) (strArray : List (List α)) : Prog (Globals α) (List α) := do
  let m ← get
  -- the initialiser runs on the first call only
  match m.longest, strArray with
  | some _, _ => pure ()
  | none, [] => Prog.fault .outOfRange
  | none, first :: _ => set { m with longest := some first }
  Prog.loop (maxRound strArray) fuel 1
  return (← get).longest.getD []

/-- A sequence of calls of `max_substr` in one process, and what they
return. -/
def maxSubstrs (fuel : ℕ) : List (List (List α)) → Prog (Globals α) (List (List α))
  | [] => pure []
  | v :: vs => do
      let longest ← maxSubstr fuel v
      let rest ← maxSubstrs fuel vs
      return longest :: rest

/-- One round of the loop of `main`, over what it has printed: `test_str`
after each cut. -/
def mainRound [DecidableEq α] (fuel : ℕ) (printed : List (List α)) :
    Prog (Globals α) (List (List α) ⊕ List (List α)) := do
  match ← findSubstr fuel with
  | true => return .inr printed
  | false => return .inl (printed ++ [(← get).testStr])

/-- The loop of `main`. -/
def mainLoop [DecidableEq α] (fuel : ℕ) : Prog (Globals α) (List (List α)) :=
  Prog.loop (mainRound fuel) fuel []

/-- What `main` prints: `test_str` after each cut, then `sub_str`, then the
answer. -/
structure Printed (α : Type) where
  cuts : List (List α)
  windows : List (List α)
  answer : List α
  deriving DecidableEq, Repr

/-- `main`. -/
def main [DecidableEq α] (fuel : ℕ) : Prog (Globals α) (Printed α) := do
  let cuts ← mainLoop fuel
  let windows := (← get).subStr
  let answer ← maxSubstr fuel windows
  return { cuts, windows, answer }

/-- A fresh process that is given `s`. -/
def fresh (s : List α) : Globals α := { subStr := [], curStr := [], testStr := s, longest := none }

end FindSubStr

end BlocTest
