import BlocTest.SingleList.Model.Reverse
/-!
# Sessions

What the two programs around the list do with it: they call its methods, and
they hand its `List_t` to functions of their own, which reverse it, print it
or take a node out from the end. A session is any such sequence between the
construction of the list and its destruction.
-/

namespace BlocTest

namespace SingleList

variable {ι ν : Type}

/-- One round of `print_list`, over `temp` and the values printed so far. -/
def printListRound : Ptr × List ν → Prog (Heap (ListNode ι ν)) ((Ptr × List ν) ⊕ List ν)
  | (none, values) => pure (.inr values)
  | (some temp, values) => do
      let n ← Heap.read (some temp)
      return .inl (← Heap.getNext (some temp), values ++ [n.value])

/-- `print_list` of `del_node.cpp`, which is `traversal_list` of
`list_reverse.cpp`, returning the values it prints. -/
def printList (fuel : ℕ) (L : ListPtr) : ListM ι ν (List ν) := do
  let temp ← onNodes (Heap.getNext (← headOf L))
  onNodes (Prog.loop printListRound fuel (temp, []))

/-- One step of a session. -/
inductive Step (ι ν : Type) where
  | call (op : Op ι ν)
  | printList
  | listReverse
  | delLastNthNode (n : Int32)
  deriving DecidableEq, Repr

/-- What a step shows. -/
inductive Shown (ι ν : Type) where
  | answer (out : Out ι ν)
  | values (vs : List ν)
  | nothing
  deriving DecidableEq, Repr

variable [DecidableEq ι]

def runStep (fuel : ℕ) : Step ι ν → ListM ι ν (Shown ι ν)
  | .call op => return .answer (← callOp fuel op)
  | .printList => return .values (← printList fuel getList)
  | .listReverse => do
      listReverse fuel getList
      return .nothing
  | .delLastNthNode n => do
      delLastNthNode fuel n getList
      return .nothing

def runSteps (fuel : ℕ) : List (Step ι ν) → ListM ι ν (List (Shown ι ν))
  | [] => pure []
  | step :: steps => do
      let shown ← runStep fuel step
      let rest ← runSteps fuel steps
      return shown :: rest

/-- Construction, the steps, destruction. -/
def session (fuel : ℕ) (steps : List (Step ι ν)) : ListM ι ν (List (Shown ι ν)) := do
  construct
  let shown ← runSteps fuel steps
  destruct fuel
  return shown

/-! ## The sequence, and the count kept beside it -/

/-- The pairs, and what `list_len` says of them. -/
structure Tally (ι ν : Type) where
  pairs : List (ι × ν)
  len : UInt32
  deriving DecidableEq, Repr

/-- A method call: the count follows the methods alone. -/
def Tally.call (t : Tally ι ν) (op : Op ι ν) : Out ι ν × Tally ι ν :=
  let (out, pairs) := seqStep t.pairs op
  match op with
  | .addNode _ _ => (out, ⟨pairs, t.len + 1⟩)
  | .deleteNode index =>
      if t.pairs.any (fun e => decide (e.1 = index)) then (out, ⟨pairs, t.len - 1⟩) else (out, t)
  | .getListLen => (.len t.len, t)
  | .findNode _ | .printAllNode => (out, t)

def Tally.step (t : Tally ι ν) : Step ι ν → Shown ι ν × Tally ι ν
  | .call op => let (out, t) := t.call op; (.answer out, t)
  | .printList => (.values (t.pairs.map Prod.snd), t)
  | .listReverse => (.nothing, { t with pairs := t.pairs.reverse })
  | .delLastNthNode n =>
      (.nothing, { t with pairs := t.pairs.eraseIdx (t.pairs.length - n.toInt.toNat) })

def Tally.run (t : Tally ι ν) : List (Step ι ν) → List (Shown ι ν) × Tally ι ν
  | [] => ([], t)
  | step :: steps =>
      let (shown, t) := t.step step
      let (rest, t) := t.run steps
      (shown :: rest, t)

/-- The tally of a list just constructed. -/
def Tally.fresh : Tally ι ν := ⟨[], 0⟩

/-- What `del_last_nth_node` asks where it is called: a node of the list, and
nodes that an `int` counts. -/
def Tally.Admits (t : Tally ι ν) : Step ι ν → Prop
  | .delLastNthNode n =>
      1 ≤ n.toInt ∧ n.toInt ≤ t.pairs.length ∧ (t.pairs.length : ℤ) < intMax
  | _ => True

/-- Every step is admitted where it is made. -/
def Tally.AdmitsAll (t : Tally ι ν) : List (Step ι ν) → Prop
  | [] => True
  | step :: steps => t.Admits step ∧ (t.step step).2.AdmitsAll steps

end SingleList

end BlocTest
