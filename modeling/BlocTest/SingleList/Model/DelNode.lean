import BlocTest.Common.CInt
import BlocTest.SingleList.Model.Run
/-!
# Deleting the nth node from the end

`del_node.cpp`: a recursion down the chain from the sentinel that counts
its frames as it unwinds, and unlinks the successor of the node at which
the count reaches `n + 1`. It works on the raw `List_t` that `get_list`
hands out and never touches its `list_len`.
-/

namespace BlocTest

namespace SingleList

variable {ι ν : Type}

/-- A `List_t *`: null, or the address of the one list object. -/
inductive ListPtr where
  | null
  | addr
  deriving DecidableEq, Repr

/-- `List::get_list` in this copy of the header, `List::get_head` in the
other. -/
def getList : ListPtr := .addr

/-- `L->head`. -/
def headOf : ListPtr → ListM ι ν Ptr
  | .null => Prog.fault .nullDeref
  | .addr => getHead

/-- What a frame of `traversal_list` does once the recursion has come back
to it. `count` is shared by reference, so it is passed in and handed on. -/
def unwind (n : Int32) (node : Ptr) (count : Int32) : Prog (Heap (ListNode ι ν)) Int32 := do
  let count ← Prog.signed (count.toInt + 1)
  let target ← Prog.signed (n.toInt + 1)
  if count = target then
    let temp ← Heap.getNext node
    Heap.setNext node (← Heap.getNext temp)
    Heap.delete temp
  return count

/-- `traversal_list`, within a depth of recursion. -/
def traversalList (n : Int32) : ℕ → Int32 → Ptr → Prog (Heap (ListNode ι ν)) Int32
  | 0, _, _ => Prog.fault .outOfFuel
  | _ + 1, count, none => pure count
  | fuel + 1, count, some node => do
      let count ← traversalList n fuel count (← Heap.getNext (some node))
      unwind n (some node) count

/-- `del_last_nth_node`. -/
def delLastNthNode (fuel : ℕ) (n : Int32) (L : ListPtr) : ListM ι ν Unit := do
  let head ← headOf L
  let _ ← onNodes (traversalList n fuel 0 head)

/-! ## Mutations of one list -/

/-- The operations that change the chain. -/
inductive Mutation (ι ν : Type) where
  | addNode (index : ι) (value : ν)
  | deleteNode (index : ι)
  | delLastNthNode (n : Int32)
  deriving DecidableEq, Repr

variable [DecidableEq ι]

/-- One mutation, the external one through the `List_t` of `get_list`. -/
def mutate (fuel : ℕ) : Mutation ι ν → ListM ι ν Unit
  | .addNode index value => do let _ ← addNode fuel index value
  | .deleteNode index => do let _ ← deleteNode fuel index
  | .delLastNthNode n => delLastNthNode fuel n getList

/-- A sequence of mutations. -/
def mutateAll (fuel : ℕ) : List (Mutation ι ν) → ListM ι ν Unit
  | [] => pure ()
  | m :: ms => do
      mutate fuel m
      mutateAll fuel ms

/-- One mutation of the sequence the chain spells. -/
def seqMutate (ps : List (ι × ν)) : Mutation ι ν → List (ι × ν)
  | .addNode index value => ps ++ [(index, value)]
  | .deleteNode index => ps.eraseP fun e => decide (e.1 = index)
  | .delLastNthNode n => ps.eraseIdx (ps.length - n.toInt.toNat)

/-- The pairs the chain spells after a sequence of mutations of a fresh
list. -/
def seqAfter (ms : List (Mutation ι ν)) : List (ι × ν) := ms.foldl seqMutate []

end SingleList

end BlocTest
