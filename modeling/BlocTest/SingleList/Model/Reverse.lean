import BlocTest.SingleList.Model.DelNode
/-!
# Reversing the list in place

`list_reverse.cpp`: a three-pointer rotation that starts with `p` at the
sentinel, so that the first node comes to point back at it, and two closing
assignments that repair both ends.
-/

namespace BlocTest

namespace SingleList

variable {ι ν : Type}

/-- One round of the loop of `list_reverse`, over `p` and `q`. -/
def reverseRound : Ptr × Ptr → Prog (Heap (ListNode ι ν)) ((Ptr × Ptr) ⊕ (Ptr × Ptr))
  | (p, q) => do
      match ← Heap.getNext q with
      | none => return .inr (p, q)
      | some _ =>
          let temp ← Heap.getNext q
          Heap.setNext q p
          return .inl (q, temp)

/-- `list_reverse`. -/
def listReverse (fuel : ℕ) (L : ListPtr) : ListM ι ν Unit := do
  match L with
  | .null => return
  | .addr =>
      let p ← headOf L
      match ← onNodes (Heap.getNext p) with
      | none => return
      | some _ =>
          let q ← onNodes (Heap.getNext p)
          let (p, q) ← onNodes (Prog.loop reverseRound fuel (p, q))
          onNodes (Heap.setNext q p)
          -- the head still points at the first node, which now ends the list
          let first ← onNodes (Heap.getNext (← headOf L))
          onNodes (Heap.setNext first none)
          onNodes (Heap.setNext (← headOf L) q)

end SingleList

end BlocTest
