import BlocTest.Common.Chain
/-!
# Two reversals of a chain without a sentinel

The two functions of the article on reversing a singly linked list. The
article shows no more of `struct list_node` than the fields `next` and
`val`, so a node is any type with a `next` field, together with the value
`val` that is printed.
-/

namespace BlocTest

namespace ListReverse

/-- The nodes, and what has been printed. -/
structure Memory (N ν : Type) where
  nodes : Heap N
  printed : List ν

variable {N ν : Type} [Linked N]

/-- A program over the nodes alone. -/
def onNodes {α : Type} (m : Prog (Heap N) α) : Prog (Memory N ν) α :=
  Prog.zoom Memory.nodes (fun s h => { s with nodes := h }) m

/-- `printf` of `p->val`. -/
def printVal (val : N → ν) (p : Ptr) : Prog (Memory N ν) Unit := do
  let n ← onNodes (Heap.read p)
  modify fun s => { s with printed := s.printed ++ [val n] }

/-- `reverse_list`, within a depth of recursion. -/
def reverseList (val : N → ν) : ℕ → Ptr → Prog (Memory N ν) Ptr
  | 0, _ => Prog.fault .outOfFuel
  | _ + 1, none => return none
  | fuel + 1, some head => do
      match ← onNodes (Heap.getNext (some head)) with
      | none => return some head
      | some _ =>
          let node ← reverseList val fuel (← onNodes (Heap.getNext (some head)))
          -- the node after `head` is the last of the reversed rest
          let last ← onNodes (Heap.getNext (some head))
          onNodes (Heap.setNext last (some head))
          onNodes (Heap.setNext (some head) none)
          printVal val (some head)
          printVal val node
          return node

/-- One round of the loop of `reverse_list_nonrecur`, over `pre`, `cur` and
`next`. -/
def rotateRound : Ptr × Ptr × Ptr → Prog (Memory N ν) ((Ptr × Ptr × Ptr) ⊕ (Ptr × Ptr))
  | (pre, cur, none) => return .inr (pre, cur)
  | (pre, cur, some next) => do
      onNodes (Heap.setNext cur pre)
      return .inl (cur, some next, ← onNodes (Heap.getNext (some next)))

/-- `reverse_list_nonrecur`. -/
def reverseListNonrecur (fuel : ℕ) : Ptr → Prog (Memory N ν) Ptr
  | none => return none
  | some head => do
      let next ← onNodes (Heap.getNext (some head))
      let (pre, cur) ← Prog.loop rotateRound fuel (none, some head, next)
      onNodes (Heap.setNext cur pre)
      return cur

end ListReverse

end BlocTest
