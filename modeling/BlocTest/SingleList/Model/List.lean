import BlocTest.Common.Chain
/-!
# The list of `single_list.h`, as a program over a heap

The template `List<T_INDEX, T_VALUE>` and its methods, statement for
statement. The state is the heap of `List_node`s and the one `List_t` the
methods work on; a method's loop is `Prog.loop` over the pointers the
method declares, with the fuel it is given. The two copies of the header
differ only in the name of the accessor (`get_head`, `get_list`) that
hands out the `List_t`.

`new` leaves in a node whatever the memory held (`Heap.uninit`), so the
sentinel's `index` and `value` are arbitrary here as they are there.
-/

namespace BlocTest

namespace SingleList

/-- `struct List_node`. -/
structure ListNode (ι ν : Type) where
  next : Ptr
  index : ι
  value : ν
  deriving DecidableEq, Repr

instance {ι ν : Type} : Linked (ListNode ι ν) where
  next := ListNode.next
  setNext := fun p n => { n with next := p }
  next_setNext := fun _ _ => rfl
  setNext_setNext := fun _ _ _ => rfl
  setNext_next := fun _ => rfl

/-- `struct List_t`; `u32` wraps. -/
structure ListT where
  head : Ptr
  listLen : UInt32
  deriving DecidableEq, Repr

/-- The memory a list program runs on. -/
structure World (ι ν : Type) where
  nodes : Heap (ListNode ι ν)
  list : ListT

/-- A program over that memory. -/
abbrev ListM (ι ν α : Type) := Prog (World ι ν) α

variable {ι ν α : Type}

/-- A program over the nodes alone. -/
def onNodes (m : Prog (Heap (ListNode ι ν)) α) : ListM ι ν α :=
  Prog.zoom World.nodes (fun w h => { w with nodes := h }) m

/-- `list.head`, read. -/
def getHead : ListM ι ν Ptr := do
  return (← get).list.head

/-- `list.head`, assigned. -/
def setHead (p : Ptr) : ListM ι ν Unit :=
  modify fun w => { w with list := { w.list with head := p } }

/-- `list.list_len`, updated. -/
def modifyLen (f : UInt32 → UInt32) : ListM ι ν Unit :=
  modify fun w => { w with list := { w.list with listLen := f w.list.listLen } }

/-! ## Construction and destruction -/

/-- `List::List()`. -/
def construct : ListM ι ν Unit := do
  setHead (← onNodes Heap.new)
  onNodes (Heap.setNext (← getHead) none)
  modifyLen fun _ => 0

/-- One round of the loop of `destroy_list`, over `temp` and `temp_del`. -/
def destroyRound : Ptr × Ptr → Prog (Heap (ListNode ι ν)) ((Ptr × Ptr) ⊕ Unit)
  | (none, _) => pure (.inr ())
  | (some temp, tempDel) => do
      let temp' ← Heap.getNext (some temp)
      Heap.delete tempDel
      return .inl (temp', temp')

/-- `List::destroy_list`. Nothing tests `list.head` before it is read
through. -/
def destroyList (fuel : ℕ) : ListM ι ν Int32 := do
  let temp ← onNodes (Heap.getNext (← getHead))
  let tempDel ← onNodes (Heap.getNext (← getHead))
  onNodes (Prog.loop destroyRound fuel (temp, tempDel))
  onNodes (Heap.delete (← getHead))
  setHead none
  return 0

/-- `List::~List`. -/
def destruct (fuel : ℕ) : ListM ι ν Unit := do
  let _ ← destroyList fuel

/-! ## The methods -/

/-- One round of the walk of `add_node` to the last node. -/
def addRound (p : Ptr) : Prog (Heap (ListNode ι ν)) (Ptr ⊕ Ptr) := do
  match ← Heap.getNext p with
  | none => return .inr p
  | some _ => return .inl (← Heap.getNext p)

/-- `List::add_node`. -/
def addNode (fuel : ℕ) (index : ι) (value : ν) : ListM ι ν Int32 := do
  let temp ← onNodes Heap.new
  let p ← getHead
  onNodes (Heap.update temp fun n => { n with index := index })
  onNodes (Heap.update temp fun n => { n with value := value })
  onNodes (Heap.setNext temp none)
  let p ← onNodes (Prog.loop addRound fuel p)
  onNodes (Heap.setNext p temp)
  modifyLen (· + 1)
  return 0

variable [DecidableEq ι]

/-- One round of the search of `find_node`. -/
def findRound (index : ι) : Ptr → Prog (Heap (ListNode ι ν)) (Ptr ⊕ Ptr)
  | none => pure (.inr none)
  | some temp => do
      if (← Heap.read (some temp)).index = index then
        return .inr (some temp)
      else
        return .inl (← Heap.getNext (some temp))

/-- `List::find_node`. -/
def findNode (fuel : ℕ) (index : ι) : ListM ι ν Ptr := do
  let temp ← onNodes (Heap.getNext (← getHead))
  onNodes (Prog.loop (findRound index) fuel temp)

/-- One round of `delete_node`, over the trailing pointer `p` and the
inspected one `q`. -/
def deleteRound (index : ι) : Ptr × Ptr → ListM ι ν ((Ptr × Ptr) ⊕ Int32)
  | (_, none) => pure (.inr (-1))
  | (p, some q) => do
      if (← onNodes (Heap.read (some q))).index = index then
        onNodes (Heap.setNext p (← onNodes (Heap.getNext (some q))))
        onNodes (Heap.delete (some q))
        modifyLen (· - 1)
        return .inr 0
      else
        return .inl (some q, ← onNodes (Heap.getNext (some q)))

/-- `List::delete_node`. -/
def deleteNode (fuel : ℕ) (index : ι) : ListM ι ν Int32 := do
  let p ← getHead
  let q ← onNodes (Heap.getNext (← getHead))
  Prog.loop (deleteRound index) fuel (p, q)

omit [DecidableEq ι]

/-- `List::get_list_len`. -/
def getListLen : ListM ι ν UInt32 := do
  return (← get).list.listLen

/-- One round of `print_all_node`, over the counter `i`, the pointer `temp`
and the lines printed so far; a line is the counter, the index and the
value it shows. -/
def printRound : UInt32 × Ptr × List (UInt32 × ι × ν) →
    Prog (Heap (ListNode ι ν)) ((UInt32 × Ptr × List (UInt32 × ι × ν)) ⊕
      List (UInt32 × ι × ν))
  | (_, none, lines) => pure (.inr lines)
  | (i, some temp, lines) => do
      let n ← Heap.read (some temp)
      return .inl (i + 1, ← Heap.getNext (some temp), lines ++ [(i, n.index, n.value)])

/-- `List::print_all_node`, returning the lines it prints. -/
def printAllNode (fuel : ℕ) : ListM ι ν (List (UInt32 × ι × ν)) := do
  let temp ← onNodes (Heap.getNext (← getHead))
  onNodes (Prog.loop printRound fuel (0, temp, []))

end SingleList

end BlocTest
