import BlocTest.SingleList.Model.List
/-!
# Runs of the list's methods

A caller's view of the list: a sequence of method calls on one object and
what the calls answer. A caller of `find_node` reads the node it is handed,
so a run also exercises the pointers the list gives out. Next to it stands
the sequence of pairs the list is meant to be, with the same operations.
-/

namespace BlocTest

namespace SingleList

/-- The public methods other than `destroy_list`. -/
inductive Op (ι ν : Type) where
  | addNode (index : ι) (value : ν)
  | deleteNode (index : ι)
  | findNode (index : ι)
  | getListLen
  | printAllNode
  deriving DecidableEq, Repr

/-- What a call answers. -/
inductive Out (ι ν : Type) where
  /-- The `s32` a mutator returns. -/
  | status (r : Int32)
  /-- What the node `find_node` hands out holds, or nothing for `NULL`. -/
  | found (e : Option (ι × ν))
  | len (n : UInt32)
  /-- The lines written, each its number, index and value. -/
  | printed (lines : List (UInt32 × ι × ν))
  deriving DecidableEq, Repr

variable {ι ν : Type} [DecidableEq ι]

/-- One call. -/
def callOp (fuel : ℕ) : Op ι ν → ListM ι ν (Out ι ν)
  | .addNode index value => return .status (← addNode fuel index value)
  | .deleteNode index => return .status (← deleteNode fuel index)
  | .findNode index => do
      match ← findNode fuel index with
      | none => return .found none
      | some a =>
          let n ← onNodes (Heap.read (some a))
          return .found (some (n.index, n.value))
  | .getListLen => return .len (← getListLen)
  | .printAllNode => return .printed (← printAllNode fuel)

/-- A sequence of calls and their answers. -/
def runOps (fuel : ℕ) : List (Op ι ν) → ListM ι ν (List (Out ι ν))
  | [] => pure []
  | op :: ops => do
      let out ← callOp fuel op
      let outs ← runOps fuel ops
      return out :: outs

/-! ## The sequence the list is meant to be -/

/-- The lines a listing of a sequence shows, numbered from `i`. -/
def printed : UInt32 → List (ι × ν) → List (UInt32 × ι × ν)
  | _, [] => []
  | i, e :: ps => (i, e) :: printed (i + 1) ps

/-- One call on a plain sequence of pairs: its answer, and the sequence it
leaves. -/
def seqStep (ps : List (ι × ν)) : Op ι ν → Out ι ν × List (ι × ν)
  | .addNode index value => (.status 0, ps ++ [(index, value)])
  | .deleteNode index =>
      if ps.any (fun e => decide (e.1 = index)) then
        (.status 0, ps.eraseP fun e => decide (e.1 = index))
      else (.status (-1), ps)
  | .findNode index => (.found (ps.find? fun e => decide (e.1 = index)), ps)
  | .getListLen => (.len (UInt32.ofNat ps.length), ps)
  | .printAllNode => (.printed (printed 0 ps), ps)

/-- A sequence of calls on a plain sequence. -/
def seqRun (ps : List (ι × ν)) : List (Op ι ν) → List (Out ι ν) × List (ι × ν)
  | [] => ([], ps)
  | op :: ops =>
      let (out, ps) := seqStep ps op
      let (outs, ps) := seqRun ps ops
      (out :: outs, ps)

/-! ## Lifetimes -/

/-- Any public method. -/
inductive Call (ι ν : Type) where
  | op (o : Op ι ν)
  | destroyList
  deriving DecidableEq, Repr

/-- A sequence of calls of any public methods, answers dropped. -/
def runCalls (fuel : ℕ) : List (Call ι ν) → ListM ι ν Unit
  | [] => pure ()
  | .op o :: calls => do
      let _ ← callOp fuel o
      runCalls fuel calls
  | .destroyList :: calls => do
      let _ ← destroyList fuel
      runCalls fuel calls

/-- The life of a list object: construction, calls, destruction. -/
def lifetime (fuel : ℕ) (calls : List (Call ι ν)) : ListM ι ν Unit := do
  construct
  runCalls fuel calls
  destruct fuel

end SingleList

end BlocTest
