import BlocTest.Common.CInt
/-!
# Adding numbers kept as lists of digits

`add_two_sum.cpp`. The two operands are consumed from the front, least
significant digit first, and the digits of the sum are appended to a third
list. The lists and the carry are handed down by reference, so they are the
state of the recursion.
-/

namespace BlocTest

namespace AddTwoSum

/-- What `add_two_num` is given by reference. -/
structure Operands where
  l1 : List Int32
  l2 : List Int32
  dst : List Int32
  carry : UInt8
  deriving DecidableEq, Repr

/-- `get_list_elem`. -/
def getListElem : List Int32 → Int32
  | [] => 0
  | x :: _ => if 0 = x then 0 else x

/-- `delete_list`. -/
def deleteList : List Int32 → List Int32
  | [] => []
  | _ :: l => l

/-- `add_two_num` on four arguments, within a depth of recursion. -/
def addTwoNum : ℕ → Prog Operands Unit
  | 0 => Prog.fault .outOfFuel
  | fuel + 1 => do
      let { l1, l2, dst, carry } ← get
      if l1.isEmpty ∧ l2.isEmpty then
        return
      else
        let sum ← Prog.signed ((getListElem l1).toInt + (getListElem l2).toInt)
        let total ← Prog.signed (sum.toInt + carry.toNat)
        set { l1 := deleteList l1
              l2 := deleteList l2
              dst := dst ++ [total % 10]
              -- the quotient is of the two digits: `carry` is not in it
              carry := UInt8.ofInt (sum / 10).toInt : Operands }
        addTwoNum fuel

/-- The operands as the two-argument `add_two_num` first passes them on: a
new list for the sum, and no carry. -/
def fresh (l1 l2 : List Int32) : Operands := { l1, l2, dst := [], carry := 0 }

end AddTwoSum

end BlocTest
