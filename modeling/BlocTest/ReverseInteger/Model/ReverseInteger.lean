import BlocTest.Common.IntType
/-!
# Reversing the digits of an integer

`reverse_integer.cpp` and `reverse_integer.py` are the same text: the last
digit of `x` goes to the end of `res` until `x` is zero. The operators are
not the same: `/` and `%` round towards zero in C++ and towards minus
infinity in Python 2, where integers are exact.
-/

namespace BlocTest

namespace ReverseInteger

open Prog IntType

variable {ι : Type} [IntType ι]

/-- `reverse_num` of `reverse_integer.cpp`, within a depth of recursion. -/
def reverseNum : ℕ → ι → ι → Prog Unit ι
  | 0, _, _ => fault .outOfFuel
  | fuel + 1, x, res =>
      if toInt x = 0 then
        pure res
      else do
        let rest : ι ← arith ((toInt x).tdiv 10)
        let shifted : ι ← arith (toInt res * 10)
        let digit : ι ← arith ((toInt x).tmod 10)
        let next : ι ← arith (toInt shifted + toInt digit)
        reverseNum fuel rest next

/-- `reverse` of `reverse_integer.py`, within a depth of recursion. -/
def reverse : ℕ → ℤ → ℤ → Prog Unit ℤ
  | 0, _, _ => fault .outOfFuel
  | fuel + 1, x, res =>
      if x = 0 then
        pure res
      else
        reverse fuel (x.fdiv 10) (res * 10 + x.fmod 10)

end ReverseInteger

end BlocTest
