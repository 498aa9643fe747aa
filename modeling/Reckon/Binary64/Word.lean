import Reckon.Binary64.Basic

/-!
# Doubles as 32-bit words

The bitwise operators work on words.  A double becomes a word in three steps: the fraction is
dropped (`truncate`), the whole number is brought into the range of signed 64-bit integers
(`clamp`), and its low 32 bits are kept (`word`).  What is not a number becomes zero.
-/

namespace Reckon.Binary64

/-- The whole number next to a finite double on the side of zero. -/
def truncate (x : Float) : Int :=
  if signBit x then -((units x / one : Nat) : Int) else ((units x / one : Nat) : Int)

/-- The nearest number in the range of signed 64-bit integers. -/
def clamp (n : Int) : Int := max (-(signPlace : Int)) (min n ((signPlace : Int) - 1))

/-- The signed 64-bit integer a double stands for: infinities go to the ends of the range. -/
def toInteger (x : Float) : Int :=
  if x.isNaN then 0
  else if isFinite x then clamp (truncate x)
  else if signBit x then -(signPlace : Int)
  else (signPlace : Int) - 1

/-- The word a double stands for, as an operand of a bitwise operator. -/
def word (x : Float) : UInt32 := UInt32.ofNat (toInteger x % (twoTo 32 : Int)).toNat

end Reckon.Binary64
