/-!
# Doubles as exact numbers

Every finite double is a whole multiple of the least positive one, `2 ^ (-1074)`.  `units` is that
multiple for the magnitude of a double, so that exact questions about doubles become questions
about natural numbers.  In the other direction `nearest` is the double closest to a quotient of
natural numbers, a tie going to the even significand, and `ofUnits` builds a double from its
magnitude and sign.
-/

namespace Reckon.Binary64

/-- A power of two. -/
def twoTo (n : Nat) : Nat := Nat.pow 2 n

/-- A power of ten. -/
def tenTo (n : Nat) : Nat := Nat.pow 10 n

/-- How many of the least positive double make `1`. -/
def one : Nat := twoTo 1074

/-- The value of the leading bit of a significand, which normal numbers leave out. -/
def leadingBit : Nat := twoTo 52

/-- The value of the sign bit. -/
def signPlace : Nat := twoTo 63

/-- The bits of a double below the sign. -/
def magnitudeBits (x : Float) : Nat := x.toBits.toNat % signPlace

/-- Whether the sign bit of a double is set. -/
def signBit (x : Float) : Bool := x.toBits.toNat ≥ signPlace

/-- The magnitude bits of infinity; those of every finite double are smaller. -/
def infinityBits : Nat := 2047 * leadingBit

/-- How often the unit in the last place doubles on the way to the binade of these magnitude bits.
The subnormal numbers and the first binade of normal numbers share the place `0`. -/
def place (bits : Nat) : Nat := bits / leadingBit - 1

/-- The significand of these magnitude bits, with the implicit leading bit of a normal number. -/
def significand (bits : Nat) : Nat :=
  if bits / leadingBit = 0 then bits else leadingBit + bits % leadingBit

/-- The number of units that magnitude bits stand for. -/
def unitsOf (bits : Nat) : Nat := significand bits * twoTo (place bits)

/-- The magnitude of a finite double, counted in multiples of the least positive double. -/
def units (x : Float) : Nat := unitsOf (magnitudeBits x)

/-- Whether a double is finite. -/
def isFinite (x : Float) : Bool := magnitudeBits x < infinityBits

/-- The whole number nearest to `num / den`, the even one of two equally near. -/
def roundQuotient (num den : Nat) : Nat :=
  let low := num / den
  let rest := num % den
  if 2 * rest < den then low
  else if 2 * rest > den then low + 1
  else low + low % 2

/-- The magnitude bits of the double nearest to `num / den` units.  The quotient is rounded in the
place where it has 53 binary digits; a significand that rounds up to `2 ^ 53` carries into the
exponent, which is the next binade, and a value past the largest double becomes infinity. -/
def nearestBits (num den : Nat) : Nat :=
  let shift := (num / den).log2 - 52
  min (shift * leadingBit + roundQuotient num (den * twoTo shift)) infinityBits

/-- The double with the given magnitude bits and sign. -/
def ofMagnitudeBits (negative : Bool) (bits : Nat) : Float :=
  Float.ofBits (UInt64.ofNat (if negative then signPlace + bits else bits))

/-- The double nearest to the positive or zero quotient `num / den`, ties going to the even
significand. -/
def nearest (num den : Nat) : Float := ofMagnitudeBits false (nearestBits (num * one) den)

/-- The double nearest to a natural number, ties going to the even significand. -/
def ofNat (n : Nat) : Float := nearest n 1

/-- The double of the given sign whose magnitude is nearest to `count` units. -/
def ofUnits (negative : Bool) (count : Nat) : Float :=
  ofMagnitudeBits negative (nearestBits count 1)

/-- The one value that is not a number. -/
def nan : Float := Float.ofBits 0x7ff8000000000000

end Reckon.Binary64
