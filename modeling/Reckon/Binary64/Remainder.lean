import Reckon.Binary64.Basic

/-!
# The remainder of doubles

The remainder of a division whose quotient is cut toward zero.  It is always a double, so it is
computed exactly, on the magnitudes counted in units.
-/

namespace Reckon.Binary64

/-- `a` less the multiple of `b` cut toward zero, with the sign of `a`. -/
def remainder (a b : Float) : Float :=
  if a.isNaN || b.isNaN || !isFinite a || units b = 0 then nan
  else if !isFinite b then a
  else ofUnits (signBit a) (units a % units b)

end Reckon.Binary64
