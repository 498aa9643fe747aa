import Reckon.Binary64.Basic

/-!
# The decimal text of doubles

A double is written with the fewest decimal digits that read back to it, always positionally and
without a superfluous point.  `Shortest.digits` finds the digits: the reals that round to a double
form an interval, and the two neighbours of the double on the grid of `10 ^ p` are tested against
it, for ever finer grids.  The first grid with a hit has the fewest digits; of two hits the nearer
is taken, and the larger of two equally near.
-/

namespace Reckon.Binary64

namespace Shortest

/-- The reals that round to a positive double, in quarters of a unit. -/
structure Interval where
  low : Nat
  high : Nat
  /-- Whether the two ends belong to the interval. -/
  closed : Bool

/-- The reals that round to the double with these magnitude bits.  It reaches half a unit in the
last place up and down, but only a quarter down from the least number of a binade, below which the
doubles are twice as dense.  The ends round to the even significand. -/
def interval (bits : Nat) : Interval where
  low :=
    4 * unitsOf bits -
      (if significand bits = leadingBit ∧ 0 < place bits then 1 else 2) * twoTo (place bits)
  high := 4 * unitsOf bits + 2 * twoTo (place bits)
  closed := significand bits % 2 = 0

/-- Whether `num / den` quarters of a unit lie in the interval. -/
def Interval.covers (i : Interval) (num den : Nat) : Bool :=
  if i.closed then i.low * den ≤ num ∧ num ≤ i.high * den
  else i.low * den < num ∧ num < i.high * den

/-- How many decimal digits stand before the point of a positive magnitude; below one tenth the
number is negative and counts the zeros after the point. -/
def pointPosition (count : Nat) : Int :=
  ((count * tenTo 330 / one).repr.length : Int) - 330

/-- The multiple of `10 ^ p` that reads back to the double with these magnitude bits, if one of its
two neighbours on that grid does. -/
def onGrid (bits : Nat) (p : Int) : Option Nat :=
  let count := unitsOf bits
  let step := tenTo p.toNat * one
  let scale := tenTo (-p).toNat
  let i := interval bits
  let below := count * scale / step
  let rest := count * scale % step
  let fits := fun c => i.covers (4 * c * step) scale
  match fits below, fits (below + 1) with
  | true, true => some (if 2 * rest < step then below else below + 1)
  | true, false => some below
  | false, true => some (below + 1)
  | false, false => none

/-- The first grid with a hit, for digit counts from `17 - fuel` on; 17 digits always suffice. -/
def search (bits : Nat) (point : Int) : Nat → Nat × Int
  | 0 => ((onGrid bits (point - 17)).getD 0, point - 17)
  | fuel + 1 =>
    let p := point - (16 - fuel : Nat)
    match onGrid bits p with
    | some c => (c, p)
    | none => search bits point fuel

/-- The number `c` and exponent `p` of the shortest decimal `c * 10 ^ p` that reads back to the
double with these positive magnitude bits. -/
def digits (bits : Nat) : Nat × Int :=
  search bits (pointPosition (unitsOf bits)) 16

end Shortest

/-- A list of characters without the zeros at its end. -/
def dropTrailingZeros (cs : List Char) : List Char :=
  (cs.reverse.dropWhile (· == '0')).reverse

/-- A list of digits, filled up with zeros in front to the given length. -/
def padLeft (width : Nat) (cs : List Char) : List Char :=
  List.replicate (width - cs.length) '0' ++ cs

/-- The decimal `c * 10 ^ p`, written positionally. -/
def positional (c : Nat) (p : Int) : String :=
  if 0 ≤ p then c.repr ++ String.ofList (List.replicate p.toNat '0')
  else
    let places := (-p).toNat
    let fraction := dropTrailingZeros (padLeft places (c % tenTo places).repr.toList)
    let whole := (c / tenTo places).repr
    if fraction.isEmpty then whole else whole ++ "." ++ String.ofList fraction

/-- The text of a magnitude. -/
def magnitudeText (bits : Nat) : String :=
  if bits = 0 then "0"
  else if bits ≥ infinityBits then "inf"
  else positional (Shortest.digits bits).1 (Shortest.digits bits).2

/-- The text of a double: the shortest decimal that reads back, with a minus sign before every
negative value, zero and infinity included. -/
def text (x : Float) : String :=
  if x.isNaN then "NaN"
  else if signBit x then "-" ++ magnitudeText (magnitudeBits x)
  else magnitudeText (magnitudeBits x)

end Reckon.Binary64
