import Reckon.Source.Cursor
import Reckon.Binary64.Basic
import Reckon.Error

/-!
# Numerals

An unsigned numeral is hexadecimal (`0x` and digits) or decimal (digits, a point with digits on at
least one side, an exponent).  `Numeral.at?` reads the longest numeral a text begins with,
`Numeral.text` is the text it was read from, and `Numeral.value` the double it stands for.
-/

namespace Reckon

/-- Whether a character is a hexadecimal digit, in either case. -/
def isHexDigit (c : Char) : Bool :=
  c.isDigit || ('a' ≤ c && c ≤ 'f') || ('A' ≤ c && c ≤ 'F')

/-- The value of a hexadecimal digit. -/
def hexDigitValue (c : Char) : Nat :=
  if c.isDigit then c.toNat - '0'.toNat
  else if 'a' ≤ c then c.toNat - 'a'.toNat + 10
  else c.toNat - 'A'.toNat + 10

/-- The number written by these digits in the given base. -/
def digitsValue (base : Nat) (cs : List Char) : Nat :=
  cs.foldl (fun n c => n * base + hexDigitValue c) 0

/-- The exponent part of a decimal numeral. -/
structure Exponent where
  marker : Char
  sign : Option Char
  digits : List Char
  deriving DecidableEq, Repr

/-- An unsigned numeral as it is written. -/
inductive Numeral
  | hexadecimal (marker : Char) (digits : List Char)
  | decimal (whole : List Char) (fraction : Option (List Char)) (exponent : Option Exponent)
  deriving DecidableEq, Repr

namespace Exponent

/-- The written form of an exponent. -/
def text (e : Exponent) : List Char := e.marker :: (e.sign.toList ++ e.digits)

/-- The exponent a text begins with.  The letter `e` belongs to the numeral only if a digit
follows, behind an optional sign. -/
def at? : List Char → Option Exponent
  | [] => none
  | marker :: more =>
    if marker = 'e' ∨ marker = 'E' then
      let sign := more.head?.filter fun c => c = '+' ∨ c = '-'
      let digits := (more.drop sign.toList.length).takeWhile Char.isDigit
      if digits.isEmpty then none else some ⟨marker, sign, digits⟩
    else none

/-- An exponent of this size leads past every double, unless tens of thousands of digits make up for
it. -/
def saturation : Nat := 65536

/-- The size of an exponent.  Digits behind those that reach `saturation` do not count, so that the
size stays small however many digits there are. -/
def magnitude (e : Exponent) : Nat :=
  e.digits.foldl (fun n c => if n < saturation then n * 10 + hexDigitValue c else n) 0

/-- The value of an exponent. -/
def value (e : Exponent) : Int :=
  if e.sign = some '-' then -(e.magnitude : Int) else e.magnitude

end Exponent

namespace Numeral

/-- The written form of a numeral. -/
def text : Numeral → List Char
  | hexadecimal marker digits => '0' :: marker :: digits
  | decimal whole fraction exponent =>
    whole ++ (fraction.elim [] fun ds => '.' :: ds) ++ (exponent.elim [] Exponent.text)

/-- Whether a text begins with a numeral: with a digit, or with a point and a digit. -/
def starts : List Char → Bool
  | [] => false
  | c :: more => c.isDigit || (c = '.' && more.head?.any Char.isDigit)

/-- The fraction a text begins with: a point and the digits behind it, perhaps none. -/
def fractionAt? : List Char → Option (List Char)
  | '.' :: more => some (more.takeWhile Char.isDigit)
  | _ => none

/-- The longest decimal numeral a text begins with. -/
def decimalAt (cs : List Char) : Numeral :=
  let whole := cs.takeWhile Char.isDigit
  let fraction := fractionAt? (cs.drop whole.length)
  decimal whole fraction (Exponent.at? (cs.drop (decimal whole fraction none).text.length))

/-- The numeral a text begins with, read as far as it goes.  After `0x` the digits may be missing;
such a numeral has no value. -/
def at? (cs : List Char) : Option Numeral :=
  if starts cs then
    match cs with
    | '0' :: 'x' :: more => some (hexadecimal 'x' (more.takeWhile isHexDigit))
    | '0' :: 'X' :: more => some (hexadecimal 'X' (more.takeWhile isHexDigit))
    | _ => some (decimalAt cs)
  else none

/-- The double nearest to `m * 10 ^ e`.  A number with more than 310 digits before the point is
past every double, and one with more than 330 zeros behind the point below every double, whatever
its digits. -/
def scaled (m : Nat) (e : Int) : Float :=
  if m = 0 then 0
  else
    let point := (m.repr.length : Int) + e
    if 310 < point then Binary64.ofMagnitudeBits false Binary64.infinityBits
    else if point < -330 then 0
    else Binary64.nearest (m * Binary64.tenTo e.toNat) (Binary64.tenTo (-e).toNat)

/-- The double a string of hexadecimal digits stands for: the nearest one up to 128 bits, and
beyond that the result of accumulating the digits in doubles. -/
def hexadecimalValue (digits : List Char) : Float :=
  let exact := digitsValue 16 digits
  if exact < Binary64.twoTo 128 then Binary64.ofNat exact
  else digits.foldl (fun x c => x * 16 + Binary64.ofNat (hexDigitValue c)) 0

/-- The double a numeral stands for, if it has digits. -/
def value? : Numeral → Option Float
  | hexadecimal _ digits => if digits.isEmpty then none else some (hexadecimalValue digits)
  | decimal whole fraction exponent =>
    let places := fraction.getD []
    some (scaled (digitsValue 10 (whole ++ places))
      (exponent.elim 0 Exponent.value - (places.length : Int)))

end Numeral

namespace Cursor

/-- The value of the numeral after the blanks, if there is one.  A numeral without a value is an
error, at which the cursor stays. -/
def number (c : Cursor) : Except Error (Option Float) × Cursor :=
  let start := c.skipBlanks
  match Numeral.at? start.rest with
  | none => (.ok none, start)
  | some numeral =>
    match numeral.value? with
    | some x => (.ok (some x), start.skip numeral.text.length)
    | none => (.error (.invalidNumber (String.ofList numeral.text) start.offset), start)

end Cursor

end Reckon
