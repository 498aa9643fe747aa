import Reckon.Filter.Formula.Reading
import Reckon.Source.Bytewise

/-!
# Scanning filters byte by byte

The number of a field is found in the bytes of a filter; a literal is read character by character,
except that it is seen from a byte whether a quote is doubled.
-/

namespace Reckon.Bytewise

/-- The number of a field at the offset, whose dollar sign stands at `dollar`. -/
def fieldNumber (dollar : Nat) : Bytewise (Except Error Nat) := fun text offset => do
  let stop := past Char.isDigit text offset
  let digits ← slice? text offset stop
  if digits.isEmpty then
    return (.error (.filter "expected field number after '$'" dollar), offset)
  return (.ok (min (digitsValue 10 digits) Cursor.largestField), stop)

/-- The rest of a literal whose opening quote stands at `opening`, of fewer than `turns` characters:
the characters it stands for, of which `used` bytes were read before. -/
def literalFrom (capacity opening : Nat) : Nat → Nat → Bytewise (Except Error (List Char))
  | 0, _ => fun _ offset => some (.error (.unterminatedString opening), offset)
  | turns + 1, used => fun text offset => do
    match ← bump text offset with
    | (none, behind) => return (.error (.unterminatedString opening), behind)
    | (some c, behind) =>
      if c = '"' && !hasAt (· = '"') text behind then return (.ok [], behind)
      if used + c.utf8Size > capacity then return (.error (.literalTooLong capacity), behind)
      let (more, stop) ← literalFrom capacity opening turns (used + c.utf8Size) text
        (if c = '"' then behind + 1 else behind)
      return (more.map (c :: ·), stop)

/-- The literal after the blanks.  A literal that cannot be read is left where it is. -/
def literal (capacity : Nat) : Bytewise (Except Error String) := fun text offset => do
  let (start, _) ← position text offset
  match ← eat '"' text offset with
  | (false, _) => return (.error (.filter "expected string literal" start), start)
  | (true, behind) =>
    match ← literalFrom capacity start ((utf8 text).length + 1) 0 text behind with
    | (.ok found, stop) => return (.ok (String.ofList found), stop)
    | (.error e, _) => return (.error e, start)

end Reckon.Bytewise
