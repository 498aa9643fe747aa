import Reckon.Source.Operator
import Reckon.Source.Place

/-!
# Scanning byte by byte

A source is kept as bytes, and tokens can be found by looking at these: all that a token begins
with, goes on with and ends at is ASCII.  Single bytes can be looked at anywhere.  A piece of text
can only be cut out between two characters; a cut inside a character or past the end has no result,
and neither has a scan that tries it.

These are the steps of cursors in that form.  From an offset at which a cursor stands they have a
result, and it is what the cursor finds.
-/

namespace Reckon

/-- The bytes of a text in UTF-8. -/
def utf8 (text : List Char) : List UInt8 := text.flatMap String.utf8EncodeChar

/-- Whether a byte is an ASCII character with a property. -/
def byteIs (p : Char → Bool) (byte : UInt8) : Bool := byte < 128 && p (Char.ofNat byte.toNat)

/-- A way to scan a text from an offset on: what is found, and the offset behind it. -/
abbrev Bytewise (β : Type) := List Char → Nat → Option (β × Nat)

namespace Bytewise

/-- The text between two offsets. -/
def slice? (text : List Char) (start stop : Nat) : Option (List Char) := do
  let rest ← dropBytes? text start
  let behind ← dropBytes? text stop
  if start ≤ stop then some (rest.take (rest.length - behind.length)) else none

/-- Whether the byte at an offset is an ASCII character with a property. -/
def hasAt (p : Char → Bool) (text : List Char) (offset : Nat) : Bool :=
  (utf8 text)[offset]?.any (byteIs p)

/-- The offset behind all bytes from an offset on that are ASCII characters with a property. -/
def past (p : Char → Bool) (text : List Char) (offset : Nat) : Nat :=
  offset + (((utf8 text).drop offset).takeWhile (byteIs p)).length

/-- The offset behind the blanks. -/
def pastBlanks : List Char → Nat → Nat := past isBlank

/-- The offset of the next token. -/
def position : Bytewise Nat := fun text offset =>
  some (pastBlanks text offset, pastBlanks text offset)

/-- Whether only blanks are left. -/
def atEnd : Bytewise Bool := fun text offset =>
  some (decide ((utf8 text).length ≤ pastBlanks text offset), pastBlanks text offset)

/-- The next character after the blanks. -/
def peek : Bytewise (Option Char) := fun text offset => do
  let start := pastBlanks text offset
  let rest ← dropBytes? text start
  return (rest.head?, start)

/-- The error that describes the next token. -/
def unexpected {β : Type} : Bytewise (Except Error β) := fun text offset => do
  match ← peek text offset with
  | (some found, start) => return (.error (.unexpectedCharacter found start), start)
  | (none, start) => return (.error (.unexpectedEnd start), start)

/-- The character at the offset. -/
def bump : Bytewise (Option Char) := fun text offset => do
  let rest ← dropBytes? text offset
  match rest.head? with
  | none => return (none, offset)
  | some c => return (some c, offset + c.utf8Size)

/-- Whether `expected` is the next character after the blanks; if it is, it is read. -/
def eat (expected : Char) : Bytewise Bool := fun text offset => do
  let (next, start) ← peek text offset
  if next = some expected then return (true, start + expected.utf8Size)
  return (false, start)

/-- The operator after the blanks, if it is one of the candidates. -/
def operator {Op : Type} (vocabulary : List Spelling) (candidates : List (Spelling × Op)) :
    Bytewise (Option Op) := fun text offset => do
  let start := pastBlanks text offset
  let rest ← dropBytes? text start
  match longestSpelling vocabulary rest with
  | none => return (none, start)
  | some word =>
    match candidates.find? (fun candidate => candidate.1 = word) with
    | none => return (none, start)
    | some candidate => return (some candidate.2, start + utf8Length word)

/-- The name after the blanks. -/
def name : Bytewise (Option String) := fun text offset => do
  let start := pastBlanks text offset
  unless hasAt isNameStart text start do return (none, start)
  let stop := past isNamePart text (start + 1)
  let name ← slice? text start stop
  return (some (String.ofList name), stop)

/-! ## Numerals -/

/-- Whether a numeral begins at an offset. -/
def startsNumeral (text : List Char) (start : Nat) : Bool :=
  hasAt Char.isDigit text start ||
    (hasAt (· = '.') text start && hasAt Char.isDigit text (start + 1))

/-- The offset behind the fraction at an offset, if there is one there. -/
def pastFraction (text : List Char) (start : Nat) : Nat :=
  if hasAt (· = '.') text start then past Char.isDigit text (start + 1) else start

/-- The offset behind the sign at an offset, if there is one there. -/
def pastSign (text : List Char) (start : Nat) : Nat :=
  if hasAt (fun c => c = '+' || c = '-') text start then start + 1 else start

/-- The offset behind the exponent at an offset, if there is one there.  Without digits there is
none. -/
def pastExponent (text : List Char) (start : Nat) : Nat :=
  if hasAt (fun c => c = 'e' || c = 'E') text start then
    let digits := pastSign text (start + 1)
    if hasAt Char.isDigit text digits then past Char.isDigit text digits else start
  else start

/-- The offset behind the decimal numeral at an offset. -/
def pastDecimal (text : List Char) (start : Nat) : Nat :=
  pastExponent text (pastFraction text (past Char.isDigit text start))

/-- The value of the numeral after the blanks. -/
def number : Bytewise (Except Error (Option Float)) := fun text offset => do
  let start := pastBlanks text offset
  unless startsNumeral text start do return (.ok none, start)
  if hasAt (· = '0') text start && hasAt (fun c => c = 'x' || c = 'X') text (start + 1) then
    let stop := past isHexDigit text (start + 2)
    let digits ← slice? text (start + 2) stop
    if digits.isEmpty then
      let literal ← slice? text start stop
      return (.error (.invalidNumber (String.ofList literal) start), start)
    return (.ok (some (Numeral.hexadecimalValue digits)), stop)
  let stop := pastDecimal text start
  let literal ← slice? text start stop
  match (Numeral.decimalAt literal).value? with
  | some x => return (.ok (some x), stop)
  | none => return (.error (.invalidNumber (String.ofList literal) start), start)

end Bytewise

end Reckon
