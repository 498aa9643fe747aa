import Reckon.Filter.Formula.Basic
import Reckon.Source.Precedence

/-!
# Reading formulas

The grammar of filters, from the loosest phrase to the tightest:

* alternatives, joined by `|` or `||`;
* conjunctions, joined by `&` or `&&`;
* an operand is a test, a formula in parentheses, or an operand behind `!`;
* a test is a field `$N`, a comparison `==`, `!=`, `~` or `!~`, and a literal in double quotes.

A double quote inside a literal is written twice.  The nesting of parentheses and negations and the
length of literals are limited, and every field must exist in the row.
-/

namespace Reckon

/-- The connectives between formulas. -/
inductive Connective
  | and
  | or
  deriving DecidableEq, Repr

namespace Connective

/-- The formula that a connective makes of two. -/
def build? : Connective → List Formula → Option Formula
  | and, [left, right] => some (.and left right)
  | or, [left, right] => some (.or left right)
  | _, _ => none

end Connective

namespace Cursor

/-- The rest of a literal whose opening quote stands at `opening`: the characters it stands for, of
which `used` bytes were read before, and how many characters it is written with. -/
def literalFrom (capacity opening : Nat) : Nat → List Char → Except Error (List Char × Nat)
  | _, [] => .error (.unterminatedString opening)
  | used, '"' :: '"' :: rest =>
    if used + 1 > capacity then .error (.literalTooLong capacity)
    else (literalFrom capacity opening (used + 1) rest).map fun r => ('"' :: r.1, r.2 + 2)
  | _, '"' :: _ => .ok ([], 1)
  | used, c :: rest =>
    if used + c.utf8Size > capacity then .error (.literalTooLong capacity)
    else (literalFrom capacity opening (used + c.utf8Size) rest).map fun r =>
      (c :: r.1, r.2 + 1)

/-- The literal after the blanks. -/
def literal (capacity : Nat) (c : Cursor) : Except Error String × Cursor :=
  let start := c.skipBlanks
  match start.rest with
  | '"' :: rest =>
    match literalFrom capacity start.offset 0 rest with
    | .ok (text, length) => (.ok (String.ofList text), start.skip (length + 1))
    | .error e => (.error e, start)
  | _ => (.error (.filter "expected string literal" start.offset), start)

/-- The largest number of a field; a larger one that is written counts as this. -/
def largestField : Nat := 18446744073709551615

/-- The number of a field at the cursor, whose dollar sign stands at `dollar`. -/
def fieldNumber (dollar : Nat) (c : Cursor) : Except Error Nat × Cursor :=
  let digits := c.rest.takeWhile Char.isDigit
  if digits.isEmpty then (.error (.filter "expected field number after '$'" dollar), c)
  else (.ok (min (digitsValue 10 digits) largestField), c.skip digits.length)

end Cursor

namespace Formula

/-- What a filter is read with. -/
structure Limits where
  /-- How many bytes a literal may have. -/
  literalCapacity : Nat
  /-- How deep parentheses and negations may be nested. -/
  nestingLimit : Nat

/-- The connectives by their levels. -/
def connectives : OperatorTable Connective := .ofLevels [
  [("|".toList, .or), ("||".toList, .or)],
  [("&".toList, .and), ("&&".toList, .and)]]

/-- The comparisons and how they are written. -/
def comparisons : List (Spelling × Comparison) :=
  [("==".toList, .equal), ("!=".toList, .notEqual), ("~".toList, .like), ("!~".toList, .notLike)]

/-- A test of a field of a row with this many fields. -/
def fieldTest (literalCapacity fieldCount : Nat) : Reader Formula Unit := do
  let dollar ← Reader.tokenPosition
  unless ← Reader.eat '$' do Reader.unexpected
  let field ← Reader.scanExcept (Cursor.fieldNumber dollar)
  if field = 0 || fieldCount < field then throw (.fieldOutOfRange field fieldCount)
  let position ← Reader.tokenPosition
  match ← Reader.scan (Cursor.operator (comparisons.map Prod.fst) comparisons) with
  | none => throw (.filter "expected '==', '!=', '~' or '!~'" position)
  | some comparison =>
    let literal ← Reader.scanExcept (Cursor.literal literalCapacity)
    Reader.push (.test ⟨field, comparison, literal⟩)

/-- Replaces the formulas since `start` by what `build` makes of them. -/
def join (build : List Formula → Option Formula) (start : Nat) : Reader Formula Unit := do
  let position := (← get).cursor.offset
  Reader.reduceSince start build fun _ => .filter "missing operand" position

/-- The negation of a formula. -/
def negation? : List Formula → Option Formula
  | [condition] => some (.not condition)
  | _ => none

/-- An operand; `inner` reads the operand behind a negation and `group` a formula in
parentheses. -/
def operandWith (test inner group : Reader Formula Unit) : Reader Formula Unit := do
  let opening ← Reader.tokenPosition
  if ← Reader.eat '!' then
    let start ← Reader.mark
    inner
    join negation? start
  else if ← Reader.eat '(' then
    group
    Reader.closeGroup opening
  else test

/-- The connectives around these operands. -/
def grammar (operand : Reader Formula Unit) : Grammar Formula Connective where
  table := connectives
  operand := operand
  reduce connective start := join connective.build? start

/-- The reader of an operand inside which at most `allowance` parentheses and negations may be
opened; `limit` is only for the error. -/
def operandReader (limit : Nat) (test : Reader Formula Unit) : Nat → Reader Formula Unit
  | 0 => fun s =>
    operandWith test (throw (.nestingTooDeep limit)) (throw (.nestingTooDeep limit)) s
  | n + 1 => fun s =>
    operandWith test (fun t => operandReader limit test n t)
      (grammar (fun t => operandReader limit test n t)).phrase s

/-- The reader of a whole formula about rows with this many fields. -/
def reader (limits : Limits) (fieldCount : Nat) : Reader Formula Unit :=
  (grammar (operandReader limits.nestingLimit (fieldTest limits.literalCapacity fieldCount)
    limits.nestingLimit)).phrase

/-- The formula that a text stands for, about rows with this many fields.  A blank text stands for
none. -/
def ofString (limits : Limits) (fieldCount : Nat) (text : String) :
    Except Error (Option Formula) :=
  if (Cursor.ofString text).atEnd then .ok none
  else
    match reader limits fieldCount ⟨Cursor.ofString text, []⟩ with
    | .error e _ => .error e
    | .ok _ s =>
      if s.cursor.atEnd then .ok s.done.head?
      else .error (.trailingInput s.cursor.skipBlanks.offset)

end Formula

end Reckon
