import Reckon.Filter.Pattern.Basic
import Reckon.Source.Place
import Std.Data.HashSet

/-!
# Searching for patterns

The search takes the pieces in order.  A repeated piece first takes as many characters as it can and
then gives them back one by one.  Whether the pieces from some piece on match at some place depends
on nothing else, so a search for a pattern with repetitions remembers in which of these states it
has failed, over all starts; this keeps the work polynomial.
-/

namespace Reckon

/-- The slots of the states in which a search has failed. -/
abbrev Failures := Std.HashSet Nat

namespace Atom

/-- The places after no, one, two, … characters that the atom takes, as far as it accepts them. -/
def stops (atom : Atom) : List Char → Nat → List Cursor
  | [], offset => [⟨[], offset⟩]
  | c :: rest, offset =>
    ⟨c :: rest, offset⟩ ::
      if atom.accepts c then stops atom rest (offset + c.utf8Size) else []

end Atom

namespace Piece

/-- Where a piece that begins at a cursor can end, the farthest place first. -/
def ends (piece : Piece) (start : Cursor) : List Cursor :=
  match piece.repetition with
  | .once =>
    match start.rest with
    | [] => []
    | c :: _ => if piece.atom.accepts c then [start.skip 1] else []
  | .zeroOrMore => (piece.atom.stops start.rest start.offset).reverse
  | .oneOrMore => ((piece.atom.stops start.rest start.offset).drop 1).reverse

end Piece

/-- What a search keeps in mind all the time. -/
structure Search where
  /-- The length of the text in bytes. -/
  length : Nat
  /-- Whether a match must reach the end of the text. -/
  anchoredEnd : Bool
  /-- Whether failures are recorded. -/
  remembers : Bool

namespace Search

/-- The slot of a state: the pieces from this index on, matched at this offset. -/
def slot (s : Search) (index offset : Nat) : Nat := index * (s.length + 1) + offset

/-- Whether these pieces, the first of which has this index, match at a cursor.  Failures are looked
up and recorded. -/
def matchAt (s : Search) : Nat → List Piece → Cursor → StateM Failures Bool
  | _, [], start => pure (!s.anchoredEnd || start.offset = s.length)
  | index, piece :: pieces, start => do
    let slot := s.slot index start.offset
    if s.remembers && (← get).contains slot then return false
    let found ← (piece.ends start).anyM fun stop => matchAt s (index + 1) pieces stop
    if s.remembers && !found then modify fun failures => failures.insert slot
    return found

end Search

namespace Pattern

/-- The byte every match begins with, where the pattern begins with an ASCII character that must
occur. -/
def leadingByte? (p : Pattern) : Option UInt8 :=
  match p.pieces with
  | ⟨.char c, .once⟩ :: _ | ⟨.char c, .oneOrMore⟩ :: _ =>
    if c.toNat < 128 then some c.toUInt8 else none
  | _ => none

/-- The offsets at which a byte stands in the UTF-8 form of a text. -/
def byteOffsets (byte : UInt8) (text : List Char) : List Nat :=
  (text.flatMap String.utf8EncodeChar).zipIdx.filterMap fun (found, offset) =>
    if found = byte then some offset else none

/-- The places where a match can begin. -/
def starts (p : Pattern) (text : String) : List Cursor :=
  if p.anchoredStart then [Cursor.ofString text]
  else
    match p.leadingByte? with
    | some byte =>
      (byteOffsets byte text.toList).filterMap fun offset => Place.cursor? ⟨text, offset⟩
    | none => Atom.any.stops text.toList 0

/-- The search for this pattern in a text. -/
def search (p : Pattern) (text : String) : Search where
  length := utf8Length text.toList
  anchoredEnd := p.anchoredEnd
  remembers := p.pieces.any fun piece => piece.repetition ≠ .once

/-- Whether a pattern matches somewhere in a text. -/
def isMatch (p : Pattern) (text : String) : Bool :=
  (((p.starts text).anyM fun start => (p.search text).matchAt 0 p.pieces start).run ∅).1

end Pattern

end Reckon
