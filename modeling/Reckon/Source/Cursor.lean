/-!
# Cursors

A cursor stands between two characters of a source text.  It holds the characters still to be read,
so that reading is a matter of lists of characters, and the number of bytes before it in UTF-8,
which is what error messages point at.  A cursor only ever moves forward over whole characters.

The grammars built on it skip blanks before every token: `skipBlanks`, `peek` and `eat` do so, and
the cursor they return stands behind the blanks also when nothing else was read.
-/

namespace Reckon

/-- Blanks are the space, the tabulator, the line feed, the form feed and the carriage return. -/
def isBlank (c : Char) : Bool :=
  c = ' ' || c = '\t' || c = '\n' || c = '\x0c' || c = '\r'

/-- The number of bytes that characters take in UTF-8. -/
def utf8Length : List Char → Nat
  | [] => 0
  | c :: cs => c.utf8Size + utf8Length cs

/-- A stand between two characters of a source text: what is still to be read, and the number of
bytes before it. -/
structure Cursor where
  rest : List Char
  offset : Nat
  deriving DecidableEq, Repr

namespace Cursor

/-- The cursor at the start of a text. -/
def ofString (source : String) : Cursor := ⟨source.toList, 0⟩

/-- The cursor `n` characters further on, or at the end. -/
def skip (c : Cursor) (n : Nat) : Cursor :=
  ⟨c.rest.drop n, c.offset + utf8Length (c.rest.take n)⟩

/-- The cursor behind the blanks that follow. -/
def skipBlanks (c : Cursor) : Cursor := c.skip (c.rest.takeWhile isBlank).length

/-- Whether only blanks are left. -/
def atEnd (c : Cursor) : Bool := c.skipBlanks.rest.isEmpty

/-- The next character after the blanks. -/
def peek (c : Cursor) : Option Char := c.skipBlanks.rest.head?

/-- The character at the cursor, blanks included, and the cursor behind it. -/
def bump (c : Cursor) : Option Char × Cursor := (c.rest.head?, c.skip 1)

/-- Whether `expected` is the next character after the blanks; if it is, it is read. -/
def eat (expected : Char) (c : Cursor) : Bool × Cursor :=
  if c.peek = some expected then (true, c.skipBlanks.skip 1) else (false, c.skipBlanks)

end Cursor

end Reckon
