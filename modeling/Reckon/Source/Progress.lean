import Reckon.Source.Name
import Reckon.Source.Numeral

/-!
# Readers

A reader works its way through a source and leaves results behind.  What it has done so far is a
`Progress`: where the cursor stands, and the results finished so far.  Results that belong together
are found by their place in that list: a reader notes how many results there are (`mark`) before it
reads the parts of a phrase, and replaces the results finished since then by the phrase
(`reduceSince`).

Readers fail with an `Error` and keep their progress, so that a caller can tell what was read
before the failure.
-/

namespace Reckon

/-- How far a reader has come. -/
structure Progress (α : Type) where
  /-- Where it stands in the source. -/
  cursor : Cursor
  /-- The finished results, the newest first. -/
  done : List α

/-- A reader of results of type `α` that answers with a `β`. -/
abbrev Reader (α β : Type) := EStateM Error (Progress α) β

namespace Reader

variable {α β : Type}

/-- A step of the cursor as a reader. -/
def scan (step : Cursor → β × Cursor) : Reader α β := fun s =>
  .ok (step s.cursor).1 { s with cursor := (step s.cursor).2 }

/-- A step of the cursor that may fail, as a reader. -/
def scanExcept (step : Cursor → Except Error β × Cursor) : Reader α β := fun s =>
  match step s.cursor with
  | (.ok b, c) => .ok b { s with cursor := c }
  | (.error e, c) => .error e { s with cursor := c }

/-- The offset of the next token. -/
def tokenPosition : Reader α Nat := scan fun c => (c.skipBlanks.offset, c.skipBlanks)

/-- The next character after the blanks. -/
def peek : Reader α (Option Char) := scan fun c => (c.peek, c.skipBlanks)

/-- Whether only blanks are left. -/
def atEnd : Reader α Bool := scan fun c => (c.atEnd, c.skipBlanks)

/-- Whether `expected` comes next; if it does, it is read. -/
def eat (expected : Char) : Reader α Bool := scan (Cursor.eat expected)

/-- The error that describes what stands at the cursor. -/
def unexpectedAt (c : Cursor) : Error :=
  match c.peek with
  | some found => .unexpectedCharacter found c.skipBlanks.offset
  | none => .unexpectedEnd c.skipBlanks.offset

/-- Fails at the next token. -/
def unexpected : Reader α β := scanExcept fun c => (.error (unexpectedAt c), c.skipBlanks)

/-- Reads `expected` or fails at what stands in its place. -/
def expect (expected : Char) : Reader α Unit := do
  unless ← eat expected do unexpected

/-- Reads the closing parenthesis of a group that was opened at `opening`. -/
def closeGroup (opening : Nat) : Reader α Unit := do
  unless ← eat ')' do
    if ← atEnd then throw (.unterminatedGroup opening)
    unexpected

/-- How many results are finished. -/
def mark : Reader α Nat := fun s => .ok s.done.length s

/-- Adds a finished result. -/
def push (a : α) : Reader α Unit := fun s => .ok () { s with done := a :: s.done }

end Reader

namespace Progress

variable {α : Type}

/-- The results finished since there were `start` of them, the oldest first. -/
def since (s : Progress α) (start : Nat) : List α := (s.done.take (s.done.length - start)).reverse

/-- The progress in which the results finished since there were `start` of them are replaced. -/
def replaceSince (s : Progress α) (start : Nat) (a : α) : Progress α :=
  { s with done := a :: s.done.drop (s.done.length - start) }

end Progress

namespace Reader

variable {α : Type}

/-- Replaces the results finished since `start` by the one that `build` makes of them, and fails
with `otherwise` where it makes none. -/
def reduceSince (start : Nat) (build : List α → Option α) (otherwise : List α → Error) :
    Reader α Unit := fun s =>
  match build (s.since start) with
  | some a => .ok () (s.replaceSince start a)
  | none => .error (otherwise (s.since start)) s

end Reader

end Reckon
