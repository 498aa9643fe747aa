import Reckon.Source.Name
import Reckon.Source.Numeral

/-!
# Places

A place is any byte offset in a source.  Cursors stand between characters only, which is all that
the grammars need; a tool that moves through a source by bytes can also come to a stop inside a
character. No token begins there, and no blank: what reads tokens finds none and stays where it is.
-/

namespace Reckon

/-- What is left of a text after its first `n` bytes, unless they end inside a character. -/
def dropBytes? : List Char → Nat → Option (List Char)
  | text, 0 => some text
  | [], _ + 1 => none
  | c :: rest, n + 1 => if c.utf8Size ≤ n + 1 then dropBytes? rest (n + 1 - c.utf8Size) else none

/-- As many bytes can be dropped as some beginning of the text takes. -/
theorem dropBytes?_eq_some_iff {text rest : List Char} {n : Nat} :
    dropBytes? text n = some rest ↔ ∃ before, text = before ++ rest ∧ n = utf8Length before := by
  induction text generalizing n with
  | nil =>
    cases n with
    | zero => exact ⟨fun h => ⟨[], by simp_all [dropBytes?], rfl⟩, by simp_all [dropBytes?]⟩
    | succ n => simp [dropBytes?, utf8Length]
  | cons c text ih =>
    cases n with
    | zero =>
      refine ⟨fun h => ⟨[], by simp_all [dropBytes?], rfl⟩, ?_⟩
      rintro ⟨before, h, hn⟩
      cases before with
      | nil => simp_all [dropBytes?]
      | cons d before =>
        have := d.utf8Size_pos
        simp only [utf8Length] at hn
        omega
    | succ n =>
      unfold dropBytes?
      constructor
      · intro h
        split at h
        · obtain ⟨before, rfl, hn⟩ := ih.1 h
          exact ⟨c :: before, rfl, by simp only [utf8Length]; omega⟩
        · simp at h
      · rintro ⟨before, h, hn⟩
        cases before with
        | nil => simp [utf8Length] at hn
        | cons d before =>
          obtain ⟨rfl, rfl⟩ := List.cons.inj h
          simp only [utf8Length] at hn
          rw [if_pos (by omega)]
          exact ih.2 ⟨before, rfl, by omega⟩

/-- A byte offset in a source, perhaps inside a character. -/
structure Place where
  source : String
  offset : Nat
  deriving DecidableEq, Repr

namespace Place

/-- The start of a source. -/
def start (source : String) : Place := ⟨source, 0⟩

/-- How many different offsets there are: they are 64-bit numbers. -/
def offsetCount : Nat := 18446744073709551616

/-- The place `n` bytes further on, or at the end.  A sum past the last offset starts again at
zero. -/
def advance (p : Place) (n : Nat) : Place :=
  { p with offset := min ((p.offset + n) % offsetCount) (utf8Length p.source.toList) }

/-- The byte at the place, in UTF-8. -/
def byte? (p : Place) : Option UInt8 :=
  (p.source.toList.flatMap String.utf8EncodeChar)[p.offset]?

/-- The cursor at the place, unless the place is inside a character. -/
def cursor? (p : Place) : Option Cursor :=
  (dropBytes? p.source.toList p.offset).map fun rest => ⟨rest, p.offset⟩

/-- Takes a step of the cursor.  Inside a character it is not taken, and the answer is
`otherwise`. -/
def read {α : Type} (step : Cursor → α × Cursor) (otherwise : α) (p : Place) : α × Place :=
  match p.cursor? with
  | some c => ((step c).1, { p with offset := (step c).2.offset })
  | none => (otherwise, p)

/-- The place behind the blanks that follow. -/
def skipBlanks (p : Place) : Place := (p.read (fun c => ((), c.skipBlanks)) ()).2

/-- Whether only blanks are left, and the place behind the blanks. -/
def atEnd (p : Place) : Bool × Place := p.read (fun c => (c.atEnd, c.skipBlanks)) false

/-- The name after the blanks, read as far as it goes. -/
def name (p : Place) : Option String × Place := p.read Cursor.name none

/-- The value of the numeral after the blanks, if there is one. -/
def number (p : Place) : Except Error (Option Float) × Place := p.read Cursor.number (.ok none)

end Place

end Reckon
