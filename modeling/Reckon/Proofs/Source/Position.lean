import Reckon.Proofs.Formula.Bytewise

/-!
# Positions

A position in a source is right if a cursor of the source stands there: then it is the offset of the
end of some characters, and not past the last of them (`Cursor.isValid_iff_exists_standsIn`).  All
that readers do with a cursor is to pass whole characters (`Cursor.Access`), so that a cursor that
stands in its source goes on to stand in it, and the same can be done byte by byte
(`Cursor.Access.agrees`).

An error points into a source if its position is right in this sense and what it says about the
source is true of what stands there (`Error.PointsInto`).
-/

namespace Reckon

/-- The number of bytes of a string. -/
lemma utf8Length_toList (source : String) : utf8Length source.toList = source.utf8ByteSize := by
  have hofList : ∀ text : List Char, utf8Length text = (String.ofList text).utf8ByteSize := by
    intro text
    induction text with
    | nil => rfl
    | cons c text ih =>
      rw [utf8Length, ih, String.ofList_cons, String.utf8ByteSize_append,
        String.utf8ByteSize_singleton]
  rw [hofList, String.ofList_toList]

namespace Cursor

variable {c d : Cursor} {text : List Char}

/-- A cursor stands between two parts of a source. -/
lemma StandsIn.exists_append {source : String} (h : c.StandsIn source.toList) :
    ∃ before rest, source = before ++ rest ∧ c.offset = before.utf8ByteSize ∧
      c.rest = rest.toList := by
  obtain ⟨before, hsource, hoffset⟩ := h
  refine ⟨String.ofList before, String.ofList c.rest, ?_, ?_, String.toList_ofList.symm⟩
  · rw [← String.ofList_append, ← hsource, String.ofList_toList]
  · have hbytes := utf8Length_toList (String.ofList before)
    rw [String.toList_ofList] at hbytes
    exact hoffset.trans hbytes

/-- The offsets at which cursors stand in a source are those between two characters. -/
lemma isValid_iff_exists_standsIn {source : String} {position : ℕ} :
    String.Pos.Raw.IsValid source ⟨position⟩ ↔
      ∃ rest, (⟨rest, position⟩ : Cursor).StandsIn source.toList := by
  rw [String.Pos.Raw.isValid_iff_exists_append]
  constructor
  · rintro ⟨before, rest, rfl, hposition⟩
    have hposition : position = before.utf8ByteSize := congrArg String.Pos.Raw.byteIdx hposition
    exact ⟨rest.toList, before.toList, String.toList_append,
      hposition.trans (utf8Length_toList before).symm⟩
  · rintro ⟨rest, hstands⟩
    obtain ⟨before, rest', hsource, hposition, -⟩ := hstands.exists_append
    exact ⟨before, rest', hsource, congrArg String.Pos.Raw.mk hposition⟩

/-! ## Accesses -/

/-- The ways in which readers look at a source: a scan of its bytes, and the step of the cursor that
stands for it. -/
inductive Access : {β : Type} → Bytewise β → (Cursor → β × Cursor) → Prop
  | position : Access Bytewise.position fun c => (c.skipBlanks.offset, c.skipBlanks)
  | atEnd : Access Bytewise.atEnd fun c => (c.atEnd, c.skipBlanks)
  | peek : Access Bytewise.peek fun c => (c.peek, c.skipBlanks)
  | unexpected {β : Type} : Access (Bytewise.unexpected : Bytewise (Except Error β)) fun c =>
      (.error (Reader.unexpectedAt c), c.skipBlanks)
  | character : Access Bytewise.bump Cursor.bump
  | mark (expected : Char) : Access (Bytewise.eat expected) (Cursor.eat expected)
  | name : Access Bytewise.name Cursor.name
  | number : Access Bytewise.number Cursor.number
  | operator {Op : Type} (vocabulary : List Spelling) (candidates : List (Spelling × Op)) :
      Access (Bytewise.operator vocabulary candidates) (Cursor.operator vocabulary candidates)
  | fieldNumber (dollar : ℕ) : Access (Bytewise.fieldNumber dollar) (Cursor.fieldNumber dollar)
  | literal (capacity : ℕ) : Access (Bytewise.literal capacity) (Cursor.literal capacity)

variable {β : Type} {bytes : Bytewise β} {step : Cursor → β × Cursor}

/-- Where a cursor stands in the source, a scan of the bytes cuts the source between characters
only, and finds what the cursor finds. -/
theorem Access.agrees (h : Access bytes step) : Bytewise.Agrees bytes step := by
  cases h with
  | position => exact Bytewise.agrees_position
  | atEnd => exact Bytewise.agrees_atEnd
  | peek => exact Bytewise.agrees_peek
  | unexpected => exact Bytewise.agrees_unexpected
  | character => exact Bytewise.agrees_bump
  | mark expected => exact Bytewise.agrees_eat expected
  | name => exact Bytewise.agrees_name
  | number => exact Bytewise.agrees_number
  | operator vocabulary candidates => exact Bytewise.agrees_operator vocabulary candidates
  | fieldNumber dollar => exact Bytewise.agrees_fieldNumber dollar
  | literal capacity => exact Bytewise.agrees_literal capacity

/-- A cursor stays in its source, whatever way it is moved. -/
theorem Access.standsIn (h : Access bytes step) (hc : c.StandsIn text) :
    (step c).2.StandsIn text := by
  cases h with
  | position | atEnd | peek | unexpected => exact hc.skipBlanks
  | character => exact hc.skip 1
  | mark expected =>
    unfold eat
    split
    · exact hc.skipBlanks.skip 1
    · exact hc.skipBlanks
  | name =>
    unfold Cursor.name
    dsimp only
    split
    · exact hc.skipBlanks
    · split
      · exact hc.skipBlanks.skip _
      · exact hc.skipBlanks
  | number =>
    unfold Cursor.number
    dsimp only
    split
    · exact hc.skipBlanks
    · split
      · exact hc.skipBlanks.skip _
      · exact hc.skipBlanks
  | operator vocabulary candidates =>
    unfold Cursor.operator
    split
    · exact hc.skipBlanks
    · split
      · exact hc.skipBlanks
      · exact hc.skipBlanks.skip _
  | fieldNumber dollar =>
    unfold Cursor.fieldNumber
    dsimp only
    split
    · exact hc
    · exact hc.skip _
  | literal capacity =>
    unfold Cursor.literal
    dsimp only
    split
    · split
      · exact hc.skipBlanks.skip _
      · exact hc.skipBlanks
    · exact hc.skipBlanks

end Cursor

/-! ## Errors -/

namespace Error

/-- Whether what an error says about its position is true of the text that begins there. -/
def Describes : Error → List Char → Prop
  | unexpectedCharacter found _, rest => rest.head? = some found
  | unexpectedEnd _, rest => rest = []
  | trailingInput _, rest => ∃ found, rest.head? = some found ∧ isBlank found = false
  | unknownIdentifier name _, rest | reservedName name _, rest | missingArguments name _, rest
  | invalidNumber name _, rest => name.toList <+: rest
  | unterminatedGroup _, rest => rest.head? = some '('
  | unterminatedString _, rest => rest.head? = some '"'
  | _, _ => True

/-- Whether an error points at what it describes, if it points anywhere. -/
def PointsInto (text : List Char) (e : Error) : Prop :=
  ∀ position, e.position? = some position →
    ∃ rest, (⟨rest, position⟩ : Cursor).StandsIn text ∧ e.Describes rest

variable {text : List Char} {c : Cursor} {e : Error}

/-- An error without a position points nowhere else. -/
lemma pointsInto_of_position?_eq_none (h : e.position? = none) : e.PointsInto text := by
  intro position hposition
  rw [h] at hposition
  contradiction

/-- An error points into a text if it is about a cursor that stands there. -/
lemma pointsInto_of_standsIn (hc : c.StandsIn text) (hposition : e.position? = some c.offset)
    (h : e.Describes c.rest) : e.PointsInto text := by
  intro position hp
  rw [hposition] at hp
  obtain rfl := Option.some.inj hp
  exact ⟨c.rest, hc, h⟩

/-- Behind the blanks stands something that is none, unless only blanks are left. -/
lemma pointsInto_trailingInput (hc : c.StandsIn text) (hend : c.atEnd = false) :
    (trailingInput c.skipBlanks.offset).PointsInto text := by
  refine pointsInto_of_standsIn hc.skipBlanks rfl ?_
  have hhead := List.head?_dropWhile_not isBlank c.rest
  rw [Cursor.atEnd] at hend
  rw [← Cursor.skipBlanks_rest] at hhead
  rcases hrest : c.skipBlanks.rest with _ | ⟨found, rest⟩
  · rw [hrest] at hend
    contradiction
  · rw [hrest, List.head?_cons] at hhead
    exact ⟨found, rfl, by simpa using hhead⟩

end Error

end Reckon
