import Mathlib.Data.List.TakeWhile
import Mathlib.Tactic.Common
import Reckon.Source.Place

/-!
# Where cursors stand

A cursor that is moved by whole characters stands in its text: what is left to read is an end of the
text, and its offset is the number of bytes before that end.  Two cursors that stand in one text at
one offset are the same, so that an offset determines what is left.
-/

namespace Reckon

/-- A text is as long as its parts together. -/
@[simp] lemma utf8Length_append (before rest : List Char) :
    utf8Length (before ++ rest) = utf8Length before + utf8Length rest := by
  induction before with
  | nil => simp [utf8Length]
  | cons c before ih => simp [utf8Length, ih, Nat.add_assoc]

/-- Every character takes at least one byte. -/
lemma length_le_utf8Length (text : List Char) : text.length ≤ utf8Length text := by
  induction text with
  | nil => exact Nat.zero_le _
  | cons c text ih =>
    have hpos := c.utf8Size_pos
    rw [List.length_cons, utf8Length]
    omega

/-- ASCII characters take one byte. -/
lemma utf8Length_of_ascii {text : List Char} (h : ∀ ch ∈ text, ch.toNat < 128) :
    utf8Length text = text.length := by
  induction text with
  | nil => rfl
  | cons ch text ih =>
    rw [List.forall_mem_cons] at h
    have hsize : ch.utf8Size = 1 := by
      rw [Char.utf8Size_eq_one_iff, UInt32.le_iff_toNat_le]
      exact Nat.le_of_lt_succ h.1
    rw [utf8Length, hsize, ih h.2, List.length_cons, Nat.add_comm]

/-- The characters that may stand anywhere between tokens. -/
def blankSigns : List Char := [' ', '\t', '\n', '\x0c', '\r']

/-- These are the characters that are skipped. -/
lemma isBlank_iff {ch : Char} : isBlank ch = true ↔ ch ∈ blankSigns := by
  simp [isBlank, blankSigns, or_assoc]

/-- Whether a text consists of blanks. -/
def IsBlanks (text : List Char) : Prop := ∀ ch ∈ text, ch ∈ blankSigns

instance (text : List Char) : Decidable (IsBlanks text) :=
  List.decidableBAll (fun ch => ch ∈ blankSigns) text

/-- A text consists of blanks if all of it can be skipped. -/
lemma isBlanks_iff {text : List Char} : IsBlanks text ↔ ∀ ch ∈ text, isBlank ch = true :=
  forall₂_congr fun _ _ => isBlank_iff.symm

/-- Blanks are skipped. -/
lemma IsBlanks.isBlank {text : List Char} (h : IsBlanks text) : ∀ ch ∈ text, isBlank ch = true :=
  isBlanks_iff.1 h

/-- Blanks take one byte each. -/
lemma IsBlanks.utf8Length {text : List Char} (h : IsBlanks text) :
    utf8Length text = text.length := by
  have hsigns : ∀ ch ∈ blankSigns, ch.toNat < 128 := by simp [blankSigns]
  exact utf8Length_of_ascii fun ch hch => hsigns ch (h ch hch)

/-- What is skipped of a text is blank. -/
lemma isBlanks_takeWhile (text : List Char) : IsBlanks (text.takeWhile Reckon.isBlank) :=
  isBlanks_iff.2 (List.all_eq_true.1 List.all_takeWhile)

attribute [ext] Cursor

namespace Cursor

variable {c d : Cursor} {text : List Char}

/-! ## Blanks -/

/-- Behind a stretch of characters of a kind stands what is left without them. -/
lemma rest_skip_takeWhile (p : Char → Bool) (c : Cursor) :
    (c.skip (c.rest.takeWhile p).length).rest = c.rest.dropWhile p := by
  have hsplit := congrArg (List.drop (c.rest.takeWhile p).length)
    (List.takeWhile_append_dropWhile (p := p) (l := c.rest))
  rw [List.drop_left] at hsplit
  exact hsplit.symm

/-- Behind blanks stands what is left without them. -/
lemma skipBlanks_rest (c : Cursor) : c.skipBlanks.rest = c.rest.dropWhile isBlank :=
  c.rest_skip_takeWhile isBlank

/-- Behind the blanks there are none. -/
@[simp] lemma skipBlanks_skipBlanks (c : Cursor) : c.skipBlanks.skipBlanks = c.skipBlanks := by
  have hnone : c.skipBlanks.rest.takeWhile isBlank = [] := by
    rw [skipBlanks_rest]
    cases hrest : c.rest.dropWhile isBlank with
    | nil => rfl
    | cons d rest =>
      have hd := List.head?_dropWhile_not isBlank c.rest
      rw [hrest] at hd
      simp at hd
      simp [hd]
  conv_lhs => rw [skipBlanks, hnone]
  simp [skip, utf8Length]

/-- What is passed in two steps can be passed in one. -/
lemma skip_skip (c : Cursor) (m n : ℕ) : (c.skip m).skip n = c.skip (m + n) := by
  unfold skip
  rw [List.drop_drop, Nat.add_assoc, ← utf8Length_append, ← List.take_add]

/-- Nothing is added to a text when a part of it is passed. -/
lemma length_skip_le (c : Cursor) (n : ℕ) : (c.skip n).rest.length ≤ c.rest.length :=
  (List.drop_suffix n c.rest).length_le

/-- Nothing is added to a text when blanks are passed. -/
lemma length_skipBlanks_le (c : Cursor) : c.skipBlanks.rest.length ≤ c.rest.length :=
  c.length_skip_le _

@[simp] lemma atEnd_skipBlanks (c : Cursor) : c.skipBlanks.atEnd = c.atEnd := by
  rw [atEnd, atEnd, skipBlanks_skipBlanks]

/-- A text is at its end if only blanks are left. -/
lemma atEnd_iff : c.atEnd = true ↔ IsBlanks c.rest := by
  rw [atEnd, List.isEmpty_iff, skipBlanks_rest, List.dropWhile_eq_nil_iff, isBlanks_iff]

/-- Whether a cursor stands where another one comes to stand when it passes the blanks. -/
structure Clears (c d : Cursor) : Prop where
  exists_blanks : ∃ blanks, IsBlanks blanks ∧ c.rest = blanks ++ d.rest ∧
    d.offset = c.offset + blanks.length
  head_notMem : ∀ ch ∈ d.rest.head?, ch ∉ blankSigns

/-- That is where blanks are skipped to. -/
lemma clears_iff : c.Clears d ↔ c.skipBlanks = d := by
  constructor
  · rintro ⟨⟨blanks, hblanks, hrest, hoffset⟩, hhead⟩
    have htake : c.rest.takeWhile isBlank = blanks := by
      rw [hrest, List.takeWhile_append_of_pos hblanks.isBlank]
      cases hd : d.rest with
      | nil => exact List.append_nil blanks
      | cons ch more =>
        rw [List.takeWhile_cons_of_neg, List.append_nil]
        rw [isBlank_iff]
        exact hhead ch (by rw [hd, List.head?_cons]; rfl)
    unfold skipBlanks skip
    rw [htake, hrest, List.drop_left, List.take_left, hblanks.utf8Length]
    exact Cursor.ext rfl hoffset.symm
  · rintro rfl
    refine ⟨⟨c.rest.takeWhile isBlank, isBlanks_takeWhile c.rest, ?_, ?_⟩, fun ch hch hmem => ?_⟩
    · rw [skipBlanks_rest, List.takeWhile_append_dropWhile]
    · have htake : c.rest.take (c.rest.takeWhile isBlank).length = c.rest.takeWhile isBlank :=
        (List.prefix_iff_eq_take.1 (List.takeWhile_prefix isBlank)).symm
      rw [skipBlanks, skip, htake, (isBlanks_takeWhile c.rest).utf8Length]
    · have hnot := List.head?_dropWhile_not isBlank c.rest
      rw [← skipBlanks_rest, Option.mem_def.1 hch] at hnot
      dsimp only at hnot
      rw [isBlank_iff.2 hmem] at hnot
      exact absurd hnot Bool.noConfusion

/-- Blanks stand before what is left behind them. -/
lemma exists_blanks (c : Cursor) :
    ∃ blanks : List Char, IsBlanks blanks ∧ c.rest = blanks ++ c.skipBlanks.rest := by
  obtain ⟨blanks, hblanks, hrest, -⟩ := (clears_iff.2 (Eq.refl c.skipBlanks)).exists_blanks
  exact ⟨blanks, hblanks, hrest⟩

/-- A character that comes next is read. -/
lemma eat_of_skipBlanks_rest {ch : Char} {rest : List Char} (h : c.skipBlanks.rest = ch :: rest) :
    c.eat ch = (true, c.skipBlanks.skip 1) ∧ (c.skipBlanks.skip 1).rest = rest := by
  constructor
  · rw [eat, peek, h, List.head?_cons, if_pos rfl]
  · rw [skip, h]
    rfl

/-- A character that does not come next is not read. -/
lemma eat_of_head?_ne {ch : Char} (h : c.skipBlanks.rest.head? ≠ some ch) :
    c.eat ch = (false, c.skipBlanks) := by
  rw [eat, peek, if_neg h]

/-! ## Places -/

/-- A cursor stands in a text if the text ends in what is left to read and the offset counts the
bytes before it. -/
def StandsIn (c : Cursor) (text : List Char) : Prop :=
  ∃ before, text = before ++ c.rest ∧ c.offset = utf8Length before

/-- A source stands in itself. -/
lemma standsIn_ofString (source : String) : (ofString source).StandsIn source.toList :=
  ⟨[], rfl, rfl⟩

/-- The offset is the length of what was passed. -/
lemma StandsIn.offset_add_utf8Length (h : c.StandsIn text) :
    c.offset + utf8Length c.rest = utf8Length text := by
  obtain ⟨before, rfl, hoffset⟩ := h
  rw [utf8Length_append, hoffset]

/-- A cursor stands at the end of its text if nothing is left. -/
lemma StandsIn.offset_eq_iff (h : c.StandsIn text) :
    c.offset = utf8Length text ↔ c.rest = [] := by
  rw [← h.offset_add_utf8Length]
  cases c.rest with
  | nil => simp [utf8Length]
  | cons d rest =>
    have := d.utf8Size_pos
    simp only [utf8Length, reduceCtorEq, iff_false]
    omega

/-- Moving past a part of what is left keeps a cursor in its text. -/
lemma StandsIn.move {part rest : List Char} (h : c.StandsIn text) (hrest : c.rest = part ++ rest) :
    (⟨rest, c.offset + utf8Length part⟩ : Cursor).StandsIn text := by
  obtain ⟨before, rfl, hoffset⟩ := h
  exact ⟨before ++ part, by simp [hrest], by simp [hoffset]⟩

/-- A cursor that passes characters goes on standing in its text. -/
lemma StandsIn.skip (h : c.StandsIn text) (n : ℕ) : (c.skip n).StandsIn text :=
  h.move (List.take_append_drop n c.rest).symm

/-- A cursor that passes blanks goes on standing in its text. -/
lemma StandsIn.skipBlanks (h : c.StandsIn text) : c.skipBlanks.StandsIn text := h.skip _

/-- At most one cursor stands in a text at an offset. -/
lemma StandsIn.eq_of_offset_eq (hc : c.StandsIn text) (hd : d.StandsIn text)
    (h : c.offset = d.offset) : c = d := by
  have hc' : dropBytes? text c.offset = some c.rest := dropBytes?_eq_some_iff.2 hc
  have hd' : dropBytes? text c.offset = some d.rest := h ▸ dropBytes?_eq_some_iff.2 hd
  exact Cursor.ext (Option.some.inj (hc'.symm.trans hd')) h

end Cursor

/-- The cursor at a place is the one that stands in the source at this offset. -/
lemma Place.cursor?_eq_some_iff {p : Place} {c : Cursor} :
    p.cursor? = some c ↔ c.offset = p.offset ∧ c.StandsIn p.source.toList := by
  unfold Place.cursor?
  rw [Option.map_eq_some_iff]
  constructor
  · rintro ⟨rest, hrest, rfl⟩
    exact ⟨rfl, dropBytes?_eq_some_iff.1 hrest⟩
  · rintro ⟨hoffset, h⟩
    refine ⟨c.rest, ?_, ?_⟩
    · rw [← hoffset]
      exact dropBytes?_eq_some_iff.2 h
    · rw [← hoffset]

end Reckon
