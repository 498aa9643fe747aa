import Reckon.Filter.Formula.Bytewise
import Reckon.Proofs.Formula.Reading
import Reckon.Proofs.Source.Bytewise

/-!
# Scans of filters by bytes and by characters

The numbers of fields and the literals of filters, too, are found byte by byte as cursors find them.
-/

namespace Reckon.Bytewise

variable {c : Cursor} {text : List Char}

lemma agrees_fieldNumber (dollar : ℕ) : Agrees (fieldNumber dollar)
    (Cursor.fieldNumber dollar) := by
  intro text c hc
  rw [fieldNumber, past_eq .isDigit hc, slice?_skip_length hc (List.takeWhile_prefix _)]
  unfold Cursor.fieldNumber
  simp only [Option.bind_eq_bind, Option.bind_some]
  cases (c.rest.takeWhile Char.isDigit).isEmpty with
  | true => rfl
  | false => rfl

/-- Whether the byte-wise reading of a literal from a cursor on finds what the reading as a whole
finds. -/
def HasFound (c : Cursor) (r : Option (Except Error (List Char) × ℕ)) :
    Except Error (List Char × ℕ) → Prop
  | .ok (found, n) => r = some (.ok found, (c.skip n).offset)
  | .error e => ∃ stop, r = some (.error e, stop)

/-- What is found behind a character goes on with it. -/
lemma HasFound.cons {d : Char} {n : ℕ} {r : Option (Except Error (List Char) × ℕ)}
    {found : Except Error (List Char × ℕ)} (h : HasFound (c.skip n) r found) :
    HasFound c (r.bind fun s => some (s.1.map (d :: ·), s.2))
      (found.map fun s => (d :: s.1, s.2 + n)) := by
  cases found with
  | error e =>
    obtain ⟨stop, rfl⟩ := h
    exact ⟨stop, rfl⟩
  | ok found =>
    obtain rfl : r = some (.ok found.1, ((c.skip n).skip found.2).offset) := h
    rw [Cursor.skip_skip, Nat.add_comm]
    rfl

section

variable {capacity opening used turns : ℕ} {d : Char} {rest : List Char}

lemma literalFrom_of_nil (hc : c.StandsIn text) (hrest : c.rest = []) :
    literalFrom capacity opening (turns + 1) used text c.offset =
      some (.error (.unterminatedString opening), (c.skip 1).offset) := by
  have hbump := agrees_bump text c hc
  rw [Cursor.bump, hrest] at hbump
  rw [literalFrom]
  dsimp only
  rw [hbump]
  rfl

/-- What is done with the next character of a literal. -/
lemma literalFrom_of_cons (hc : c.StandsIn text) (hrest : c.rest = d :: rest) :
    literalFrom capacity opening (turns + 1) used text c.offset =
      if d = '"' && !rest.head?.any (· = '"') then some (.ok [], (c.skip 1).offset)
      else if used + d.utf8Size > capacity then
        some (.error (.literalTooLong capacity), (c.skip 1).offset)
      else
        (literalFrom capacity opening turns (used + d.utf8Size) text
          (if d = '"' then (c.skip 1).offset + 1 else (c.skip 1).offset)).bind
            fun s => some (s.1.map (d :: ·), s.2) := by
  have hbump := agrees_bump text c hc
  have hmore : (c.skip 1).rest = rest := by
    rw [Cursor.skip, hrest]
    rfl
  have hquote := hasAt_eq (.eq '"' (by decide)) (hc.skip 1)
  rw [hmore] at hquote
  rw [Cursor.bump, hrest] at hbump
  rw [literalFrom]
  dsimp only
  rw [hbump, ← hquote]
  rfl

end

/-- The rest of a literal is read character by character. -/
lemma hasFound_literalFrom {capacity opening used turns : ℕ} {rest : List Char}
    (hc : c.StandsIn text) (hrest : c.rest = rest) (hturns : rest.length < turns) :
    HasFound c (literalFrom capacity opening turns used text c.offset)
      (Cursor.literalFrom capacity opening used rest) := by
  have hquote : '"'.utf8Size = 1 := by decide
  fun_induction Cursor.literalFrom capacity opening used rest generalizing c turns with
  | case1 used =>
    obtain ⟨turns, rfl⟩ := Nat.exists_eq_add_of_lt hturns
    exact ⟨_, literalFrom_of_nil hc hrest⟩
  | case2 used rest hfull =>
    obtain ⟨turns, rfl⟩ := Nat.exists_eq_add_of_lt hturns
    rw [literalFrom_of_cons hc hrest, hquote, if_neg (by simp), if_pos hfull]
    exact ⟨_, rfl⟩
  | case3 used rest hroom ih =>
    obtain ⟨turns, rfl⟩ := Nat.exists_eq_add_of_lt hturns
    obtain ⟨hstands, hmore, -⟩ := exists_skip_one hc hrest (by decide)
    obtain ⟨hstands', hmore', hoffset⟩ := exists_skip_one hstands hmore (by decide)
    rw [literalFrom_of_cons hc hrest, hquote, if_neg (by simp), if_neg hroom, if_pos rfl, ← hoffset]
    rw [Cursor.skip_skip] at *
    refine (ih hstands' hmore' ?_).cons
    simp only [List.length_cons]
    omega
  | case4 used rest hquotes =>
    obtain ⟨turns, rfl⟩ := Nat.exists_eq_add_of_lt hturns
    have hlast : rest.head?.any (· = '"') = false := by
      cases rest with
      | nil => rfl
      | cons d rest => exact decide_eq_false fun hd => hquotes rest (by rw [hd])
    rw [literalFrom_of_cons hc hrest, hlast]
    rfl
  | case5 used d rest hquotes hne hfull =>
    obtain ⟨turns, rfl⟩ := Nat.exists_eq_add_of_lt hturns
    have hd : ¬d = '"' := fun hd => hne hd
    rw [literalFrom_of_cons hc hrest, if_neg (by simp [hd]), if_pos hfull]
    exact ⟨_, rfl⟩
  | case6 used d rest hquotes hne hroom ih =>
    obtain ⟨turns, rfl⟩ := Nat.exists_eq_add_of_lt hturns
    have hd : ¬d = '"' := fun hd => hne hd
    have hmore : (c.skip 1).rest = rest := by
      rw [Cursor.skip, hrest]
      rfl
    rw [literalFrom_of_cons hc hrest, if_neg (by simp [hd]), if_neg hroom, if_neg hd]
    refine (ih (hc.skip 1) hmore ?_).cons
    simp only [List.length_cons]
    omega

lemma agrees_literal (capacity : ℕ) : Agrees (literal capacity) (Cursor.literal capacity) := by
  intro text c hc
  have hposition := agrees_position text c hc
  have heat := agrees_eat '"' text c hc
  rw [literal, hposition]
  simp only [Option.bind_eq_bind, Option.bind_some]
  rw [heat]
  by_cases hthere : c.skipBlanks.rest.head? = some '"'
  · obtain ⟨rest, hrest⟩ := List.head?_eq_some_iff.1 hthere
    obtain ⟨heaten, hmore⟩ := Cursor.eat_of_skipBlanks_rest hrest
    have hstands := hc.skipBlanks.skip 1
    have hlength : rest.length < (utf8 text).length + 1 := by
      have hbytes := hstands.offset_add_utf8Length
      have hle := length_le_utf8Length rest
      rw [hmore] at hbytes
      rw [length_utf8]
      omega
    have hfound : HasFound (c.skipBlanks.skip 1)
        (literalFrom capacity c.skipBlanks.offset ((utf8 text).length + 1) 0 text
          (c.skipBlanks.skip 1).offset)
        (Cursor.literalFrom capacity c.skipBlanks.offset 0 rest) :=
      hasFound_literalFrom hstands hmore hlength
    rw [heaten]
    unfold Cursor.literal
    simp only [hrest, Option.bind_some]
    generalize literalFrom capacity _ _ _ text _ = r at hfound ⊢
    cases hread : Cursor.literalFrom capacity c.skipBlanks.offset 0 rest with
    | error e =>
      rw [hread] at hfound
      obtain ⟨stop, rfl⟩ := hfound
      rfl
    | ok found =>
      rw [hread] at hfound
      obtain rfl : r = some (.ok found.1, ((c.skipBlanks.skip 1).skip found.2).offset) := hfound
      rw [Cursor.skip_skip, Nat.add_comm]
      rfl
  · rw [Cursor.eat_of_head?_ne hthere]
    unfold Cursor.literal
    dsimp only
    split
    · rename_i hrest
      exact absurd (by rw [hrest]; rfl) hthere
    · rfl

end Reckon.Bytewise
