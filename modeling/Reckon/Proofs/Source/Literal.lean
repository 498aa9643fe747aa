import Reckon.Proofs.Source.Bytewise
import Reckon.Proofs.Source.Denotation

/-!
# Which literals are read

A literal begins with a digit, or with a point and a digit.  Behind `0x` all hexadecimal digits
belong to it.  Otherwise it is decimal, and as long as it can be: of all beginnings of the text that
have the form of a decimal literal (`IsDecimalText`) the longest is read.  The form of a literal
says which number is written (`IsDecimalText.unique`), and the double nearest to it is what is read.

Reading fails only where `0x` lacks its digits (`Cursor.number_maximal_munch`).
-/

namespace Reckon

open Binary64

/-! ## The form of decimal literals -/

/-- One or more digits. -/
def IsDigits (text : List Char) : Prop := text ≠ [] ∧ ∀ c ∈ text, c.isDigit

/-- The forms of exponents: the letter, perhaps a sign, and digits. -/
inductive IsExponentText : List Char → ℤ → Prop
  | unsigned {marker : Char} {digits : List Char} : marker = 'e' ∨ marker = 'E' →
      IsDigits digits → IsExponentText (marker :: digits) (numberOf 10 digits)
  | plus {marker : Char} {digits : List Char} : marker = 'e' ∨ marker = 'E' →
      IsDigits digits → IsExponentText (marker :: '+' :: digits) (numberOf 10 digits)
  | minus {marker : Char} {digits : List Char} : marker = 'e' ∨ marker = 'E' →
      IsDigits digits → IsExponentText (marker :: '-' :: digits) (-numberOf 10 digits)

/-- The forms of decimal literals without their exponents: digits, digits with a point and perhaps
digits behind it, or a point with digits behind it. -/
inductive IsFixedText : List Char → ℚ → Prop
  | whole {digits : List Char} : IsDigits digits → IsFixedText digits (numberOf 10 digits)
  | point {digits places : List Char} : IsDigits digits → (∀ c ∈ places, c.isDigit) →
      IsFixedText (digits ++ '.' :: places) (numberOf 10 (digits ++ places) / 10 ^ places.length)
  | fraction {places : List Char} : IsDigits places →
      IsFixedText ('.' :: places) (numberOf 10 places / 10 ^ places.length)

/-- The forms of decimal literals, with the number before the exponent and the exponent. -/
inductive IsDecimalText : List Char → ℚ → ℤ → Prop
  | fixed {text : List Char} {q : ℚ} : IsFixedText text q → IsDecimalText text q 0
  | scaled {text exponent : List Char} {q : ℚ} {e : ℤ} : IsFixedText text q →
      IsExponentText exponent e → IsDecimalText (text ++ exponent) q e

/-- Whether a text begins with a digit, or with a point and a digit. -/
def OpensLiteral (text : List Char) : Prop :=
  (∃ c ∈ text.head?, c.isDigit) ∨ text.head? = some '.' ∧ ∃ c ∈ text.tail.head?, c.isDigit

namespace Numeral

variable {whole : List Char} {fraction : Option (List Char)} {exponent : Option Exponent}
  {text : List Char} {q : ℚ} {e : ℤ}

/-- A literal begins where a numeral does. -/
lemma starts_iff : starts text = true ↔ OpensLiteral text := by
  cases text with
  | nil => simp [starts, OpensLiteral]
  | cons c more => simp [starts, OpensLiteral, Option.any_eq_true]

/-- What is written without an exponent has one of the three forms. -/
lemma isFixedText_of_isWritten (h : (decimal whole fraction none).IsWritten) :
    IsFixedText (whole ++ fraction.elim [] fun places => '.' :: places)
      (fixedNumber whole fraction) := by
  obtain ⟨hwhole, hfraction, -, hnonempty⟩ := h
  unfold fixedNumber
  rcases eq_or_ne whole [] with rfl | hne
  · obtain ⟨d, places, rfl⟩ := hnonempty rfl
    exact .fraction ⟨List.cons_ne_nil d places, hfraction _ rfl⟩
  · cases fraction with
    | none =>
      rw [Option.elim_none, List.append_nil, Option.getD_none, List.append_nil, List.length_nil,
        pow_zero, div_one]
      exact .whole ⟨hne, hwhole⟩
    | some places => exact .point ⟨hne, hwhole⟩ (hfraction places rfl)

/-- The exponent of a numeral is written as one, with its number. -/
lemma isExponentText_of_isWritten {e : Exponent} (h : e.IsWritten) :
    IsExponentText e.text e.number := by
  obtain ⟨marker, sign, digits⟩ := e
  obtain ⟨hmarker, hsign, hne, hdigits⟩ := h
  match sign, hsign with
  | none, _ => exact .unsigned hmarker ⟨hne, hdigits⟩
  | some c, hsign =>
    rcases hsign c rfl with rfl | rfl
    · exact .plus hmarker ⟨hne, hdigits⟩
    · exact .minus hmarker ⟨hne, hdigits⟩

/-- Decimal numerals are written in the form of decimal literals. -/
lemma isDecimalText_of_isWritten (h : (decimal whole fraction exponent).IsWritten) :
    IsDecimalText (decimal whole fraction exponent).text (fixedNumber whole fraction)
      (exponent.elim 0 Exponent.number) := by
  obtain ⟨hwhole, hfraction, hexponent, hnonempty⟩ := h
  have hwritten : (decimal whole fraction none).IsWritten := ⟨hwhole, hfraction, nofun, hnonempty⟩
  have hfixed := isFixedText_of_isWritten hwritten
  cases exponent with
  | none =>
    rw [Numeral.text, Option.elim_none, List.append_nil]
    exact .fixed hfixed
  | some e => exact .scaled hfixed (isExponentText_of_isWritten (hexponent e rfl))

/-- A number without an exponent is written as a numeral. -/
lemma exists_isWritten_of_isFixedText (h : IsFixedText text q) : ∃ whole fraction,
    (decimal whole fraction none).IsWritten ∧ q = fixedNumber whole fraction ∧
      text = whole ++ fraction.elim [] fun places => '.' :: places := by
  cases h with
  | whole hdigits =>
    refine ⟨text, none, ⟨hdigits.2, by simp, by simp, fun hnil => absurd hnil hdigits.1⟩, ?_,
      (List.append_nil text).symm⟩
    rw [fixedNumber, Option.getD_none, List.append_nil, List.length_nil, pow_zero, div_one]
  | @point digits places hdigits hplaces =>
    refine ⟨digits, some places, ⟨hdigits.2, ?_, by simp, fun hnil => absurd hnil hdigits.1⟩, rfl,
      rfl⟩
    rintro _ ⟨⟩
    exact hplaces
  | @fraction places hplaces =>
    obtain ⟨d, more, rfl⟩ := List.exists_cons_of_ne_nil hplaces.1
    refine ⟨[], some (d :: more), ⟨List.forall_mem_nil _, ?_, by simp, fun _ => ⟨d, more, rfl⟩⟩,
      rfl, rfl⟩
    rintro _ ⟨⟩
    exact hplaces.2

/-- What is written as an exponent is that of a numeral. -/
lemma exists_isWritten_of_isExponentText (h : IsExponentText text e) :
    ∃ x : Exponent, x.IsWritten ∧ e = x.number ∧ text = x.text := by
  cases h with
  | @unsigned marker digits hmarker hdigits =>
    exact ⟨⟨marker, none, digits⟩, ⟨hmarker, nofun, hdigits.1, hdigits.2⟩, rfl, rfl⟩
  | @plus marker digits hmarker hdigits =>
    refine ⟨⟨marker, some '+', digits⟩, ⟨hmarker, ?_, hdigits.1, hdigits.2⟩, rfl, rfl⟩
    rintro _ ⟨⟩
    exact .inl rfl
  | @minus marker digits hmarker hdigits =>
    refine ⟨⟨marker, some '-', digits⟩, ⟨hmarker, ?_, hdigits.1, hdigits.2⟩, rfl, rfl⟩
    rintro _ ⟨⟩
    exact .inr rfl

/-- What has the form of a decimal literal is how a decimal numeral is written. -/
lemma exists_isWritten_of_isDecimalText (h : IsDecimalText text q e) : ∃ whole fraction exponent,
    (decimal whole fraction exponent).IsWritten ∧ q = fixedNumber whole fraction ∧
      e = exponent.elim 0 Exponent.number ∧ text = (decimal whole fraction exponent).text := by
  cases h with
  | fixed hfixed =>
    obtain ⟨whole, fraction, hwritten, hq, htext⟩ := exists_isWritten_of_isFixedText hfixed
    refine ⟨whole, fraction, none, hwritten, hq, rfl, ?_⟩
    rw [Numeral.text, Option.elim_none, List.append_nil]
    exact htext
  | scaled hfixed hexponent =>
    obtain ⟨whole, fraction, ⟨hwhole, hfraction, -, hnonempty⟩, hq, rfl⟩ :=
      exists_isWritten_of_isFixedText hfixed
    obtain ⟨x, hx, rfl, rfl⟩ := exists_isWritten_of_isExponentText hexponent
    refine ⟨whole, fraction, some x, ⟨hwhole, hfraction, ?_, hnonempty⟩, hq, rfl, rfl⟩
    rintro _ ⟨⟩
    exact hx

/-- A numeral is determined by how it is written. -/
lemma eq_of_text_eq {n m : Numeral} (hn : n.IsWritten) (hm : m.IsWritten) (h : n.text = m.text) :
    n = m := by
  have hread := at?_text_append hn (Bytewise.endsBefore_nil n)
  have hread' := at?_text_append hm (Bytewise.endsBefore_nil m)
  rw [h, hread'] at hread
  exact (Option.some.inj hread).symm

/-- A text that begins with a literal, but not with a hexadecimal one, begins with a decimal literal
that is read: no beginning of the text in the form of a decimal literal is longer. -/
lemma longest_decimalAt (hstarts : starts text = true) (hhex : ¬Bytewise.IsHexadecimal text)
    {other : List Char} (hbegins : other <+: text) (hother : IsDecimalText other q e) :
    other.length ≤ (decimalAt text).text.length := by
  obtain ⟨whole, fraction, exponent, hwritten, -, -, rfl⟩ :=
    exists_isWritten_of_isDecimalText hother
  exact longest_of_at? (Bytewise.at?_of_not_isHexadecimal hstarts hhex) hwritten hbegins

end Numeral

/-- A literal stands for one number only. -/
lemma IsDecimalText.unique {text : List Char} {q q' : ℚ} {e e' : ℤ} (h : IsDecimalText text q e)
    (h' : IsDecimalText text q' e') : q = q' ∧ e = e' := by
  obtain ⟨whole, fraction, exponent, hwritten, rfl, rfl, htext⟩ :=
    Numeral.exists_isWritten_of_isDecimalText h
  obtain ⟨whole', fraction', exponent', hwritten', rfl, rfl, htext'⟩ :=
    Numeral.exists_isWritten_of_isDecimalText h'
  obtain ⟨rfl, rfl, rfl⟩ := Numeral.decimal.inj
    (Numeral.eq_of_text_eq hwritten hwritten' (htext.symm.trans htext'))
  exact ⟨rfl, rfl⟩

/-- Literals are written in ASCII. -/
lemma IsDecimalText.toNat_lt {text : List Char} {q : ℚ} {e : ℤ} (h : IsDecimalText text q e) :
    ∀ c ∈ text, c.toNat < 128 := by
  have hdigit : ∀ {part : List Char}, (∀ c ∈ part, c.isDigit) → ∀ c ∈ part, c.toNat < 128 :=
    fun h c hc => IsAscii.isDigit c (h c hc)
  have hpoint : ('.').toNat < 128 := by decide
  have hplus : ('+').toNat < 128 := by decide
  have hminus : ('-').toNat < 128 := by decide
  have hmarker : ∀ {marker : Char}, marker = 'e' ∨ marker = 'E' → marker.toNat < 128 := by
    rintro marker (rfl | rfl) <;> decide
  have hfixed : ∀ {part : List Char} {q : ℚ}, IsFixedText part q → ∀ c ∈ part, c.toNat < 128 := by
    intro part q hpart
    rcases hpart with hdigits | ⟨hdigits, hplaces⟩ | hplaces
    · exact hdigit hdigits.2
    · rw [List.forall_mem_append, List.forall_mem_cons]
      exact ⟨hdigit hdigits.2, hpoint, hdigit hplaces⟩
    · exact List.forall_mem_cons.2 ⟨hpoint, hdigit hplaces.2⟩
  rcases h with h | ⟨h, hexponent⟩
  · exact hfixed h
  · refine List.forall_mem_append.2 ⟨hfixed h, ?_⟩
    rcases hexponent with ⟨hm, hdigits⟩ | ⟨hm, hdigits⟩ | ⟨hm, hdigits⟩
    · exact List.forall_mem_cons.2 ⟨hmarker hm, hdigit hdigits.2⟩
    · exact List.forall_mem_cons.2 ⟨hmarker hm, List.forall_mem_cons.2 ⟨hplus, hdigit hdigits.2⟩⟩
    · exact List.forall_mem_cons.2 ⟨hmarker hm, List.forall_mem_cons.2 ⟨hminus, hdigit hdigits.2⟩⟩

namespace Cursor

open Bytewise

variable {c : Cursor} {marker : Char} {more digits tail : List Char}

/-- ASCII characters are passed byte by byte. -/
lemma skip_length_of_ascii {part : List Char} (hrest : c.rest = part ++ tail)
    (hpart : ∀ d ∈ part, d.toNat < 128) : c.skip part.length = ⟨tail, c.offset + part.length⟩ := by
  rw [skip, hrest, List.drop_left, List.take_left, utf8Length_of_ascii hpart]

/-- Where no literal begins only blanks are passed. -/
lemma number_of_not_opensLiteral (h : ¬OpensLiteral c.skipBlanks.rest) :
    c.number = (.ok none, c.skipBlanks) := by
  have hnone : Numeral.at? c.skipBlanks.rest = none := by
    unfold Numeral.at?
    exact if_neg fun hstarts => h (Numeral.starts_iff.1 hstarts)
  unfold number
  dsimp only
  rw [hnone]

/-- The hexadecimal digits at the beginning of a text. -/
lemma exists_hexDigits (text : List Char) : ∃ digits tail, text = digits ++ tail ∧
    (∀ d ∈ digits, IsHexSign d) ∧ ∀ d ∈ tail.head?, ¬IsHexSign d := by
  refine ⟨text.takeWhile isHexDigit, text.dropWhile isHexDigit,
    List.takeWhile_append_dropWhile.symm,
    fun d hd => isHexDigit_iff.1 (List.mem_takeWhile_imp hd), fun d hd hsign => ?_⟩
  have hnot := List.head?_dropWhile_not isHexDigit text
  rw [Option.mem_def.1 hd] at hnot
  dsimp only at hnot
  rw [isHexDigit_iff.2 hsign] at hnot
  contradiction

/-- Behind `0x` there must be a digit. -/
lemma number_of_no_hexDigits (hrest : c.skipBlanks.rest = '0' :: marker :: tail)
    (hmarker : marker = 'x' ∨ marker = 'X') (hend : ∀ d ∈ tail.head?, ¬IsHexSign d) :
    c.number = (.error (.invalidNumber (String.ofList ['0', marker]) c.skipBlanks.offset),
      c.skipBlanks) := by
  have hwritten : (Numeral.hexadecimal marker []).IsWritten := ⟨hmarker, nofun⟩
  have hread : Numeral.at? c.skipBlanks.rest = some (.hexadecimal marker []) := by
    rw [hrest]
    exact Numeral.at?_text_append hwritten hend
  unfold number
  dsimp only
  rw [hread]
  rfl

/-- Behind `0x` all hexadecimal digits are read. -/
lemma number_of_hexDigits (hrest : c.skipBlanks.rest = '0' :: marker :: (digits ++ tail))
    (hmarker : marker = 'x' ∨ marker = 'X') (hne : digits ≠ [])
    (hdigits : ∀ d ∈ digits, IsHexSign d)
    (hend : ∀ d ∈ tail.head?, ¬IsHexSign d) :
    ∃ x, DenotesHexadecimal digits x ∧
      c.number = (.ok (some x), ⟨tail, c.skipBlanks.offset + (digits.length + 2)⟩) := by
  have hwritten : (Numeral.hexadecimal marker digits).IsWritten := ⟨hmarker, hdigits⟩
  have hascii : ∀ d ∈ (Numeral.hexadecimal marker digits).text, d.toNat < 128 := by
    rw [Numeral.text, List.forall_mem_cons, List.forall_mem_cons]
    refine ⟨by decide, ?_, fun d hd => toNat_lt_of_isHexSign (hdigits d hd)⟩
    rcases hmarker with rfl | rfl <;> decide
  refine ⟨_, denotesHexadecimal_hexadecimalValue hne hdigits, ?_⟩
  rw [number_of_isWritten hwritten hend hrest (by rw [Numeral.value?, if_neg (by simpa using hne)]),
    skip_length_of_ascii hrest hascii]
  rfl

/-- Any other literal is read as a decimal one. -/
lemma number_of_opensLiteral (h : OpensLiteral c.skipBlanks.rest)
    (hhex : ¬IsHexadecimal c.skipBlanks.rest) :
    ∃ literal tail q e x, c.skipBlanks.rest = literal ++ tail ∧ IsDecimalText literal q e ∧
      (∀ other q' e', other <+: c.skipBlanks.rest → IsDecimalText other q' e' →
        other.length ≤ literal.length) ∧
      c.number = (.ok (some x), ⟨tail, c.skipBlanks.offset + literal.length⟩) ∧
      DenotesDecimal q e x ∧
      (literal.length ≤ 65000 ∨ e.natAbs < 655360 → IsNearest x (q * 10 ^ e)) := by
  have hstarts := Numeral.starts_iff.2 h
  have hwritten := Numeral.isWritten_decimalAt hstarts
  obtain ⟨tail, htail⟩ := Numeral.prefix_decimalAt c.skipBlanks.rest
  have hat := at?_of_not_isHexadecimal hstarts hhex
  have hlongest : ∀ other q' e', other <+: c.skipBlanks.rest → IsDecimalText other q' e' →
      other.length ≤ (Numeral.decimalAt c.skipBlanks.rest).text.length :=
    fun other q' e' => Numeral.longest_decimalAt hstarts hhex
  have hnumeral : ∃ whole fraction exponent,
      Numeral.decimalAt c.skipBlanks.rest = .decimal whole fraction exponent := ⟨_, _, _, rfl⟩
  obtain ⟨whole, fraction, exponent, hnumeral⟩ := hnumeral
  rw [hnumeral] at hwritten htail hat hlongest
  have hform := Numeral.isDecimalText_of_isWritten hwritten
  obtain ⟨x, hvalue⟩ : ∃ x, (Numeral.decimal whole fraction exponent).value? = some x := ⟨_, rfl⟩
  have hdenotes := (Numeral.denotes_iff hwritten).2 hvalue
  refine ⟨_, tail, _, _, x, htail.symm, hform, hlongest, ?_, hdenotes, ?_⟩
  · unfold number
    dsimp only
    rw [hat]
    dsimp only
    rw [hvalue]
    dsimp only
    rw [skip_length_of_ascii htail.symm hform.toNat_lt]
  · rintro (hlength | hsmall)
    · exact Numeral.isNearest_of_length_le hwritten hlength hvalue
    · exact hdenotes.isNearest hsmall

/-- No number is read where no literal begins, and then only blanks are passed.  Reading fails where
hexadecimal digits are lacking. -/
lemma number_fst_cases (c : Cursor) :
    (c.number.1 = .ok none ↔ ¬OpensLiteral c.skipBlanks.rest) ∧
      (c.number.1 = .ok none → c.number.2 = c.skipBlanks) ∧
      ∀ e, c.number.1 = .error e → c.number.2 = c.skipBlanks ∧ ∃ marker tail,
        c.skipBlanks.rest = '0' :: marker :: tail ∧ (marker = 'x' ∨ marker = 'X') ∧
          ∀ d ∈ tail.head?, ¬IsHexSign d := by
  by_cases hopens : OpensLiteral c.skipBlanks.rest
  · by_cases hhex : IsHexadecimal c.skipBlanks.rest
    · obtain ⟨marker, more, hrest, hmarker⟩ := hhex
      obtain ⟨digits, tail, rfl, hdigits, hend⟩ := exists_hexDigits more
      rcases eq_or_ne digits [] with rfl | hne
      · rw [number_of_no_hexDigits hrest hmarker hend]
        exact ⟨by simp [hopens], by simp, fun e _ => ⟨rfl, marker, tail, hrest, hmarker, hend⟩⟩
      · obtain ⟨x, -, hread⟩ := number_of_hexDigits hrest hmarker hne hdigits hend
        rw [hread]
        exact ⟨by simp [hopens], by simp, by simp⟩
    · obtain ⟨literal, tail, q, e, x, -, -, -, hread, -⟩ := number_of_opensLiteral hopens hhex
      rw [hread]
      exact ⟨by simp [hopens], by simp, by simp⟩
  · rw [number_of_not_opensLiteral hopens]
    exact ⟨by simp [hopens], fun _ => rfl, by simp⟩

/-- Numbers are read by maximal munch behind the blanks.  Where no literal begins, no number is read
and nothing but the blanks is passed.  Behind `0x` all hexadecimal digits are read, and their double
is the value.  Of any other text the longest beginning that has the form of a decimal literal is
read, and the value is the double nearest to the number that is written.  Reading fails only where
`0x` lacks its digits, and then the cursor stays where the literal begins.  The scan by bytes does
the same, whatever stands behind the literal. -/
theorem number_maximal_munch (c : Cursor) : ∃ start, c.Clears start ∧
    (c.number.1 = .ok none ↔ ¬OpensLiteral start.rest) ∧
    (c.number.1 = .ok none → c.number.2 = start) ∧
    (∀ marker digits tail, start.rest = '0' :: marker :: (digits ++ tail) →
      marker = 'x' ∨ marker = 'X' → (∀ d ∈ digits, IsHexSign d) →
      (∀ d ∈ tail.head?, ¬IsHexSign d) →
      (digits = [] → c.number =
        (.error (.invalidNumber (String.ofList ['0', marker]) start.offset), start)) ∧
      (digits ≠ [] → ∃ x, DenotesHexadecimal digits x ∧
        c.number = (.ok (some x), ⟨tail, start.offset + (digits.length + 2)⟩))) ∧
    (OpensLiteral start.rest →
      (∀ marker more, start.rest = '0' :: marker :: more → ¬(marker = 'x' ∨ marker = 'X')) →
      ∃ literal tail q e x, start.rest = literal ++ tail ∧ IsDecimalText literal q e ∧
        (∀ other q' e', other <+: start.rest → IsDecimalText other q' e' →
          other.length ≤ literal.length) ∧
        c.number = (.ok (some x), ⟨tail, start.offset + literal.length⟩) ∧
        DenotesDecimal q e x ∧
        (literal.length ≤ 65000 ∨ e.natAbs < 655360 → IsNearest x (q * 10 ^ e))) ∧
    (∀ e, c.number.1 = .error e → c.number.2 = start ∧ ∃ marker tail,
      start.rest = '0' :: marker :: tail ∧ (marker = 'x' ∨ marker = 'X') ∧
        ∀ d ∈ tail.head?, ¬IsHexSign d) ∧
    ∀ text, c.StandsIn text →
      Bytewise.number text c.offset = some (c.number.1, c.number.2.offset) := by
  obtain ⟨hnone, hblanks, herror⟩ := c.number_fst_cases
  refine ⟨c.skipBlanks, clears_iff.2 rfl, hnone, hblanks, ?_, fun hopens hdecimal => ?_, herror,
    fun text => agrees_number text c⟩
  · intro marker digits tail hrest hmarker hdigits hend
    refine ⟨?_, fun hne => number_of_hexDigits hrest hmarker hne hdigits hend⟩
    rintro rfl
    exact number_of_no_hexDigits hrest hmarker hend
  · refine number_of_opensLiteral hopens ?_
    rintro ⟨marker, more, hrest, hmarker⟩
    exact hdecimal marker more hrest hmarker

/-- Without digits behind it an `e` does not belong to a literal, although a sign follows.  Behind
`0x` it is a digit. -/
theorem number_before_letter :
    (∃ x, (ofString " 1.5e-x").number = (.ok (some x), ⟨['e', '-', 'x'], 4⟩) ∧
      IsNearest x (3 / 2)) ∧
    (∃ x, (ofString "0x1E-x").number = (.ok (some x), ⟨['-', 'x'], 4⟩) ∧ IsNearest x 30) := by
  constructor
  · obtain ⟨start, hclears, -, -, -, hdecimal, -⟩ := number_maximal_munch (ofString " 1.5e-x")
    obtain rfl : ⟨['1', '.', '5', 'e', '-', 'x'], 1⟩ = start := by
      rw [← clears_iff.1 hclears]
      decide
    obtain ⟨literal, tail, q, e, x, hrest, hform, -, hread, -, hnearest⟩ :=
      hdecimal (.inl ⟨'1', rfl, rfl⟩) (by rintro marker more ⟨⟩)
    have hstop : (ofString " 1.5e-x").number.2 = ⟨['e', '-', 'x'], 4⟩ := by decide
    rw [hread, Cursor.mk.injEq] at hstop
    obtain ⟨rfl, hlength⟩ := hstop
    obtain rfl : ['1', '.', '5'] = literal := by
      have happend : ['1', '.', '5'] ++ ['e', '-', 'x'] = literal ++ ['e', '-', 'x'] := hrest
      exact List.append_cancel_right happend
    have hone : IsDigits ['1'] := ⟨by decide, List.forall_mem_singleton.2 rfl⟩
    have hfive : ∀ c ∈ ['5'], c.isDigit := List.forall_mem_singleton.2 rfl
    have hwritten : IsDecimalText ['1', '.', '5'] (numberOf 10 ['1', '5'] / 10 ^ 1) 0 :=
      .fixed (.point hone hfive)
    obtain ⟨rfl, rfl⟩ := hform.unique hwritten
    have hnumber : numberOf 10 ['1', '5'] = 15 := by decide
    have hvalue := hnearest (.inl (by decide))
    rw [hnumber] at hvalue
    norm_num at hvalue
    exact ⟨x, hread, hvalue⟩
  · obtain ⟨start, hclears, -, -, hhexadecimal, -⟩ := number_maximal_munch (ofString "0x1E-x")
    obtain rfl : ⟨['0', 'x', '1', 'E', '-', 'x'], 0⟩ = start := by
      rw [← clears_iff.1 hclears]
      decide
    obtain ⟨x, hdenotes, hread⟩ := (hhexadecimal 'x' ['1', 'E'] ['-', 'x'] rfl (.inl rfl)
      (List.forall_mem_cons.2 ⟨by decide, List.forall_mem_singleton.2 (by decide)⟩)
      (by rintro d ⟨⟩; decide)).2 (by decide)
    have hnumber : numberOf 16 ['1', 'E'] = 30 := by decide
    have hvalue := hdenotes.isNearest (by rw [hnumber]; decide)
    rw [hnumber] at hvalue
    exact ⟨x, hread, hvalue⟩

-- Without any digits behind it, an `e` does not belong to the literal.
example : (ofString "6e").number.2 = ⟨['e'], 1⟩ := by decide
example : (ofString "6e+").number.2 = ⟨['e', '+'], 1⟩ := by decide

end Cursor

end Reckon
