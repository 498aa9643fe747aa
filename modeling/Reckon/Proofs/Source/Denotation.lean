import Reckon.Proofs.Source.Hexadecimal

/-!
# The doubles of numerals

`Numeral.Denotes` says which double a numeral stands for: the one nearest to the number that is
written. There are two exceptions.  Of a long exponent only the first digits count (`Counts`), and a
hexadecimal number of more than 128 bits loses a late digit that decides how it is rounded
(`IsDecidedLate`).  The value that is read from a numeral is this double (`Numeral.denotes_iff`).
-/

namespace Reckon

open Binary64

variable {x y : Float} {numeral : Numeral} {digits whole : List Char}
  {fraction : Option (List Char)} {exponent : Option Exponent}

/-- Whether a double is the one for hexadecimal digits: the nearest one to their number, or to the
number without its late digits if these decide. -/
structure DenotesHexadecimal (digits : List Char) (x : Float) : Prop where
  nonempty : digits ≠ []
  isNearest : ¬IsDecidedLate (numberOf 16 digits) → IsNearest x (numberOf 16 digits)
  isNearest_head : IsDecidedLate (numberOf 16 digits) →
    IsNearest x (head (numberOf 16 digits) * 16 ^ lateDigits (numberOf 16 digits) : ℕ)

/-- Hexadecimal digits denote one double only. -/
lemma DenotesHexadecimal.unique (hx : DenotesHexadecimal digits x)
    (hy : DenotesHexadecimal digits y) : x = y := by
  by_cases hlate : IsDecidedLate (numberOf 16 digits)
  · exact (hx.isNearest_head hlate).unique (hy.isNearest_head hlate)
  · exact (hx.isNearest hlate).unique (hy.isNearest hlate)

/-- The value of hexadecimal digits. -/
lemma denotesHexadecimal_hexadecimalValue (hne : digits ≠ [])
    (hdigits : ∀ c ∈ digits, IsHexSign c) :
    DenotesHexadecimal digits (Numeral.hexadecimalValue digits) := by
  obtain ⟨hvalue, hlate⟩ := hexadecimalValue_eq hdigits
  rw [digitsValue_eq_numberOf 16 hdigits] at hvalue hlate
  refine ⟨hne, fun hearly => ?_, fun hdecided => ?_⟩
  · rw [hvalue.2 hearly]
    exact isNearest_ofNat _
  · rw [hlate hdecided]
    exact isNearest_ofNat _

/-- Whether a double is the one for a decimal number with an exponent: the one nearest to the number
times the power of ten that is counted. -/
def DenotesDecimal (q : ℚ) (exponent : ℤ) (x : Float) : Prop :=
  ∃ counted, Counts exponent counted ∧ IsNearest x (q * 10 ^ counted)

/-- A decimal number with an exponent denotes one double only. -/
lemma DenotesDecimal.unique {q : ℚ} {e : ℤ} (hx : DenotesDecimal q e x)
    (hy : DenotesDecimal q e y) : x = y := by
  obtain ⟨k, hk, hnearest⟩ := hx
  obtain ⟨k', hk', hnearest'⟩ := hy
  rw [hk'.unique hk] at hnearest'
  exact hnearest.unique hnearest'

/-- Exponents of a common size count as they are written. -/
lemma DenotesDecimal.isNearest {q : ℚ} {e : ℤ} (h : DenotesDecimal q e x)
    (he : e.natAbs < 655360) : IsNearest x (q * 10 ^ e) := by
  obtain ⟨k, hk, hnearest⟩ := h
  rwa [hk.eq_of_natAbs_lt he] at hnearest

namespace Numeral

/-- The number that is written before the exponent of a decimal numeral. -/
def fixedNumber (whole : List Char) (fraction : Option (List Char)) : ℚ :=
  numberOf 10 (whole ++ fraction.getD []) / 10 ^ (fraction.getD []).length

/-- Whether a double is the one that a numeral stands for. -/
def Denotes : Numeral → Float → Prop
  | hexadecimal _ digits, x => DenotesHexadecimal digits x
  | decimal whole fraction exponent, x =>
    DenotesDecimal (fixedNumber whole fraction) (exponent.elim 0 Exponent.number) x

/-- A numeral stands for one double at most. -/
lemma Denotes.unique (hx : numeral.Denotes x) (hy : numeral.Denotes y) : x = y := by
  cases numeral with
  | hexadecimal marker digits => exact DenotesHexadecimal.unique hx hy
  | decimal whole fraction exponent => exact DenotesDecimal.unique hx hy

/-- Digits alone stand for the double nearest to their number. -/
lemma denotes_ofNat (digits : List Char) :
    (decimal digits none none).Denotes (ofNat (numberOf 10 digits)) := by
  have hnumber : fixedNumber digits none * 10 ^ (0 : ℤ) = numberOf 10 digits := by
    simp [fixedNumber]
  exact ⟨0, .zero, hnumber ▸ isNearest_ofNat _⟩

/-- The digits of a decimal numeral are digits. -/
lemma isDigit_of_mem (h : (decimal whole fraction exponent).IsWritten) :
    ∀ c ∈ whole ++ fraction.getD [], c.isDigit := by
  obtain ⟨hwhole, hfraction, -, -⟩ := h
  rw [List.forall_mem_append]
  refine ⟨hwhole, ?_⟩
  cases fraction with
  | none => nofun
  | some places => exact hfraction places rfl

/-- The number that is written, times a power of ten, as it is computed. -/
lemma fixedNumber_mul (h : (decimal whole fraction exponent).IsWritten) (k : ℤ) :
    fixedNumber whole fraction * 10 ^ k =
      digitsValue 10 (whole ++ fraction.getD []) * 10 ^ (k - (fraction.getD []).length) := by
  have hdigits : ∀ c ∈ whole ++ fraction.getD [], IsHexSign c := fun c hc =>
    isHexSign_of_isDigit (isDigit_of_mem h c hc)
  rw [fixedNumber, digitsValue_eq_numberOf 10 hdigits, zpow_sub₀ (by norm_num), zpow_natCast,
    div_mul_eq_mul_div, mul_div_assoc]

/-- The exponent of a numeral, which may lack one, is counted. -/
lemma counts_exponent (h : (decimal whole fraction exponent).IsWritten) :
    Counts (exponent.elim 0 Exponent.number) (exponent.elim 0 Exponent.value) := by
  obtain ⟨-, -, hexponent, -⟩ := h
  cases exponent with
  | none => exact .zero
  | some e => exact Exponent.counts_value (hexponent e rfl).2.2.2

/-- The value of a decimal numeral. -/
lemma denotes_decimal (h : (decimal whole fraction exponent).IsWritten) :
    (decimal whole fraction exponent).Denotes
      (scaled (digitsValue 10 (whole ++ fraction.getD []))
        (exponent.elim 0 Exponent.value - ((fraction.getD []).length : ℤ))) := by
  refine ⟨exponent.elim 0 Exponent.value, counts_exponent h, ?_⟩
  rw [fixedNumber_mul h]
  exact isNearest_scaled _ _

/-- The value that is read from a written numeral is the double that it stands for. -/
lemma denotes_iff (h : numeral.IsWritten) : numeral.Denotes x ↔ numeral.value? = some x := by
  have hsound : ∀ y, numeral.value? = some y → numeral.Denotes y := by
    intro y hy
    cases numeral with
    | hexadecimal marker digits =>
      rw [value?] at hy
      split at hy
      · contradiction
      · rename_i hne
        obtain rfl := Option.some.inj hy
        exact denotesHexadecimal_hexadecimalValue (by simpa using hne) h.2
    | decimal whole fraction exponent =>
      obtain rfl := Option.some.inj hy
      exact denotes_decimal h
  refine ⟨fun hx => ?_, hsound x⟩
  cases hvalue : numeral.value? with
  | some y => rw [(hsound y hvalue).unique hx]
  | none =>
    -- only the digits of a hexadecimal numeral can be lacking
    cases numeral with
    | hexadecimal marker digits =>
      rw [value?, if_neg (by simpa using hx.nonempty)] at hvalue
      contradiction
    | decimal whole fraction exponent => contradiction

/-- In a numeral of up to 65000 characters all digits of the exponent count. -/
lemma isNearest_of_length_le (h : (decimal whole fraction exponent).IsWritten)
    (hlength : (decimal whole fraction exponent).text.length ≤ 65000)
    (hvalue : (decimal whole fraction exponent).value? = some x) :
    IsNearest x (fixedNumber whole fraction * 10 ^ (exponent.elim 0 Exponent.number)) := by
  have hdigits := isDigit_of_mem h
  have hshort : (whole ++ fraction.getD []).length ≤ 65000 := by
    rw [text, List.length_append, List.length_append] at hlength
    rw [List.length_append]
    cases fraction with
    | none =>
      rw [Option.getD_none, List.length_nil]
      omega
    | some places =>
      rw [Option.elim_some, List.length_cons] at hlength
      rw [Option.getD_some]
      omega
  have hplaces : (fraction.getD []).length ≤ 65000 := by
    rw [List.length_append] at hshort
    omega
  have hrepr : (digitsValue 10 (whole ++ fraction.getD [])).repr.length ≤ 65000 := by
    rw [digitsValue_eq_numberOf 10 fun c hc => isHexSign_of_isDigit (hdigits c hc)]
    exact length_repr_numberOf_le (by decide) hdigits hshort
  obtain rfl := Option.some.inj hvalue
  rw [fixedNumber_mul h, (counts_exponent h).scaled_eq hrepr hplaces]
  exact isNearest_scaled _ _

end Numeral

end Reckon
