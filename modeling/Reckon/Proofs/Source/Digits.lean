import Mathlib.Data.Nat.Digits.Defs
import Mathlib.Data.List.Induction
import Mathlib.Tactic.Common
import Reckon.Source.Numeral

/-!
# Digits

There are sixteen digits, and letters may be written in either case (`IsHexSign`).  A digit stands
for its place among them, and a text of digits for the number that has these digits, the first of
which counts most (`numberOf`).  `digitsValue` computes this number (`digitsValue_eq_numberOf`).
-/

namespace Reckon

variable {c : Char} {digits : List Char} {base : ℕ}

/-! ## The signs -/

/-- The digits in the order of their values. -/
def digitSigns : List Char :=
  ['0', '1', '2', '3', '4', '5', '6', '7', '8', '9', 'a', 'b', 'c', 'd', 'e', 'f']

/-- Whether a character is a digit of a hexadecimal number. -/
def IsHexSign (c : Char) : Prop := c.toLower ∈ digitSigns

instance (c : Char) : Decidable (IsHexSign c) :=
  inferInstanceAs (Decidable (c.toLower ∈ digitSigns))

/-- The number with these digits. -/
def numberOf (base : ℕ) (digits : List Char) : ℕ :=
  Nat.ofDigits base (digits.reverse.map fun c => digitSigns.idxOf c.toLower)

/-- What holds for the first 128 characters holds for each character among them. -/
lemma of_toNat_lt {P : Char → Prop} (h : ∀ n < 128, P (Char.ofNat n))
    (hc : c.toNat < 128) : P c := by
  have hP := h c.toNat hc
  rwa [Char.ofNat_toNat] at hP

/-- Hexadecimal digits are ASCII, as they are recognised. -/
lemma toNat_lt_of_isHexDigit (h : isHexDigit c = true) : c.toNat < 128 := by
  have hle : ∀ {d e : Char}, d ≤ e → d.toNat ≤ e.toNat := id
  rw [isHexDigit, Bool.or_eq_true, Bool.or_eq_true, Bool.and_eq_true, Bool.and_eq_true,
    decide_eq_true_eq, decide_eq_true_eq, decide_eq_true_eq, decide_eq_true_eq] at h
  rcases h with (hdigit | ⟨-, hhigh⟩) | ⟨-, hhigh⟩
  · exact (Char.isDigit_iff_toNat.1 hdigit).2.trans_lt (by decide)
  · exact (hle hhigh).trans_lt (by decide)
  · exact (hle hhigh).trans_lt (by decide)

/-- Hexadecimal digits are ASCII, as they are listed. -/
lemma toNat_lt_of_isHexSign (h : IsHexSign c) : c.toNat < 128 := by
  have hsigns : ∀ d ∈ digitSigns, d.toNat < 128 := by simp [digitSigns]
  by_cases hupper : c.val ≥ 'A'.val ∧ c.val ≤ 'Z'.val
  · have hle : c.toNat ≤ 90 := hupper.2
    omega
  · have hlower : c.toLower = c := dif_neg hupper
    exact hlower ▸ hsigns _ h

set_option maxRecDepth 10000 in
/-- The hexadecimal digits are recognised. -/
lemma isHexDigit_iff : isHexDigit c = true ↔ IsHexSign c := by
  have hsigns : ∀ n < 128, isHexDigit (Char.ofNat n) = true ↔ IsHexSign (Char.ofNat n) := by decide
  refine ⟨fun h => ?_, fun h => ?_⟩
  · exact (of_toNat_lt (P := fun c => isHexDigit c = true ↔ IsHexSign c) hsigns
      (toNat_lt_of_isHexDigit h)).1 h
  · exact (of_toNat_lt (P := fun c => isHexDigit c = true ↔ IsHexSign c) hsigns
      (toNat_lt_of_isHexSign h)).2 h

set_option maxRecDepth 10000 in
/-- The value of a digit is its place. -/
lemma hexDigitValue_eq (h : IsHexSign c) : hexDigitValue c = digitSigns.idxOf c.toLower := by
  have hsigns : ∀ n < 128, IsHexSign (Char.ofNat n) →
      hexDigitValue (Char.ofNat n) = digitSigns.idxOf (Char.ofNat n).toLower := by decide
  exact of_toNat_lt
    (P := fun c => IsHexSign c → hexDigitValue c = digitSigns.idxOf c.toLower) hsigns
    (toNat_lt_of_isHexSign h) h

/-- A digit stands for a number below sixteen. -/
lemma hexDigitValue_lt_sixteen (h : IsHexSign c) : hexDigitValue c < 16 := by
  rw [hexDigitValue_eq h]
  exact List.idxOf_lt_length_iff.2 h

/-- The ten decimal digits come first. -/
lemma isHexSign_of_isDigit (h : c.isDigit = true) : IsHexSign c :=
  isHexDigit_iff.1 (by rw [isHexDigit, h]; rfl)

/-- Decimal digits are worth less than ten. -/
lemma idxOf_lt_ten (h : c.isDigit = true) : digitSigns.idxOf c.toLower < 10 := by
  have hbounds : 48 ≤ c.toNat ∧ c.toNat ≤ 57 := Char.isDigit_iff_toNat.1 h
  have hzero : ('0').toNat = 48 := rfl
  rw [← hexDigitValue_eq (isHexSign_of_isDigit h), hexDigitValue, if_pos h, hzero]
  omega

/-! ## Numbers -/

/-- The last digit adds its own value. -/
lemma numberOf_append_singleton (base : ℕ) (digits : List Char) (c : Char) :
    numberOf base (digits ++ [c]) = numberOf base digits * base + digitSigns.idxOf c.toLower := by
  unfold numberOf
  rw [List.reverse_append, List.reverse_singleton, List.singleton_append, List.map_cons,
    Nat.ofDigits_cons, Nat.add_comm, Nat.mul_comm]

/-- Digits behind a number. -/
lemma foldl_digits (base : ℕ) (digits : List Char) (n : ℕ) :
    digits.foldl (fun n c => n * base + hexDigitValue c) n =
      n * base ^ digits.length + digitsValue base digits := by
  induction digits generalizing n with
  | nil =>
    rw [List.foldl_nil, List.length_nil, Nat.pow_zero, Nat.mul_one, digitsValue, List.foldl_nil,
      Nat.add_zero]
  | cons c digits ih =>
    have hvalue : digitsValue base (c :: digits) =
        hexDigitValue c * base ^ digits.length + digitsValue base digits := by
      rw [digitsValue, List.foldl_cons, Nat.zero_mul, Nat.zero_add, ih]
    rw [List.foldl_cons, ih, hvalue, List.length_cons, Nat.pow_succ', Nat.add_mul, Nat.mul_assoc,
      Nat.add_assoc]

/-- The number of digits that are put one behind the other. -/
lemma digitsValue_append (base : ℕ) (front back : List Char) :
    digitsValue base (front ++ back) =
      digitsValue base front * base ^ back.length + digitsValue base back := by
  rw [digitsValue, List.foldl_append, foldl_digits]
  rfl

/-- The number is computed digit by digit. -/
lemma digitsValue_eq_numberOf (base : ℕ) (hdigits : ∀ c ∈ digits, IsHexSign c) :
    digitsValue base digits = numberOf base digits := by
  induction digits using List.reverseRecOn with
  | nil => rfl
  | append_singleton digits c ih =>
    rw [List.forall_mem_append, List.forall_mem_singleton] at hdigits
    obtain ⟨hdigits, hc⟩ := hdigits
    rw [numberOf_append_singleton, digitsValue_append, ih hdigits, ← hexDigitValue_eq hc,
      List.length_singleton, Nat.pow_one, digitsValue, List.foldl_cons, List.foldl_nil,
      Nat.zero_mul, Nat.zero_add]

/-- A number with so many digits is below the power of the base. -/
lemma numberOf_lt (hbase : 1 < base) (hdigits : ∀ c ∈ digits, digitSigns.idxOf c.toLower < base) :
    numberOf base digits < base ^ digits.length := by
  have hlt := Nat.ofDigits_lt_base_pow_length hbase
    (l := digits.reverse.map fun c => digitSigns.idxOf c.toLower) fun d hd => ?_
  · rwa [List.length_map, List.length_reverse] at hlt
  · obtain ⟨c, hc, rfl⟩ := List.mem_map.1 hd
    exact hdigits c (List.mem_reverse.1 hc)

/-- So many hexadecimal digits do not reach the power of sixteen. -/
lemma digitsValue_lt (hdigits : ∀ c ∈ digits, IsHexSign c) :
    digitsValue 16 digits < 16 ^ digits.length := by
  rw [digitsValue_eq_numberOf 16 hdigits]
  exact numberOf_lt (by decide) fun c hc => List.idxOf_lt_length_iff.2 (hdigits c hc)

/-- So many decimal digits do not reach the power of ten. -/
lemma numberOf_ten_lt (hdigits : ∀ c ∈ digits, c.isDigit = true) :
    numberOf 10 digits < 10 ^ digits.length :=
  numberOf_lt (by decide) fun c hc => idxOf_lt_ten (hdigits c hc)

/-- So a number has no more digits than it is written with. -/
lemma length_repr_numberOf_le {n : ℕ} (hn : 0 < n) (hdigits : ∀ c ∈ digits, c.isDigit = true)
    (hlength : digits.length ≤ n) : (numberOf 10 digits).repr.length ≤ n :=
  (Nat.length_repr_le_iff hn).2
    ((numberOf_ten_lt hdigits).trans_le (Nat.pow_le_pow_right (by decide) hlength))

/-- The number that is written by the decimal digits of a number. -/
lemma digitsValue_toDigits (n : ℕ) : digitsValue 10 (Nat.toDigits 10 n) = n := by
  calc digitsValue 10 (Nat.toDigits 10 n)
      = Nat.ofDigitChars 10 (Nat.toDigits 10 n) 0 := by
        rw [Nat.ofDigitChars_eq_foldl, digitsValue]
        refine List.foldl_rel (r := Eq) rfl fun d hd m m' hm => ?_
        have hdigit := Nat.isDigit_of_mem_toDigits (by decide) (by decide) hd
        rw [hexDigitValue, if_pos hdigit, hm, Nat.mul_comm]
    _ = n := Nat.ofDigitChars_ten_toDigits

end Reckon
