import Reckon.Proofs.Binary64.LateDigits
import Reckon.Proofs.Source.Decimal

/-!
# Hexadecimal literals

The double of a hexadecimal literal of more than 128 bits is accumulated digit by digit.  An
accumulated number is rounded whenever a digit is taken on, so that nothing happens to it as long as
it fits the significand (`exists_front`), and the digits that come later are lost
(`rounded_foldl_accumulate`).

So a literal has the double nearest to its number unless late digits decide which one that is
(`Cursor.number_of_hexadecimal`).  Decimal literals of whole numbers always have it
(`Cursor.number_of_decimal`).
-/

namespace Reckon

open Binary64

variable {n : ℕ} {digits : List Char}

/-! ## Accumulated digits -/

/-- A digit is taken on: what has been accumulated is rounded first. -/
def accumulate (n : ℕ) (c : Char) : ℕ := rounded n * 16 + hexDigitValue c

/-- The digits are accumulated as if doubles were rounded numbers of any size. -/
lemma foldl_eq_ofNat (hdigits : ∀ c ∈ digits, IsHexSign c) :
    digits.foldl (fun x c => x * 16 + ofNat (hexDigitValue c)) 0 =
      ofNat (digits.foldl accumulate 0) := by
  have hsixteen : 16 ≤ 2 * leadingBit := by decide
  refine List.foldl_rel (r := fun x n => x = ofNat n) zero_eq_ofNat fun c hc x n hx => ?_
  rw [hx]
  exact ofNat_mul_sixteen_add n ((hexDigitValue_lt_sixteen (hdigits c hc)).trans_le hsixteen)

/-- Once all 53 digits are in use, the digits that follow are lost. -/
lemma rounded_foldl_accumulate (hdigits : ∀ c ∈ digits, IsHexSign c)
    (h : 2 * leadingBit ≤ rounded n) :
    rounded (digits.foldl accumulate n) = rounded n * 16 ^ digits.length := by
  induction digits generalizing n with
  | nil => rw [List.foldl_nil, List.length_nil, Nat.pow_zero, Nat.mul_one]
  | cons c digits ih =>
    obtain ⟨hc, hdigits'⟩ := List.forall_mem_cons.1 hdigits
    have hstep : rounded (accumulate n c) = rounded n * 16 :=
      rounded_mul_sixteen_add h (hexDigitValue_lt_sixteen hc)
    rw [List.foldl_cons, ih hdigits' (by rw [hstep]; omega), hstep, List.length_cons, Nat.pow_succ',
      Nat.mul_assoc]

/-- A number that does not fit the significand is cut behind the first digits that do not fit it. -/
lemma exists_front (hn : n < 2 * leadingBit) (hdigits : ∀ c ∈ digits, IsHexSign c)
    (h : 2 * leadingBit ≤ digits.foldl (fun n c => n * 16 + hexDigitValue c) n) :
    ∃ front back, digits = front ++ back ∧
      front.foldl accumulate n = front.foldl (fun n c => n * 16 + hexDigitValue c) n ∧
      2 * leadingBit ≤ front.foldl accumulate n ∧ front.foldl accumulate n < 32 * leadingBit := by
  induction digits generalizing n with
  | nil =>
    rw [List.foldl_nil] at h
    omega
  | cons c digits ih =>
    obtain ⟨hc, hdigits'⟩ := List.forall_mem_cons.1 hdigits
    have hdigit := hexDigitValue_lt_sixteen hc
    have hstep : accumulate n c = n * 16 + hexDigitValue c := by rw [accumulate, rounded_of_lt hn]
    rcases Nat.lt_or_ge (n * 16 + hexDigitValue c) (2 * leadingBit) with hlt | hge
    · obtain ⟨front, back, rfl, hfront, hlow, hhigh⟩ := ih hlt hdigits' h
      refine ⟨c :: front, back, rfl, ?_, ?_, ?_⟩ <;> rw [List.foldl_cons, hstep] <;> assumption
    · refine ⟨[c], digits, rfl, hstep, ?_, ?_⟩
      · rw [List.foldl_cons, List.foldl_nil, hstep]
        exact hge
      · rw [List.foldl_cons, List.foldl_nil, hstep]
        omega

/-- Beyond 128 bits the double of hexadecimal digits is the one nearest to their number without the
late digits. -/
lemma hexadecimalValue_of_le (hdigits : ∀ c ∈ digits, IsHexSign c)
    (h : twoTo 128 ≤ digitsValue 16 digits) :
    ∃ p m t, 2 * leadingBit ≤ p ∧ p < 32 * leadingBit ∧ t < 16 ^ m ∧
      digitsValue 16 digits = p * 16 ^ m + t ∧
      Numeral.hexadecimalValue digits = ofNat (p * 16 ^ m) := by
  have hbits : 2 * leadingBit ≤ twoTo 128 := by decide
  obtain ⟨front, back, rfl, hfront, hlow, hhigh⟩ :=
    exists_front (n := 0) (by decide) hdigits (hbits.trans h)
  have hback : ∀ c ∈ back, IsHexSign c := fun c hc => hdigits c (List.mem_append_right _ hc)
  refine ⟨front.foldl accumulate 0, back.length, digitsValue 16 back, hlow, hhigh,
    digitsValue_lt hback,
    ?_, ?_⟩
  · rw [digitsValue_append, hfront, digitsValue]
  · unfold Numeral.hexadecimalValue
    rw [if_neg (Nat.not_lt_of_le h), foldl_eq_ofNat hdigits, List.foldl_append]
    refine ofNat_congr ?_
    rw [rounded_foldl_accumulate hback (le_rounded hlow), sixteen_pow, rounded_mul_two_pow]

/-! ## Numerals -/

/-- The double of hexadecimal digits is that of their number, unless a late digit decides; without
the late digits it is in any case. -/
lemma hexadecimalValue_eq (hdigits : ∀ c ∈ digits, IsHexSign c) :
    (Numeral.hexadecimalValue digits = ofNat (digitsValue 16 digits) ↔
      ¬IsDecidedLate (digitsValue 16 digits)) ∧
    (IsDecidedLate (digitsValue 16 digits) → Numeral.hexadecimalValue digits =
      ofNat (head (digitsValue 16 digits) * 16 ^ lateDigits (digitsValue 16 digits))) := by
  rcases Nat.lt_or_ge (digitsValue 16 digits) (twoTo 128) with hlt | hge
  · have hnot : ¬IsDecidedLate (digitsValue 16 digits) := fun hlate => Nat.not_lt_of_le hlate.1 hlt
    refine ⟨iff_of_true ?_ hnot, fun hlate => absurd hlate hnot⟩
    unfold Numeral.hexadecimalValue
    rw [if_pos hlt]
  · obtain ⟨p, m, t, hp, hp', ht, hvalue, hresult⟩ := hexadecimalValue_of_le hdigits hge
    rw [hvalue] at hge ⊢
    rw [hresult, head_eq hp hp' ht, lateDigits_eq hp hp' ht]
    exact ⟨ofNat_head_eq_iff hp hp' ht hge, fun _ => rfl⟩

namespace Cursor

variable {c : Cursor} {numeral : Numeral} {tail : List Char} {x : Float}

/-- A written numeral with a value is read up to its end. -/
lemma number_of_isWritten (hwritten : numeral.IsWritten) (hends : numeral.EndsBefore tail)
    (hrest : c.skipBlanks.rest = numeral.text ++ tail) (hvalue : numeral.value? = some x) :
    c.number = (.ok (some x), c.skipBlanks.skip numeral.text.length) := by
  unfold number
  dsimp only
  rw [hrest, Numeral.at?_text_append hwritten hends]
  dsimp only
  rw [hvalue]

/-- A decimal literal without a fraction and an exponent is read up to its end, and its double is
the one nearest to the number that is written. -/
lemma number_of_decimal {decimals : List Char}
    (hwritten : (Numeral.decimal decimals none none).IsWritten)
    (hends : (Numeral.decimal decimals none none).EndsBefore tail)
    (hrest : c.skipBlanks.rest = decimals ++ tail) :
    c.number = (.ok (some (ofNat (digitsValue 10 decimals))),
      c.skipBlanks.skip decimals.length) := by
  have htext : (Numeral.decimal decimals none none).text = decimals := by
    rw [Numeral.text, Option.elim_none, Option.elim_none, List.append_nil, List.append_nil]
  have hvalue : (Numeral.decimal decimals none none).value? =
      some (ofNat (digitsValue 10 decimals)) := by
    rw [← Numeral.scaled_zero]
    simp [Numeral.value?]
  rw [← htext] at hrest
  have hread := number_of_isWritten hwritten hends hrest hvalue
  rwa [htext] at hread

/-- A hexadecimal literal is read up to its end, and its double is the one nearest to the number
that is written, which is also the double of every decimal literal of the number, if and only if no
late digit decides how the number is rounded.  If one does, the double is the one nearest to the
number that is left when zeros are put for the late digits. -/
theorem number_of_hexadecimal {marker : Char} {digits : List Char} (hne : digits ≠ [])
    (hwritten : (Numeral.hexadecimal marker digits).IsWritten)
    (hends : (Numeral.hexadecimal marker digits).EndsBefore tail)
    (hrest : c.skipBlanks.rest = '0' :: marker :: (digits ++ tail)) :
    let n := digitsValue 16 digits
    ∃ x, c.number = (.ok (some x), c.skipBlanks.skip (digits.length + 2)) ∧
      (IsNearest x n ↔ ¬IsDecidedLate n) ∧
      (IsDecidedLate n → IsNearest x (head n * 16 ^ lateDigits n : ℕ)) ∧
      ∀ (c' : Cursor) (decimals tail' : List Char),
        (Numeral.decimal decimals none none).IsWritten →
        (Numeral.decimal decimals none none).EndsBefore tail' →
        c'.skipBlanks.rest = decimals ++ tail' → digitsValue 10 decimals = n →
        (c'.number = (.ok (some x), c'.skipBlanks.skip decimals.length) ↔ ¬IsDecidedLate n) := by
  intro n
  obtain ⟨hvalue, hlate⟩ := hexadecimalValue_eq hwritten.2
  have hread : c.number = (.ok (some (Numeral.hexadecimalValue digits)),
      c.skipBlanks.skip (digits.length + 2)) :=
    number_of_isWritten hwritten hends hrest (by rw [Numeral.value?, if_neg (by simpa using hne)])
  refine ⟨_, hread, ?_, ?_, ?_⟩
  · rw [← hvalue]
    refine ⟨fun h => h.unique (isNearest_ofNat n), fun h => ?_⟩
    rw [h]
    exact isNearest_ofNat n
  · intro h
    rw [hlate h]
    exact isNearest_ofNat _
  · intro c' decimals tail' hwritten' hends' hrest' hn
    rw [number_of_decimal hwritten' hends' hrest', hn, ← hvalue, Prod.mk.injEq, Except.ok.injEq,
      Option.some.injEq, eq_comm, and_iff_left rfl]

/-- A number of 129 ones in the binary system is rounded up to a power of two, from its hexadecimal
digits as from the decimal ones. -/
theorem number_of_hexadecimal_ones :
    let hexadecimal := Cursor.ofString "0x1ffffffffffffffffffffffffffffffff)"
    let decimal := Cursor.ofString "680564733841876926926749214863536422911"
    ∃ x, hexadecimal.number = (.ok (some x), ⟨[')'], 35⟩) ∧
      IsNearest x 680564733841876926926749214863536422911 ∧
      decimal.number = (.ok (some x), ⟨[], 39⟩) := by
  intro hexadecimal decimal
  have hnumber : digitsValue 16 "1ffffffffffffffffffffffffffffffff".toList =
      680564733841876926926749214863536422911 := by decide +kernel
  have hdecimal : digitsValue 10 "680564733841876926926749214863536422911".toList =
      digitsValue 16 "1ffffffffffffffffffffffffffffffff".toList := by decide +kernel
  have hearly : ¬IsDecidedLate (digitsValue 16 "1ffffffffffffffffffffffffffffffff".toList) := by
    decide +kernel
  have hdigits : "1ffffffffffffffffffffffffffffffff".toList.all isHexDigit = true := by
    decide +kernel
  have hwritten : (Numeral.hexadecimal 'x' "1ffffffffffffffffffffffffffffffff".toList).IsWritten :=
    ⟨.inl rfl, fun c hc => isHexDigit_iff.1 (List.all_eq_true.1 hdigits c hc)⟩
  have hends :
      (Numeral.hexadecimal 'x' "1ffffffffffffffffffffffffffffffff".toList).EndsBefore [')'] :=
    fun c hc => Option.some.inj hc ▸ by decide
  have hwritten' :
      (Numeral.decimal "680564733841876926926749214863536422911".toList none none).IsWritten :=
    ⟨List.all_eq_true.1 (by decide +kernel), nofun, nofun, fun hnil => absurd hnil (by decide)⟩
  have hends' :
      (Numeral.decimal "680564733841876926926749214863536422911".toList none none).EndsBefore [] :=
    ⟨nofun, rfl, fun _ => nofun⟩
  obtain ⟨x, hread, hnearest, -, hsame⟩ :=
    number_of_hexadecimal (c := hexadecimal) (by decide) hwritten hends (by decide)
  refine ⟨x, hread, ?_, (hsame decimal _ [] hwritten' hends' (by decide) hdecimal).2 hearly⟩
  have hn := hnearest.2 hearly
  rw [hnumber] at hn
  exact_mod_cast hn

/-- A one in the last of 34 digits is what puts the number past half way between two doubles.  It is
lost. -/
theorem number_of_late_one :
    let c := Cursor.ofString "0x1000000000000080000000000000000001"
    let n := digitsValue 16 "1000000000000080000000000000000001".toList
    IsDecidedLate n ∧ c.number = (.ok (some (Float.ofBits 0x4830000000000000)), ⟨[], 36⟩) ∧
      IsNearest (Float.ofBits 0x4830000000000001) n ∧
      ¬IsNearest (Float.ofBits 0x4830000000000000) n ∧
      (Cursor.ofString "5444517870735016019876903526222878736385").number =
        (.ok (some (Float.ofBits 0x4830000000000001)), ⟨[], 40⟩) := by
  intro c n
  have hlate : IsDecidedLate n := by decide +kernel
  have hdecimal : n = digitsValue 10 "5444517870735016019876903526222878736385".toList := by
    decide +kernel
  have hnearest : Float.ofBits 0x4830000000000001 = ofNat n := by decide +kernel
  have hdigits : "1000000000000080000000000000000001".toList.all isHexDigit = true := by
    decide +kernel
  have hwritten : (Numeral.hexadecimal 'x' "1000000000000080000000000000000001".toList).IsWritten :=
    ⟨.inl rfl, fun c hc => isHexDigit_iff.1 (List.all_eq_true.1 hdigits c hc)⟩
  have hends :
      (Numeral.hexadecimal 'x' "1000000000000080000000000000000001".toList).EndsBefore [] := nofun
  have hvalue : (Numeral.hexadecimal 'x' "1000000000000080000000000000000001".toList).value? =
      some (Float.ofBits 0x4830000000000000) := by decide +kernel
  have hwritten' :
      (Numeral.decimal "5444517870735016019876903526222878736385".toList none none).IsWritten :=
    ⟨List.all_eq_true.1 (by decide +kernel), nofun, nofun, fun hnil => absurd hnil (by decide)⟩
  have hends' :
      (Numeral.decimal "5444517870735016019876903526222878736385".toList none none).EndsBefore [] :=
    ⟨nofun, rfl, fun _ => nofun⟩
  have hdecimalRead :=
    number_of_decimal (c := Cursor.ofString "5444517870735016019876903526222878736385")
    hwritten' hends' (by decide)
  rw [← hdecimal, ← hnearest] at hdecimalRead
  refine ⟨hlate, number_of_isWritten hwritten hends (by decide) hvalue, ?_, ?_, hdecimalRead⟩
  · rw [hnearest]
    exact isNearest_ofNat n
  · intro h
    have hsame := h.unique (isNearest_ofNat n)
    rw [← hnearest] at hsame
    exact absurd hsame (by decide)

end Cursor

end Reckon
