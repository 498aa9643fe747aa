import Reckon.Binary64.Text
import Reckon.Proofs.Binary64.Value
import Reckon.Proofs.Source.Hexadecimal

/-!
# The texts of doubles are different

A positional decimal says which number it stands for (`decimalValue_positional`).  The number that
stands for a double is found on some grid, at the latest on the one of 17 digits, whose multiples
are so close to each other that one of the two neighbours of the double rounds to it
(`Shortest.onGrid_ne_none`).  So this number lies in the interval of the double
(`Shortest.contains_digits`).  The intervals of two doubles have at most an end in common, which
belongs to one of them only (`Shortest.eq_of_contains`). This is why doubles with the same text are
the same (`text_injective`).
-/

namespace Reckon.Binary64

variable {bits bits' c : ℕ} {p : ℤ} {q : ℚ} {whole fraction : List Char} {x y : Float}

/-! ## Positional decimals -/

/-- The number that a positional decimal stands for. -/
def decimalValue (text : List Char) : ℚ :=
  let fraction := (text.dropWhile (· ≠ '.')).drop 1
  digitsValue 10 (text.takeWhile (· ≠ '.')) + digitsValue 10 fraction / 10 ^ fraction.length

/-- Digits without a point are worth their number. -/
lemma decimalValue_whole (h : '.' ∉ whole) : decimalValue whole = digitsValue 10 whole := by
  have hall : ∀ c ∈ whole, decide (c ≠ '.') = true := fun c hc =>
    decide_eq_true fun heq => h (heq ▸ hc)
  unfold decimalValue
  rw [List.takeWhile_eq_self_iff.2 hall, List.dropWhile_eq_nil_iff.2 hall]
  simp [digitsValue]

/-- Digits behind a point are worth a fraction. -/
lemma decimalValue_append (h : '.' ∉ whole) : decimalValue (whole ++ '.' :: fraction) =
    digitsValue 10 whole + digitsValue 10 fraction / 10 ^ fraction.length := by
  have hall : ∀ c ∈ whole, decide (c ≠ '.') = true := fun c hc =>
    decide_eq_true fun heq => h (heq ▸ hc)
  unfold decimalValue
  rw [List.takeWhile_append_of_pos hall, List.dropWhile_append_of_pos hall,
    List.takeWhile_cons_of_neg (by decide), List.dropWhile_cons_of_neg (by decide), List.append_nil]
  rfl

/-- Zeros are worth nothing. -/
lemma digitsValue_zeros (k : ℕ) : digitsValue 10 (List.replicate k '0') = 0 := by
  induction k with
  | zero => rfl
  | succ k ih =>
    rw [List.replicate_succ', digitsValue_append, ih]
    rfl

/-- Each zero at the end multiplies the number by ten. -/
lemma digitsValue_append_zeros (digits : List Char) (k : ℕ) :
    digitsValue 10 (digits ++ List.replicate k '0') = digitsValue 10 digits * 10 ^ k := by
  rw [digitsValue_append, digitsValue_zeros, List.length_replicate, Nat.add_zero]

/-- Zeros at the beginning do not change the number. -/
lemma digitsValue_padLeft (width : ℕ) (digits : List Char) :
    digitsValue 10 (padLeft width digits) = digitsValue 10 digits := by
  rw [padLeft, digitsValue_append, digitsValue_zeros, Nat.zero_mul, Nat.zero_add]

/-- What is padded has the width that is asked for. -/
lemma length_padLeft {places : ℕ} {digits : List Char} (h : digits.length ≤ places) :
    (padLeft places digits).length = places := by
  rw [padLeft, List.length_append, List.length_replicate, Nat.sub_add_cancel h]

/-- Only zeros are dropped. -/
lemma exists_dropTrailingZeros (digits : List Char) :
    ∃ k, digits = dropTrailingZeros digits ++ List.replicate k '0' := by
  have hzeros : digits.reverse.takeWhile (· == '0') =
      List.replicate (digits.reverse.takeWhile (· == '0')).length '0' :=
    List.eq_replicate_iff.2 ⟨rfl, fun c hc =>
      beq_iff_eq.1 (List.all_eq_true.1 List.all_takeWhile c hc)⟩
  refine ⟨(digits.reverse.takeWhile (· == '0')).length, ?_⟩
  have hsplit := congrArg List.reverse (List.takeWhile_append_dropWhile (p := (· == '0'))
    (l := digits.reverse))
  rw [List.reverse_append, List.reverse_reverse, hzeros, List.reverse_replicate] at hsplit
  exact hsplit.symm

/-- The digits of a fraction stand for the same without the zeros at the end. -/
lemma digitsValue_dropTrailingZeros (digits : List Char) :
    (digitsValue 10 (dropTrailingZeros digits) : ℚ) / 10 ^ (dropTrailingZeros digits).length =
      digitsValue 10 digits / 10 ^ digits.length := by
  obtain ⟨k, hk⟩ := exists_dropTrailingZeros digits
  generalize dropTrailingZeros digits = front at hk ⊢
  subst hk
  rw [digitsValue_append_zeros, List.length_append, List.length_replicate, Nat.cast_mul,
    Nat.cast_pow, pow_add]
  field_simp
  norm_cast

/-- The digits of a number are decimal. -/
lemma isDigit_of_mem_repr {n : ℕ} {d : Char} (h : d ∈ n.repr.toList) : d.isDigit = true := by
  rw [Nat.toList_repr] at h
  exact Nat.isDigit_of_mem_toDigits (by decide) (by decide) h

/-- The digits of a number are worth the number. -/
lemma digitsValue_repr (n : ℕ) : digitsValue 10 n.repr.toList = n := by
  rw [Nat.toList_repr, digitsValue_toDigits]

/-- No number has a point among its digits. -/
lemma point_notMem_repr (n : ℕ) : '.' ∉ n.repr.toList :=
  fun h => absurd (isDigit_of_mem_repr h) (by decide)

/-- A text stands for the number that was written. -/
theorem decimalValue_positional (c : ℕ) (p : ℤ) :
    decimalValue (positional c p).toList = c * 10 ^ p := by
  unfold positional
  by_cases hp : 0 ≤ p
  · rw [if_pos hp, String.toList_append, String.toList_ofList, decimalValue_whole,
      digitsValue_append_zeros, digitsValue_repr]
    · obtain ⟨n, rfl⟩ := Int.eq_ofNat_of_zero_le hp
      rw [Int.toNat_natCast, Nat.cast_mul, Nat.cast_pow, zpow_natCast]
      norm_cast
    · rw [List.mem_append, not_or]
      exact ⟨point_notMem_repr c, fun h => absurd (List.eq_of_mem_replicate h) (by decide)⟩
  · obtain ⟨n, rfl, hn⟩ : ∃ n : ℕ, p = -n ∧ 0 < n := ⟨(-p).toNat, by omega, by omega⟩
    have hlength : (c % tenTo n).repr.toList.length ≤ n :=
      (Nat.length_repr_le_iff hn).2 (Nat.mod_lt c (Nat.pow_pos (by decide)))
    -- both zeros in front of the fraction and zeros behind it keep its value
    have hfraction := digitsValue_dropTrailingZeros (padLeft n (c % tenTo n).repr.toList)
    rw [digitsValue_padLeft, digitsValue_repr, length_padLeft hlength] at hfraction
    have hsplit :
        ((c / tenTo n : ℕ) : ℚ) + ((c % tenTo n : ℕ) : ℚ) / 10 ^ n = c * 10 ^ (-(n : ℤ)) := by
      have hdiv : (c : ℚ) = (tenTo n : ℕ) * (c / tenTo n : ℕ) + (c % tenTo n : ℕ) := by
        exact_mod_cast (Nat.div_add_mod c (tenTo n)).symm
      rw [cast_tenTo] at hdiv
      rw [zpow_neg, zpow_natCast, hdiv]
      field_simp
    rw [if_neg hp]
    dsimp only
    rw [neg_neg, Int.toNat_natCast]
    split
    · rename_i hempty
      rw [List.isEmpty_iff.1 hempty] at hfraction
      rw [decimalValue_whole (point_notMem_repr _), digitsValue_repr, ← hsplit, ← hfraction]
      simp [digitsValue]
    · rw [String.toList_append, String.toList_append, String.toList_ofList, String.toList_ofList,
        List.append_assoc, List.singleton_append, decimalValue_append (point_notMem_repr _),
        digitsValue_repr, hfraction, hsplit]

/-! ## Intervals -/

namespace Shortest

/-- Whether a number of quarters of a unit lies in an interval. -/
structure Interval.Contains (i : Interval) (q : ℚ) : Prop where
  low_le : i.low ≤ q
  le_high : q ≤ i.high
  closed_of_eq : q = i.low ∨ q = i.high → i.closed = true

/-- An interval that covers a quotient contains it. -/
lemma Interval.contains_of_covers {i : Interval} {num den : ℕ} (h : i.covers num den = true)
    (hden : 0 < den) : i.Contains (num / den) := by
  have hden' : (0 : ℚ) < den := by exact_mod_cast hden
  have hcast : ∀ n : ℕ, ((n * den : ℕ) : ℚ) = n * den := fun n => by push_cast; rfl
  unfold covers at h
  split at h
  · rename_i hclosed
    obtain ⟨hlow, hhigh⟩ := of_decide_eq_true h
    refine ⟨?_, ?_, fun _ => hclosed⟩
    · rw [le_div_iff₀ hden', ← hcast]
      exact_mod_cast hlow
    · rw [div_le_iff₀ hden', ← hcast]
      exact_mod_cast hhigh
  · obtain ⟨hlow, hhigh⟩ := of_decide_eq_true h
    have hlow' : (i.low : ℚ) < num / den := by
      rw [lt_div_iff₀ hden', ← hcast]
      exact_mod_cast hlow
    have hhigh' : (num / den : ℚ) < i.high := by
      rw [div_lt_iff₀ hden', ← hcast]
      exact_mod_cast hhigh
    exact ⟨hlow'.le, hhigh'.le, fun h => h.elim (fun heq => absurd heq hlow'.ne')
      fun heq => absurd heq hhigh'.ne⟩

/-- What covers strictly between the ends covers. -/
lemma Interval.covers_of_lt {i : Interval} {num den : ℕ} (hlow : i.low * den < num)
    (hhigh : num < i.high * den) : i.covers num den = true := by
  unfold covers
  split
  · exact decide_eq_true ⟨hlow.le, hhigh.le⟩
  · exact decide_eq_true ⟨hlow, hhigh⟩

/-- How many half units in the last place, doubled, an interval reaches down. -/
def reach (bits : ℕ) : ℕ := if significand bits = leadingBit ∧ 0 < place bits then 1 else 2

lemma low_eq (bits : ℕ) :
    (interval bits).low = 4 * unitsOf bits - reach bits * twoTo (place bits) := rfl

lemma high_eq (bits : ℕ) : (interval bits).high = 4 * unitsOf bits + 2 * twoTo (place bits) := rfl

/-- An interval does not reach below zero. -/
lemma reach_mul_le (h : 0 < bits) : reach bits * twoTo (place bits) ≤ 2 * unitsOf bits := by
  have hreach : reach bits ≤ 2 := by
    unfold reach
    split <;> omega
  have hsignificand : 1 ≤ significand bits := by
    unfold significand
    rw [leadingBit_eq]
    split <;> omega
  calc reach bits * twoTo (place bits) ≤ 2 * twoTo (place bits) := Nat.mul_le_mul_right _ hreach
    _ ≤ 2 * (significand bits * twoTo (place bits)) :=
      Nat.mul_le_mul_left 2 (Nat.le_mul_of_pos_left _ hsignificand)

/-- An interval has a middle. -/
lemma low_lt_high (bits : ℕ) : (interval bits).low < (interval bits).high := by
  have hpos := twoTo_pos (place bits)
  rw [low_eq, high_eq]
  omega

/-- The next place is the same one, unless the next bits begin a binade. -/
lemma twoTo_place_succ (bits : ℕ) :
    2 * twoTo (place bits) = reach (bits + 1) * twoTo (place (bits + 1)) := by
  have hsucc := place_mul_add_significand (bits + 1)
  have hbits := place_mul_add_significand bits
  have hlt := significand_lt bits
  have hlt' := significand_lt (bits + 1)
  have hle := place_eq_zero_or bits
  have hle' := place_eq_zero_or (bits + 1)
  unfold reach
  rw [leadingBit_eq] at *
  split
  · rename_i hfirst
    have hplace : place (bits + 1) = place bits + 1 := by omega
    rw [hplace, twoTo_succ, Nat.one_mul]
  · rename_i hfirst
    have hplace : place (bits + 1) = place bits := by omega
    rw [hplace]

/-- Intervals that follow one another meet. -/
lemma high_eq_low_succ (bits : ℕ) : (interval bits).high = (interval (bits + 1)).low := by
  have hnext := twoTo_place_succ bits
  have hunits : unitsOf (bits + 1) = unitsOf bits + twoTo (place bits) := unitsOf_succ bits
  rw [high_eq, low_eq, hunits, ← hnext]
  omega

/-- The interval of a smaller double ends before that of a larger one begins. -/
lemma high_le_low (h : bits < bits') : (interval bits).high ≤ (interval bits').low := by
  induction bits', h using Nat.le_induction with
  | base => exact (high_eq_low_succ bits).le
  | succ bits' _ ih => exact ih.trans ((low_lt_high bits').le.trans (high_eq_low_succ bits').le)

/-- Intervals that meet follow one another. -/
lemma eq_succ_of_high_eq_low (h : bits < bits')
    (heq : (interval bits).high = (interval bits').low) :
    bits' = bits + 1 := by
  by_contra hne
  have hlt := low_lt_high (bits + 1)
  have hle : (interval (bits + 1)).high ≤ (interval bits').low := high_le_low (by omega)
  have hmeet : (interval bits').low = (interval (bits + 1)).low :=
    heq.symm.trans (high_eq_low_succ bits)
  exact Nat.not_le_of_lt hlt (hmeet ▸ hle)

/-- An interval has its ends if the significand is even. -/
lemma closed_iff (bits : ℕ) : (interval bits).closed = true ↔ bits % 2 = 0 := by
  have hbits := place_mul_add_significand bits
  have heven : ∀ p, p * leadingBit % 2 = 0 := fun p => by rw [leadingBit_eq]; omega
  have hplace := heven (place bits)
  change decide (significand bits % 2 = 0) = true ↔ _
  rw [decide_eq_true_iff]
  omega

/-- A number lies in the interval of one double. -/
theorem eq_of_contains (h : (interval bits).Contains q) (h' : (interval bits').Contains q) :
    bits = bits' := by
  have hnot : ∀ {b b' : ℕ}, (interval b).Contains q → (interval b').Contains q → ¬b < b' := by
    intro b b' hb hb' hlt
    have hle : ((interval b).high : ℚ) ≤ (interval b').low := by exact_mod_cast high_le_low hlt
    have hhigh : q = (interval b).high := le_antisymm hb.le_high (hle.trans hb'.low_le)
    have hlow : q = (interval b').low := le_antisymm (hb.le_high.trans hle) hb'.low_le
    have heq : (interval b).high = (interval b').low := by
      rw [hhigh] at hlow
      exact_mod_cast hlow
    -- the two ends are the same, but only one of the two significands is even
    have hclosed := (closed_iff b).1 (hb.closed_of_eq (.inr hhigh))
    have hclosed' := (closed_iff b').1 (hb'.closed_of_eq (.inl hlow))
    have hsucc := eq_succ_of_high_eq_low hlt heq
    omega
  exact Nat.le_antisymm (Nat.not_lt.1 (hnot h' h)) (Nat.not_lt.1 (hnot h h'))

/-! ## Grids -/

/-- A hit on a grid lies in the interval. -/
lemma contains_of_onGrid (h : onGrid bits p = some c) :
    (interval bits).Contains (4 * (c * 10 ^ p * one)) := by
  have hcovers :
      (interval bits).covers (4 * c * (tenTo p.toNat * one)) (tenTo (-p).toNat) = true := by
    unfold onGrid at h
    dsimp only at h
    split at h
    · rename_i hbelow habove
      obtain rfl := Option.some.inj h
      split
      · exact hbelow
      · exact habove
    · rename_i hbelow _
      exact Option.some.inj h ▸ hbelow
    · rename_i _ habove
      exact Option.some.inj h ▸ habove
    · contradiction
  have hcontains := Interval.contains_of_covers hcovers (tenTo_pos _)
  have hquarters : (4 * (c * 10 ^ p * one) : ℚ) =
      (4 * c * (tenTo p.toNat * one) : ℕ) / (tenTo (-p).toNat : ℕ) := by
    rw [zpow_ten]
    push_cast
    ring
  rw [hquarters]
  exact hcontains

/-- If multiples are close to each other, one of the two next to a double is strictly between the
ends of its interval. -/
lemma covers_below_or_above {step scale : ℕ} (hpos : 0 < bits) (hscale : 0 < scale)
    (h : step * 10 ^ 16 ≤ unitsOf bits * scale) (hstep : 0 < step) :
    (interval bits).covers (4 * (unitsOf bits * scale / step) * step) scale = true ∨
      (interval bits).covers (4 * (unitsOf bits * scale / step + 1) * step) scale = true := by
  set below := unitsOf bits * scale / step with hbelow
  set rest := unitsOf bits * scale % step with hrest
  set ulp := twoTo (place bits) * scale with hulp
  have hlt : rest < step := Nat.mod_lt _ hstep
  have hsplit : step * below + rest = unitsOf bits * scale := Nat.div_add_mod _ _
  have hulpPos : 0 < ulp := Nat.mul_pos (twoTo_pos _) hscale
  have hlow : (interval bits).low * scale = 4 * (unitsOf bits * scale) - reach bits * ulp := by
    rw [low_eq, Nat.sub_mul, Nat.mul_assoc, Nat.mul_assoc]
  have hhigh : (interval bits).high * scale = 4 * (unitsOf bits * scale) + 2 * ulp := by
    rw [high_eq, Nat.add_mul, Nat.mul_assoc, Nat.mul_assoc]
  have hreach : reach bits * ulp ≤ 2 * (unitsOf bits * scale) := by
    rw [hulp, ← Nat.mul_assoc, ← Nat.mul_assoc]
    exact Nat.mul_le_mul_right scale (reach_mul_le hpos)
  have hbelowEq : 4 * below * step = 4 * (step * below) := by ring
  have haboveEq : 4 * (below + 1) * step = 4 * (step * below) + 4 * step := by ring
  have hunits : unitsOf bits * scale = significand bits * ulp := Nat.mul_assoc _ _ _
  by_cases hfirst : significand bits = leadingBit ∧ 0 < place bits
  · -- the interval reaches less far down, but the significand is small
    have hone : reach bits = 1 := if_pos hfirst
    rw [hone] at hlow
    have hsmall : step * 10 ^ 16 ≤ 4503599627370496 * ulp := by
      rw [hunits, hfirst.1, leadingBit_eq] at h
      exact h
    refine .inr (Interval.covers_of_lt ?_ ?_)
    · rw [hlow, haboveEq]
      omega
    · rw [hhigh, haboveEq]
      omega
  · have htwo : reach bits = 2 := if_neg hfirst
    rw [htwo] at hlow
    have hsmall : step * 10 ^ 16 ≤ 9007199254740992 * ulp := by
      refine h.trans (hunits.trans_le (Nat.mul_le_mul_right ulp ?_))
      exact (significand_lt bits).le
    by_cases hnear : 2 * rest < step
    · refine .inl (Interval.covers_of_lt ?_ ?_)
      · rw [hlow, hbelowEq]
        omega
      · rw [hhigh, hbelowEq]
        omega
    · refine .inr (Interval.covers_of_lt ?_ ?_)
      · rw [hlow, haboveEq]
        omega
      · rw [hhigh, haboveEq]
        omega

/-- If the multiples on a grid are close to each other, there is a hit. -/
lemma onGrid_ne_none (hpos : 0 < bits)
    (h : tenTo p.toNat * one * 10 ^ 16 ≤ unitsOf bits * tenTo (-p).toNat) :
      onGrid bits p ≠ none := by
  have hstep : 0 < tenTo p.toNat * one := Nat.mul_pos (tenTo_pos _) one_pos
  have hcovers := covers_below_or_above hpos (tenTo_pos _) h hstep
  unfold onGrid
  dsimp only
  split
  · exact Option.some_ne_none _
  · exact Option.some_ne_none _
  · exact Option.some_ne_none _
  · rename_i hbelow habove
    rw [hbelow, habove] at hcovers
    exact (hcovers.elim Bool.false_ne_true Bool.false_ne_true).elim

/-- Bits other than zero stand for some units. -/
lemma unitsOf_pos (h : 0 < bits) : 0 < unitsOf bits :=
  lt_of_eq_of_lt unitsOf_zero.symm (unitsOf_strictMono h)

/-- The point is not too far behind. -/
lemma zpow_pointPosition_le {count : ℕ} (h : 0 < count) :
    (10 : ℚ) ^ (pointPosition count - 1) * one ≤ count := by
  have hone : one ≤ tenTo 330 := by decide +kernel
  have hpos : 0 < count * tenTo 330 / one :=
    Nat.div_pos (hone.trans (Nat.le_mul_of_pos_left _ h)) one_pos
  unfold pointPosition
  set n := count * tenTo 330 / one with hn
  -- a number of `k + 1` digits is at least the power of ten to `k`
  obtain ⟨k, hk⟩ : ∃ k, n.repr.length = k + 1 := ⟨n.repr.length - 1, by
    have hlength := Nat.length_repr_pos (n := n)
    omega⟩
  have hten : tenTo k ≤ n := by
    rcases Nat.eq_zero_or_pos k with rfl | hk'
    · exact hpos
    · exact tenTo_le hk' (by omega)
  have hle : tenTo k * one ≤ count * tenTo 330 :=
    (Nat.mul_le_mul_right one hten).trans (Nat.div_mul_le_self _ _)
  have hle' : (10 : ℚ) ^ k * one ≤ count * 10 ^ 330 := by
    rw [← cast_tenTo, ← cast_tenTo]
    exact_mod_cast hle
  have hexponent : ((n.repr.length : ℕ) : ℤ) - 330 - 1 = (k : ℤ) - (330 : ℕ) := by
    rw [hk]
    push_cast
    ring
  rw [hexponent, zpow_sub₀ (by norm_num), zpow_natCast, zpow_natCast, div_mul_eq_mul_div,
    div_le_iff₀ (by positivity)]
  exact hle'

/-- There is a hit for 17 digits. -/
lemma onGrid_seventeen_ne_none (h : 0 < bits) :
    onGrid bits (pointPosition (unitsOf bits) - 17) ≠ none := by
  set p := pointPosition (unitsOf bits) - 17 with hp
  have hpoint := zpow_pointPosition_le (unitsOf_pos h)
  have hexponent : pointPosition (unitsOf bits) - 1 = p + (16 : ℕ) := by
    rw [hp]
    push_cast
    ring
  refine onGrid_ne_none h ?_
  rw [hexponent, zpow_add₀ (by norm_num), zpow_natCast, zpow_ten, div_mul_eq_mul_div,
    div_mul_eq_mul_div, div_le_iff₀ (by exact_mod_cast tenTo_pos _), mul_right_comm] at hpoint
  exact_mod_cast hpoint

/-- The search ends with a hit. -/
lemma onGrid_search {point : ℤ} (h : onGrid bits (point - 17) ≠ none) (fuel : ℕ) :
    onGrid bits (search bits point fuel).2 = some (search bits point fuel).1 := by
  induction fuel with
  | zero =>
    obtain ⟨c, hc⟩ := Option.ne_none_iff_exists'.1 h
    rw [search, hc]
    rfl
  | succ fuel ih =>
    rw [search]
    split
    · rename_i c hc
      exact hc
    · exact ih

/-- The number that is written for a double rounds to it. -/
theorem contains_digits (h : 0 < bits) :
    (interval bits).Contains (4 * ((digits bits).1 * 10 ^ (digits bits).2 * one)) :=
  contains_of_onGrid (onGrid_search (onGrid_seventeen_ne_none h) 16)

end Shortest

/-! ## Texts -/

/-- Whether a character occurs in positional decimals. -/
def isDecimalPart (c : Char) : Bool := c.isDigit || c = '.'

/-- Digits are parts of a decimal. -/
lemma isDecimalPart_of_isDigit {c : Char} (h : c.isDigit = true) : isDecimalPart c = true := by
  rw [isDecimalPart, h, Bool.true_or]

/-- All characters of a positional decimal are parts of a decimal. -/
lemma isDecimalPart_of_mem_positional {d : Char} (h : d ∈ (positional c p).toList) :
    isDecimalPart d = true := by
  have hzeros : ∀ {n}, d ∈ List.replicate n '0' → isDecimalPart d = true := fun hd =>
    List.eq_of_mem_replicate hd ▸ by decide
  have hrepr : ∀ {n : ℕ}, d ∈ n.repr.toList → isDecimalPart d = true := fun hd =>
    isDecimalPart_of_isDigit (isDigit_of_mem_repr hd)
  unfold positional at h
  split at h
  · rw [String.toList_append, String.toList_ofList] at h
    exact (List.mem_append.1 h).elim hrepr hzeros
  · dsimp only at h
    split at h
    · exact hrepr h
    · rw [String.toList_append, String.toList_append, String.toList_ofList, String.toList_ofList,
        List.mem_append, List.mem_append, List.mem_singleton] at h
      rcases h with (h | rfl) | h
      · exact hrepr h
      · decide
      · -- what is left of the fraction is part of it
        have hfraction := (List.dropWhile_sublist _).subset (List.mem_reverse.1 h)
        rcases List.mem_append.1 (List.mem_reverse.1 hfraction) with hfraction | hfraction
        · exact hzeros hfraction
        · exact hrepr hfraction

/-- The text of a magnitude is a decimal, unless the magnitude is infinite. -/
lemma isDecimalPart_of_mem_magnitudeText {d : Char} (h : bits < infinityBits)
    (hd : d ∈ (magnitudeText bits).toList) : isDecimalPart d = true := by
  unfold magnitudeText at hd
  split at hd
  · rw [List.mem_singleton.1 hd]
    decide
  · rw [if_neg (by omega)] at hd
    exact isDecimalPart_of_mem_positional hd

lemma magnitudeText_infinityBits : magnitudeText infinityBits = "inf" := by
  unfold magnitudeText
  rw [if_neg (by decide), if_pos le_rfl]

/-- The number in the text of a finite magnitude rounds to it. -/
lemma contains_decimalValue (h : bits < infinityBits) :
    (Shortest.interval bits).Contains (4 * (decimalValue (magnitudeText bits).toList * one)) := by
  rcases Nat.eq_zero_or_pos bits with rfl | hpos
  · have hzero : decimalValue (magnitudeText 0).toList = 0 := by decide +kernel
    rw [hzero, zero_mul, mul_zero]
    exact ⟨le_rfl, Nat.cast_nonneg _, fun _ => rfl⟩
  · unfold magnitudeText
    rw [if_neg hpos.ne', if_neg (Nat.not_le_of_lt h), decimalValue_positional]
    exact Shortest.contains_digits hpos

/-- No finite number is written like infinity. -/
lemma magnitudeText_ne_inf (h : bits < infinityBits) : magnitudeText bits ≠ "inf" := by
  intro heq
  have hd : 'i' ∈ (magnitudeText bits).toList := by
    rw [heq]
    decide
  exact absurd (isDecimalPart_of_mem_magnitudeText h hd) (by decide)

/-- Magnitudes with the same text are the same. -/
lemma eq_of_magnitudeText_eq (h : bits ≤ infinityBits) (h' : bits' ≤ infinityBits)
    (heq : magnitudeText bits = magnitudeText bits') : bits = bits' := by
  rcases h.eq_or_lt with rfl | hlt <;> rcases h'.eq_or_lt with rfl | hlt'
  · rfl
  · exact absurd (heq.symm.trans magnitudeText_infinityBits) (magnitudeText_ne_inf hlt')
  · exact absurd (heq.trans magnitudeText_infinityBits) (magnitudeText_ne_inf hlt)
  · have hcontains := contains_decimalValue hlt'
    rw [← heq] at hcontains
    exact Shortest.eq_of_contains (contains_decimalValue hlt) hcontains

/-- The text of a magnitude has no other characters. -/
lemma notMem_magnitudeText {d : Char} (h : bits ≤ infinityBits) (hpart : isDecimalPart d = false)
    (hinf : d ∉ "inf".toList) : d ∉ (magnitudeText bits).toList := by
  intro hmem
  rcases h.eq_or_lt with rfl | hlt
  · rw [magnitudeText_infinityBits] at hmem
    exact hinf hmem
  · rw [isDecimalPart_of_mem_magnitudeText hlt hmem] at hpart
    contradiction

/-! ## What is not a number -/

section

open Float.Model Float.Model.UnpackedFloat
open Float.Model.Format (binary64)

/-- What is not a number is unpacked as such. -/
lemma unpack_of_isNaN (h : x.isNaN = true) : x.toModel.unpack = .notANumber := by
  have hunpacked : x.toModel.unpack.isNaN = true := h
  cases hx : x.toModel.unpack with
  | notANumber => rfl
  | infinity | zero | finite =>
    rw [hx] at hunpacked
    contradiction

/-- Magnitude bits above those of infinity are no number. -/
lemma isNaN_of_lt (h : infinityBits < magnitudeBits x) : x.isNaN = true := by
  have hexponent := toNat_unpackExponent_toBits x
  have hmantissa := toNat_unpackMantissa_toBits x
  have hlt : magnitudeBits x < signPlace := Nat.mod_lt _ (by decide)
  rw [leadingBit_eq, infinityBits_eq, signPlace_eq] at *
  have hexponent' : @unpackExponent binary64 x.toBits.toBitVec = -1#11 := by
    have hall : (-1#11).toNat = 2047 := rfl
    refine BitVec.eq_of_toNat_eq ?_
    rw [hexponent, hall]
    omega
  have hnonzero : @unpackMantissa binary64 x.toBits.toBitVec ≠ 0#52 := by
    intro heq
    rw [heq, BitVec.toNat_zero] at hmantissa
    omega
  have hunpack : x.toModel.unpack = .notANumber := by
    rw [unpack_toModel]
    unfold UnpackedFloat.unpack
    dsimp only
    rw [if_pos hexponent', if_neg hnonzero]
  change x.toModel.unpack.isNaN = true
  rw [hunpack]
  rfl

/-- There is one value that is not a number. -/
lemma eq_of_isNaN (h : x.isNaN = true) (h' : y.isNaN = true) : x = y := by
  have hbits : ∀ z : Float, z.isNaN = true → z.toBits.toBitVec = packedNaN binary64 := by
    intro z hz
    have hvalid : binary64.Valid z.toBits.toBitVec := z.toModel.valid
    rw [← pack_unpack_of_valid hvalid]
    exact congrArg (UnpackedFloat.pack binary64) (unpack_of_isNaN hz)
  have heq : x.toBits = y.toBits := UInt64.toBitVec_inj.1 ((hbits x h).trans (hbits y h').symm)
  rw [← ofMagnitudeBits_magnitudeBits x, ← ofMagnitudeBits_magnitudeBits y, signBit_eq, signBit_eq,
    magnitudeBits_eq, magnitudeBits_eq, heq]

end

/-- The magnitude bits of a number are at most those of infinity. -/
lemma magnitudeBits_le (h : ¬x.isNaN = true) : magnitudeBits x ≤ infinityBits :=
  Nat.not_lt.1 fun hlt => h (isNaN_of_lt hlt)

lemma text_of_isNaN (h : x.isNaN = true) : text x = "NaN" := if_pos h

/-- A number is written with a minus sign if it is negative. -/
lemma text_of_not_isNaN (h : ¬x.isNaN = true) : text x =
    if signBit x then "-" ++ magnitudeText (magnitudeBits x) else magnitudeText (magnitudeBits x) :=
  if_neg h

/-- No number is written like what is not a number. -/
lemma text_ne_nan (h : ¬x.isNaN = true) : text x ≠ "NaN" := by
  intro heq
  have hmem : 'N' ∈ (text x).toList := by
    rw [heq]
    decide
  have hnot : 'N' ∉ (magnitudeText (magnitudeBits x)).toList :=
    notMem_magnitudeText (magnitudeBits_le h) (by decide) (by decide)
  rw [text_of_not_isNaN h] at hmem
  split at hmem
  · rw [String.toList_append] at hmem
    exact (List.mem_append.1 hmem).elim (by decide) hnot
  · exact hnot hmem

/-- A minus sign says that the sign bit is set. -/
lemma minus_mem_text_iff (h : ¬x.isNaN = true) : '-' ∈ (text x).toList ↔ signBit x = true := by
  have hnot : '-' ∉ (magnitudeText (magnitudeBits x)).toList :=
    notMem_magnitudeText (magnitudeBits_le h) (by decide) (by decide)
  rw [text_of_not_isNaN h]
  cases signBit x with
  | false => exact iff_of_false hnot Bool.false_ne_true
  | true =>
    rw [if_pos rfl, String.toList_append]
    exact iff_of_true (List.mem_append_left _ (by decide)) rfl

/-- Doubles with the same text are the same. -/
theorem text_injective : Function.Injective text := by
  intro x y heq
  by_cases hx : x.isNaN = true <;> by_cases hy : y.isNaN = true
  · exact eq_of_isNaN hx hy
  · exact absurd (heq.symm.trans (text_of_isNaN hx)) (text_ne_nan hy)
  · exact absurd (heq.trans (text_of_isNaN hy)) (text_ne_nan hx)
  · have hsign : signBit x = signBit y := by
      rw [Bool.eq_iff_iff, ← minus_mem_text_iff hx, ← minus_mem_text_iff hy, heq]
    have hmagnitude : magnitudeText (magnitudeBits x) = magnitudeText (magnitudeBits y) := by
      rw [text_of_not_isNaN hx, text_of_not_isNaN hy, hsign] at heq
      split at heq
      · exact (String.append_right_inj "-").1 heq
      · exact heq
    rw [← ofMagnitudeBits_magnitudeBits x, ← ofMagnitudeBits_magnitudeBits y, hsign,
      eq_of_magnitudeText_eq (magnitudeBits_le hx) (magnitudeBits_le hy) hmagnitude]

/-- The text of a double stays on its line. -/
lemma newline_notMem_text (x : Float) : '\n' ∉ (text x).toList := by
  by_cases hx : x.isNaN = true
  · rw [text_of_isNaN hx]
    decide
  · have hnot : '\n' ∉ (magnitudeText (magnitudeBits x)).toList :=
      notMem_magnitudeText (magnitudeBits_le hx) (by decide) (by decide)
    rw [text_of_not_isNaN hx]
    split
    · rw [String.toList_append, List.mem_append, not_or]
      exact ⟨by decide, hnot⟩
    · exact hnot

end Reckon.Binary64
