import Mathlib.Data.Nat.Dist
import Mathlib.Order.Monotone.Basic
import Mathlib.Tactic.Common
import Reckon.Binary64.Basic

/-!
# Magnitudes of doubles

Magnitude bits are ordered as the magnitudes are that they stand for (`unitsOf_strictMono`).  A
quotient of units is rounded to a multiple of the unit in its last place (`roundedQuotient`), and no
double is nearer to it (`dist_roundedQuotient_le`); if another one is equally near, the significand
is even (`even_significand_quotientBits`).  The bits that `nearestBits` finds are those of the
rounded quotient, or those of infinity from half a unit behind the largest double on
(`nearestBits_lt_infinityBits_iff`).
-/

namespace Reckon.Binary64

variable {num den num' den' k : ℕ}

lemma twoTo_eq (n : ℕ) : twoTo n = 2 ^ n := rfl

lemma twoTo_pos (n : ℕ) : 0 < twoTo n := Nat.two_pow_pos n

lemma twoTo_le_twoTo {m n : ℕ} (h : m ≤ n) : twoTo m ≤ twoTo n := Nat.pow_le_pow_right Nat.two_pos h

lemma twoTo_add (m n : ℕ) : twoTo (m + n) = twoTo m * twoTo n := Nat.pow_add 2 m n

lemma twoTo_succ (n : ℕ) : twoTo (n + 1) = 2 * twoTo n := Nat.pow_succ'

/-- One is counted in smallest steps above zero. -/
lemma one_eq : one = 2 ^ 1074 := twoTo_eq 1074

lemma one_pos : 0 < one := twoTo_pos 1074

lemma leadingBit_eq : leadingBit = 4503599627370496 := rfl

lemma leadingBit_eq_pow : leadingBit = 2 ^ 52 := rfl

lemma infinityBits_eq : infinityBits = 9218868437227405312 := rfl

/-! ## Quotients -/

/-- A quotient is rounded to no less than its whole part. -/
lemma div_le_roundQuotient (num den : ℕ) : num / den ≤ roundQuotient num den := by
  unfold roundQuotient
  dsimp only
  split
  · exact Nat.le_refl _
  · split <;> omega

/-- A quotient is rounded to no more than the next whole number. -/
lemma roundQuotient_le_succ (num den : ℕ) : roundQuotient num den ≤ num / den + 1 := by
  unfold roundQuotient
  dsimp only
  split
  · omega
  · split <;> omega

/-- A quotient differs from what it is rounded to by at most a half, and by a half only if that is
even. -/
lemma roundQuotient_spec (num : ℕ) (hden : 0 < den) :
    2 * num ≤ 2 * (roundQuotient num den * den) + den ∧
      2 * (roundQuotient num den * den) ≤ 2 * num + den ∧
      (2 * num = 2 * (roundQuotient num den * den) + den ∨
        2 * (roundQuotient num den * den) = 2 * num + den → roundQuotient num den % 2 = 0) := by
  have hdiv : num / den * den + num % den = num := Nat.div_add_mod' num den
  have hlt := Nat.mod_lt num hden
  have hsucc : (num / den + 1) * den = num / den * den + den := Nat.succ_mul _ _
  unfold roundQuotient
  dsimp only
  by_cases hbelow : 2 * (num % den) < den
  · rw [if_pos hbelow]
    omega
  · rw [if_neg hbelow]
    by_cases habove : 2 * (num % den) > den
    · rw [if_pos habove, hsucc]
      omega
    · rw [if_neg habove]
      rcases Nat.mod_two_eq_zero_or_one (num / den) with heven | hodd
      · rw [heven, Nat.add_zero]
        omega
      · rw [hodd, hsucc]
        omega

/-- Another multiple of the divisor is away by at least one divisor. -/
lemma add_le_of_ne {r : ℕ} (den : ℕ) (hk : k ≠ r) :
    k * den + den ≤ r * den ∨ r * den + den ≤ k * den := by
  rw [← Nat.succ_mul, ← Nat.succ_mul]
  rcases Nat.lt_or_gt_of_ne hk with hlt | hgt
  · exact .inl (Nat.mul_le_mul_right den hlt)
  · exact .inr (Nat.mul_le_mul_right den hgt)

/-- No multiple of the divisor is nearer than the rounded quotient. -/
lemma dist_roundQuotient_le (hden : 0 < den) (k : ℕ) :
    Nat.dist (roundQuotient num den * den) num ≤ Nat.dist (k * den) num := by
  by_cases hk : k = roundQuotient num den
  · rw [hk]
  · obtain ⟨hbelow, habove, -⟩ := roundQuotient_spec num hden
    have haway := add_le_of_ne den hk
    unfold Nat.dist
    omega

/-- If another multiple is equally near, the rounded quotient is even. -/
lemma even_roundQuotient (hden : 0 < den) (hk : k ≠ roundQuotient num den)
    (h : Nat.dist (k * den) num = Nat.dist (roundQuotient num den * den) num) :
    roundQuotient num den % 2 = 0 := by
  obtain ⟨hbelow, habove, htie⟩ := roundQuotient_spec num hden
  have haway := add_le_of_ne den hk
  unfold Nat.dist at h
  exact htie (by omega)

/-- A common factor does not change how a quotient is rounded. -/
lemma roundQuotient_mul_right (hk : 0 < k) :
    roundQuotient (num * k) (den * k) = roundQuotient num den := by
  have hbelow : 2 * (num % den * k) < den * k ↔ 2 * (num % den) < den := by
    rw [← Nat.mul_assoc, Nat.mul_lt_mul_right hk]
  have habove : 2 * (num % den * k) > den * k ↔ 2 * (num % den) > den := by
    rw [← Nat.mul_assoc, gt_iff_lt, Nat.mul_lt_mul_right hk]
  unfold roundQuotient
  simp only [Nat.mul_div_mul_right _ _ hk, Nat.mul_mod_mul_right, hbelow, habove]

/-- Only the quotient matters. -/
lemma roundQuotient_congr (hden : 0 < den) (hden' : 0 < den') (h : num * den' = num' * den) :
    roundQuotient num den = roundQuotient num' den' := by
  rw [← roundQuotient_mul_right hden', h, Nat.mul_comm den, roundQuotient_mul_right hden]

/-- A whole quotient is not changed. -/
lemma roundQuotient_mul_self (k : ℕ) (hden : 0 < den) : roundQuotient (k * den) den = k := by
  unfold roundQuotient
  dsimp only
  rw [Nat.mul_mod_left, Nat.mul_div_cancel _ hden, if_pos (by omega)]

/-- What is less than the divisor is lost. -/
lemma mul_add_div_of_lt {k : ℕ} (ht : t < k) : (p * k + t) / k = p := by
  rw [Nat.mul_comm, Nat.mul_add_div (by omega), Nat.div_eq_of_lt ht, Nat.add_zero]

/-- A remainder of less than a half is rounded down. -/
lemma roundQuotient_mul_add {den s d : ℕ} (hd : 2 * d < den) :
    roundQuotient (s * den + d) den = s := by
  have hlt : d < den := by omega
  have hdiv : (s * den + d) / den = s := by
    rw [Nat.mul_comm, Nat.mul_add_div (by omega), Nat.div_eq_of_lt hlt, Nat.add_zero]
  unfold roundQuotient
  dsimp only
  rw [Nat.mul_add_mod_of_lt hlt, if_pos hd, hdiv]

/-- Half way above an even number, with digits behind, is past half way. -/
lemma roundQuotient_mul_add_of_lt {h k : ℕ} (num : ℕ) (hh : 0 < h) (ht : t < k) :
    roundQuotient (num * k + t) (2 * h * k) =
      roundQuotient num (2 * h) + if num % (2 * (2 * h)) = h ∧ t ≠ 0 then 1 else 0 := by
  have hdiv : (num * k + t) / (2 * h * k) = num / (2 * h) := by
    rw [Nat.mul_comm (2 * h), ← Nat.div_div_eq_div_mul, mul_add_div_of_lt ht]
  have hmod : (num * k + t) % (2 * h * k) = num % (2 * h) * k + t := by
    rw [Nat.mul_comm (2 * h), Nat.mod_mul, mul_add_div_of_lt ht, Nat.mul_add_mod_of_lt ht,
      Nat.mul_comm k, Nat.add_comm]
  have hrest : num % (2 * (2 * h)) = num % (2 * h) + 2 * h * (num / (2 * h) % 2) := by
    rw [Nat.mul_comm 2 (2 * h), Nat.mod_mul]
  have hlt : num % (2 * h) < 2 * h := Nat.mod_lt _ (by omega)
  have hproduct : 2 * h * k = 2 * (h * k) := Nat.mul_assoc 2 h k
  unfold roundQuotient
  dsimp only
  rw [hdiv, hmod, hrest, hproduct]
  generalize num / (2 * h) = q at *
  generalize num % (2 * h) = r at *
  have hbelow : r < h → r * k + k ≤ h * k := fun hlt => by
    rw [← Nat.succ_mul]
    exact Nat.mul_le_mul_right k hlt
  have habove : h < r → h * k + k ≤ r * k := fun hlt => by
    rw [← Nat.succ_mul]
    exact Nat.mul_le_mul_right k hlt
  have htie : r = h → r * k = h * k := fun heq => by rw [heq]
  clear hdiv hmod hrest hproduct
  rcases Nat.mod_two_eq_zero_or_one q with heven | hodd
  · rw [heven, Nat.mul_zero]
    split_ifs <;> omega
  · rw [hodd, Nat.mul_one]
    split_ifs <;> omega

/-! ## Magnitude bits -/

variable {bits p s count : ℕ}

/-- Magnitude bits are made up of a place and a significand. -/
lemma place_mul_add_significand (bits : ℕ) : place bits * leadingBit + significand bits = bits := by
  unfold place significand
  rw [leadingBit_eq]
  split <;> omega

/-- A significand has at most one bit more than the mantissa. -/
lemma significand_lt (bits : ℕ) : significand bits < 2 * leadingBit := by
  unfold significand
  rw [leadingBit_eq]
  split <;> omega

/-- Beyond the first binade the leading bit is set. -/
lemma place_eq_zero_or (bits : ℕ) : place bits = 0 ∨ leadingBit ≤ significand bits := by
  unfold place significand
  rw [leadingBit_eq]
  split <;> omega

/-- A place and a significand make magnitude bits; a significand one too large carries into the next
place. -/
lemma unitsOf_place_mul_add (hs : s ≤ 2 * leadingBit) (h : p = 0 ∨ leadingBit ≤ s) :
    unitsOf (p * leadingBit + s) = s * 2 ^ p := by
  unfold unitsOf place significand twoTo
  rw [leadingBit_eq] at *
  by_cases hsmall : s < 4503599627370496
  · obtain rfl : p = 0 := by omega
    have hquotient : (0 * 4503599627370496 + s) / 4503599627370496 = 0 := by omega
    rw [hquotient, if_pos rfl, Nat.zero_mul, Nat.zero_add]
    rfl
  · by_cases hcarry : s = 2 * 4503599627370496
    · have hquotient : (p * 4503599627370496 + s) / 4503599627370496 = p + 2 := by omega
      have hrest : (p * 4503599627370496 + s) % 4503599627370496 = 0 := by omega
      have hpow : 2 ^ (p + 2 - 1) = 2 * 2 ^ p := Nat.pow_succ'
      rw [hquotient, hrest, if_neg (by omega), hcarry, Nat.pow_eq, hpow]
      omega
    · have hquotient : (p * 4503599627370496 + s) / 4503599627370496 = p + 1 := by omega
      have hrest : 4503599627370496 + (p * 4503599627370496 + s) % 4503599627370496 = s := by omega
      rw [hquotient, hrest, if_neg (by omega)]
      rfl

/-- Magnitude bits count their significand at its place. -/
lemma unitsOf_eq (bits : ℕ) : unitsOf bits = significand bits * 2 ^ place bits := rfl

/-- Zero bits count zero units. -/
lemma unitsOf_zero : unitsOf 0 = 0 := by decide

/-- The next bits stand for one unit in the last place more. -/
lemma unitsOf_succ (bits : ℕ) : unitsOf (bits + 1) = unitsOf bits + 2 ^ place bits := by
  have hlt := significand_lt bits
  have hplace := place_eq_zero_or bits
  conv_lhs => rw [← place_mul_add_significand bits, Nat.add_assoc]
  rw [unitsOf_place_mul_add (by omega) (by omega), unitsOf_eq, Nat.succ_mul]

/-- More bits stand for more units. -/
lemma unitsOf_strictMono : StrictMono unitsOf := by
  refine strictMono_nat_of_lt_succ fun bits => ?_
  have hpos := Nat.two_pow_pos (place bits)
  rw [unitsOf_succ]
  omega

/-! ## Rounding -/

/-- The place in which a count of units has 53 binary digits, or the first one. -/
def places (count : ℕ) : ℕ := count.log2 - 52

/-- A count of units, rounded in its place, as if there were doubles of any size. -/
def rounded (count : ℕ) : ℕ := roundQuotient count (2 ^ places count) * 2 ^ places count

/-- The magnitude bits of a rounded count, as if there were doubles of any size. -/
def rawBits (count : ℕ) : ℕ :=
  places count * leadingBit + roundQuotient count (2 ^ places count)

/-- A quotient of units, rounded in its place, as if there were doubles of any size. -/
def roundedQuotient (num den : ℕ) : ℕ :=
  roundQuotient num (den * 2 ^ places (num / den)) * 2 ^ places (num / den)

/-- The magnitude bits of a rounded quotient of units, as if there were doubles of any size. -/
def quotientBits (num den : ℕ) : ℕ :=
  places (num / den) * leadingBit + roundQuotient num (den * 2 ^ places (num / den))

/-- A count of units is a quotient by one. -/
lemma roundedQuotient_one (count : ℕ) : roundedQuotient count 1 = rounded count := by
  rw [roundedQuotient, Nat.div_one, Nat.one_mul, rounded]

/-- The bits of a count of units are those of a quotient by one. -/
lemma quotientBits_one (count : ℕ) : quotientBits count 1 = rawBits count := by
  rw [quotientBits, Nat.div_one, Nat.one_mul, rawBits]

/-- No bits that are found are past those of infinity. -/
lemma nearestBits_le (num den : ℕ) : nearestBits num den ≤ infinityBits := min_le_right _ _

/-- What is found are the bits of the rounded quotient, unless they are past those of infinity. -/
lemma nearestBits_eq (num den : ℕ) :
    nearestBits num den = min (quotientBits num den) infinityBits := rfl

/-- The bits that are found for nothing are those of zero. -/
lemma nearestBits_zero : nearestBits 0 1 = 0 := by decide

/-- The bits that are found for a count of units. -/
lemma nearestBits_one (count : ℕ) : nearestBits count 1 = min (rawBits count) infinityBits := by
  rw [nearestBits_eq, quotientBits_one]

/-- A number has room in the places and a significand behind them. -/
lemma lt_two_pow_places (count : ℕ) : count < 2 * leadingBit * 2 ^ places count := by
  calc count < 2 ^ (count.log2 + 1) := Nat.lt_log2_self
    _ ≤ 2 ^ (53 + places count) := Nat.pow_le_pow_right (by decide) (by unfold places; omega)
    _ = 2 * leadingBit * 2 ^ places count := Nat.pow_add 2 53 _

/-- A number with places has its leading bit before them. -/
lemma le_of_places_ne_zero (h : places count ≠ 0) : leadingBit * 2 ^ places count ≤ count := by
  unfold places at h
  have hlog : count.log2 = 52 + places count := by
    unfold places
    omega
  have hne : count ≠ 0 := by
    rintro rfl
    exact h (by decide)
  calc leadingBit * 2 ^ places count = 2 ^ count.log2 := by
        rw [hlog]
        exact (Nat.pow_add 2 52 _).symm
    _ ≤ count := Nat.log2_self_le hne

/-- The length of a significand with the leading bit. -/
lemma log2_of_leadingBit_le (hlow : leadingBit ≤ count) (hhigh : count < 2 * leadingBit) :
    count.log2 = 52 := by
  have hne : count ≠ 0 := by
    rw [leadingBit_eq] at hlow
    omega
  rw [leadingBit_eq_pow] at hlow hhigh
  rw [Nat.log2_eq_iff hne]
  exact ⟨hlow, Nat.lt_of_lt_of_eq hhigh Nat.pow_succ'.symm⟩

lemma log2_two_mul_leadingBit : (2 * leadingBit).log2 = 53 := by
  rw [leadingBit_eq_pow, ← Nat.pow_succ', Nat.log2_two_pow]

/-- A count below the leading bit has fewer digits. -/
lemma log2_of_lt_leadingBit (h : count < leadingBit) : count.log2 < 52 := by
  by_cases hne : count = 0
  · rw [hne, Nat.log2_zero]
    decide
  · rw [leadingBit_eq_pow] at h
    exact (Nat.log2_lt hne).2 h

/-- A power of two adds to the length of a number. -/
lemma log2_mul_two_pow (hpos : 0 < count) (j : ℕ) : (count * 2 ^ j).log2 = count.log2 + j := by
  have hne : count * 2 ^ j ≠ 0 := (Nat.mul_pos hpos (Nat.two_pow_pos j)).ne'
  rw [Nat.log2_eq_iff hne, Nat.add_right_comm, Nat.pow_add, Nat.pow_add]
  exact ⟨Nat.mul_le_mul_right _ (Nat.log2_self_le hpos.ne'),
    Nat.mul_lt_mul_of_pos_right Nat.lt_log2_self (Nat.two_pow_pos j)⟩

/-- Beyond the first place a count has 53 binary digits. -/
lemma places_of_le (hlow : leadingBit * 2 ^ p ≤ count) (hhigh : count < 2 * leadingBit * 2 ^ p) :
    places count = p := by
  have hpos := Nat.two_pow_pos p
  have hne : count ≠ 0 := by
    rw [leadingBit_eq] at hlow
    omega
  have hlow' : 2 ^ (52 + p) ≤ count := by
    rw [Nat.pow_add]
    exact hlow
  have hhigh' : count < 2 ^ (52 + p + 1) := by
    rw [Nat.add_right_comm, Nat.pow_add]
    exact hhigh
  have hlog : count.log2 = 52 + p := (Nat.log2_eq_iff hne).2 ⟨hlow', hhigh'⟩
  rw [places, hlog, Nat.add_sub_cancel_left]

/-- A number that fits a significand has no places. -/
lemma places_of_lt (h : count < 2 * leadingBit) : places count = 0 := by
  by_cases hplaces : places count = 0
  · exact hplaces
  · have hle := le_of_places_ne_zero hplaces
    have htwo : 2 ^ 1 ≤ 2 ^ places count := Nat.pow_le_pow_right (by decide) (by omega)
    have hmul := Nat.mul_le_mul_left leadingBit htwo
    omega

/-- A number that is too long for a significand has places. -/
lemma places_ne_zero (h : 2 * leadingBit ≤ count) : places count ≠ 0 := by
  intro hzero
  have hlt := lt_two_pow_places count
  rw [hzero, Nat.pow_zero] at hlt
  omega

/-- A short number has few places. -/
lemma places_le_of_lt {k : ℕ} (h : count < twoTo (53 + k)) : places count ≤ k := by
  rcases Nat.eq_zero_or_pos count with rfl | hpos
  · exact Nat.zero_le k
  · have hlog : count.log2 < 53 + k := (Nat.log2_lt hpos.ne').2 h
    unfold places
    omega

/-- A long number has many places. -/
lemma le_places_of_le {k : ℕ} (h : twoTo (52 + k) ≤ count) : k ≤ places count := by
  have hpos : 0 < count := (twoTo_pos _).trans_le h
  have hlog : 52 + k ≤ count.log2 := (Nat.le_log2 hpos.ne').2 h
  unfold places
  omega

/-- A quotient of units is below the end of its binade. -/
lemma lt_mul_two_pow_places (num : ℕ) (hden : 0 < den) :
    num < 2 * leadingBit * (den * 2 ^ places (num / den)) := by
  rw [Nat.mul_left_comm, Nat.mul_comm den, ← Nat.div_lt_iff_lt_mul hden]
  exact lt_two_pow_places (num / den)

/-- Beyond the first place a quotient of units is at least the beginning of its binade. -/
lemma mul_two_pow_places_le (num : ℕ) (hden : 0 < den) (h : places (num / den) ≠ 0) :
    leadingBit * (den * 2 ^ places (num / den)) ≤ num := by
  rw [Nat.mul_left_comm, Nat.mul_comm den, ← Nat.le_div_iff_mul_le hden]
  exact le_of_places_ne_zero h

/-- The rounded significand. -/
lemma roundQuotient_mul_places (num : ℕ) (hden : 0 < den) :
    roundQuotient num (den * 2 ^ places (num / den)) ≤ 2 * leadingBit ∧
      (places (num / den) = 0 ∨
        leadingBit ≤ roundQuotient num (den * 2 ^ places (num / den))) := by
  have hpos : 0 < den * 2 ^ places (num / den) := Nat.mul_pos hden (Nat.two_pow_pos _)
  have hdiv : num / (den * 2 ^ places (num / den)) < 2 * leadingBit :=
    (Nat.div_lt_iff_lt_mul hpos).2 (lt_mul_two_pow_places num hden)
  have hsucc := roundQuotient_le_succ num (den * 2 ^ places (num / den))
  refine ⟨by omega, or_iff_not_imp_left.2 fun hplaces => ?_⟩
  have hle : leadingBit ≤ num / (den * 2 ^ places (num / den)) :=
    (Nat.le_div_iff_mul_le hpos).2 (mul_two_pow_places_le num hden hplaces)
  exact hle.trans (div_le_roundQuotient _ _)

/-- The rounded significand of a count of units. -/
lemma roundQuotient_places (count : ℕ) :
    roundQuotient count (2 ^ places count) ≤ 2 * leadingBit ∧
      (places count = 0 ∨ leadingBit ≤ roundQuotient count (2 ^ places count)) := by
  have hone := roundQuotient_mul_places count Nat.one_pos
  rwa [Nat.div_one, Nat.one_mul] at hone

/-- The bits of a rounded quotient stand for it. -/
lemma unitsOf_quotientBits (num : ℕ) (hden : 0 < den) :
    unitsOf (quotientBits num den) = roundedQuotient num den :=
  unitsOf_place_mul_add (roundQuotient_mul_places num hden).1 (roundQuotient_mul_places num hden).2

/-- The bits of a rounded count stand for it. -/
lemma unitsOf_rawBits (count : ℕ) : unitsOf (rawBits count) = rounded count := by
  rw [← quotientBits_one, unitsOf_quotientBits count Nat.one_pos, roundedQuotient_one]

/-- A count that does not fit the significand is not rounded below the first one that does not. -/
lemma le_rounded (h : 2 * leadingBit ≤ count) : 2 * leadingBit ≤ rounded count := by
  have hplaces := places_ne_zero h
  have hpow : 2 ^ 1 ≤ 2 ^ places count := Nat.pow_le_pow_right Nat.two_pos (by omega)
  calc 2 * leadingBit = leadingBit * 2 ^ 1 := Nat.mul_comm _ _
    _ ≤ roundQuotient count (2 ^ places count) * 2 ^ places count :=
        Nat.mul_le_mul ((roundQuotient_places count).2.resolve_left hplaces) hpow

/-- A multiple of the unit in its last place is not changed by rounding. -/
lemma rounded_of_dvd (h : 2 ^ places count ∣ count) : rounded count = count := by
  obtain ⟨k, hk⟩ := h
  have hround : roundQuotient count (2 ^ places count) = k := by
    conv_rhs => rw [← roundQuotient_mul_self k (Nat.two_pow_pos (places count))]
    rw [Nat.mul_comm k, ← hk]
  rw [rounded, hround, Nat.mul_comm, ← hk]

/-- The places of a number of units are those of its bits. -/
lemma places_unitsOf (bits : ℕ) : places (unitsOf bits) = place bits := by
  rcases place_eq_zero_or bits with hplace | hle
  · rw [hplace]
    refine places_of_lt ?_
    rw [unitsOf_eq, hplace, Nat.pow_zero, Nat.mul_one]
    exact significand_lt bits
  · exact places_of_le (Nat.mul_le_mul_right _ hle)
      (Nat.mul_lt_mul_of_pos_right (significand_lt bits) (Nat.two_pow_pos _))

/-- A count that fits the significand is not rounded. -/
lemma rounded_of_lt (h : count < 2 * leadingBit) : rounded count = count := by
  refine rounded_of_dvd ?_
  rw [places_of_lt h, Nat.pow_zero]
  exact one_dvd count

/-- The bits of a double are found again from its units. -/
lemma rawBits_unitsOf (bits : ℕ) : rawBits (unitsOf bits) = bits := by
  rw [rawBits, places_unitsOf, unitsOf_eq, roundQuotient_mul_self _ (Nat.two_pow_pos _),
    place_mul_add_significand]

/-- A number of units has its own bits, up to those of infinity. -/
lemma nearestBits_unitsOf (bits : ℕ) : nearestBits (unitsOf bits) 1 = min bits infinityBits := by
  rw [nearestBits_one, rawBits_unitsOf]

/-- A number of units is not rounded. -/
lemma rounded_unitsOf (bits : ℕ) : rounded (unitsOf bits) = unitsOf bits := by
  rw [← unitsOf_rawBits, rawBits_unitsOf]

/-- Rounding twice is rounding once. -/
lemma rounded_rounded (count : ℕ) : rounded (rounded count) = rounded count := by
  rw [← unitsOf_rawBits count, rounded_unitsOf]

/-- A rounded number has the bits of the number. -/
lemma nearestBits_rounded (count : ℕ) : nearestBits (rounded count) 1 = nearestBits count 1 := by
  rw [nearestBits_one, nearestBits_one, ← unitsOf_rawBits count, rawBits_unitsOf]

/-- The units of a double are a multiple of the unit in the last place of a count, or they are so
small that the least significand in the place of the count lies between them. -/
lemma dvd_or_lt_of_unitsOf (count bits : ℕ) :
    2 ^ places count ∣ unitsOf bits ∨
      unitsOf bits < leadingBit * 2 ^ places count ∧ leadingBit * 2 ^ places count ≤ count := by
  rcases Nat.lt_or_ge (place bits) (places count) with hlt | hge
  · refine .inr ⟨?_, le_of_places_ne_zero (by omega)⟩
    calc unitsOf bits < 2 * leadingBit * 2 ^ place bits :=
          Nat.mul_lt_mul_of_pos_right (significand_lt bits) (Nat.two_pow_pos _)
      _ = leadingBit * 2 ^ (place bits + 1) := by rw [Nat.pow_succ]; ac_rfl
      _ ≤ leadingBit * 2 ^ places count :=
          Nat.mul_le_mul_left _ (Nat.pow_le_pow_right (by decide) hlt)
  · exact .inl ((Nat.pow_dvd_pow 2 hge).mul_left _)

/-- No double is nearer to a quotient of units than the rounded quotient. -/
lemma dist_roundedQuotient_le (num : ℕ) (hden : 0 < den) (bits : ℕ) :
    Nat.dist (roundedQuotient num den * den) num ≤ Nat.dist (unitsOf bits * den) num := by
  have hpos : 0 < den * 2 ^ places (num / den) := Nat.mul_pos hden (Nat.two_pow_pos _)
  rw [roundedQuotient, Nat.mul_assoc, Nat.mul_comm (2 ^ _)]
  rcases dvd_or_lt_of_unitsOf (num / den) bits with ⟨k, hk⟩ | ⟨hlt, hle⟩
  · rw [hk, Nat.mul_comm (2 ^ _), Nat.mul_assoc, Nat.mul_comm (2 ^ _)]
    exact dist_roundQuotient_le hpos k
  · -- the least significand in the place of the quotient is nearer
    have hnear : Nat.dist (roundQuotient num (den * 2 ^ places (num / den)) *
        (den * 2 ^ places (num / den))) num ≤
          Nat.dist (leadingBit * (den * 2 ^ places (num / den))) num :=
      dist_roundQuotient_le hpos leadingBit
    have hlt' := Nat.mul_lt_mul_of_pos_right hlt hden
    rw [Nat.le_div_iff_mul_le hden] at hle
    rw [Nat.mul_assoc, Nat.mul_comm (2 ^ _)] at hlt' hle
    unfold Nat.dist at hnear ⊢
    omega

/-- If another double is equally near, the significand of the rounded quotient is even. -/
lemma even_significand_quotientBits (hden : 0 < den) (hne : unitsOf bits ≠ roundedQuotient num den)
    (h : Nat.dist (unitsOf bits * den) num = Nat.dist (roundedQuotient num den * den) num) :
    significand (quotientBits num den) % 2 = 0 := by
  have hpos : 0 < den * 2 ^ places (num / den) := Nat.mul_pos hden (Nat.two_pow_pos _)
  obtain ⟨hle, hplaces⟩ := roundQuotient_mul_places num hden
  rw [roundedQuotient, Nat.mul_assoc, Nat.mul_comm (2 ^ _) den] at h
  have heven : roundQuotient num (den * 2 ^ places (num / den)) % 2 = 0 := by
    rcases dvd_or_lt_of_unitsOf (num / den) bits with ⟨k, hk⟩ | ⟨hlt, hge⟩
    · rw [Nat.mul_comm] at hk
      rw [hk, Nat.mul_assoc, Nat.mul_comm (2 ^ _) den] at h
      refine even_roundQuotient hpos (k := k) ?_ h
      rintro rfl
      exact hne hk
    · have hnear : Nat.dist (roundQuotient num (den * 2 ^ places (num / den)) *
          (den * 2 ^ places (num / den))) num ≤
            Nat.dist (leadingBit * (den * 2 ^ places (num / den))) num :=
        dist_roundQuotient_le hpos leadingBit
      have hlt' := Nat.mul_lt_mul_of_pos_right hlt hden
      rw [Nat.le_div_iff_mul_le hden] at hge
      rw [Nat.mul_assoc, Nat.mul_comm (2 ^ _)] at hlt' hge
      unfold Nat.dist at h hnear
      omega
  unfold quotientBits significand
  rw [leadingBit_eq] at *
  split <;> omega

/-- Shifting a count does not change how it is rounded. -/
lemma rounded_mul_two_pow (count j : ℕ) : rounded (count * 2 ^ j) = rounded count * 2 ^ j := by
  have hpos := Nat.two_pow_pos j
  rcases Nat.lt_or_ge count leadingBit with hlt | hge
  · have hself : rounded count = count := rounded_of_lt (by omega)
    have hplaces : places (count * 2 ^ j) ≤ j := by
      by_contra hgt
      have hne : places (count * 2 ^ j) ≠ 0 := by omega
      have hle := le_of_places_ne_zero hne
      have hpow : 2 ^ j ≤ 2 ^ places (count * 2 ^ j) := Nat.pow_le_pow_right (by decide) (by omega)
      have hmul := Nat.mul_le_mul_left leadingBit hpow
      have hless := Nat.mul_lt_mul_of_pos_right hlt hpos
      omega
    rw [hself]
    exact rounded_of_dvd ((Nat.pow_dvd_pow 2 hplaces).mul_left _)
  · have hlow : leadingBit * 2 ^ places count ≤ count := by
      by_cases hplaces : places count = 0
      · rw [hplaces, Nat.pow_zero, Nat.mul_one]
        exact hge
      · exact le_of_places_ne_zero hplaces
    have hplaces : places (count * 2 ^ j) = places count + j := by
      refine places_of_le ?_ ?_
      · rw [Nat.pow_add, ← Nat.mul_assoc]
        exact Nat.mul_le_mul_right _ hlow
      · rw [Nat.pow_add, ← Nat.mul_assoc]
        exact Nat.mul_lt_mul_of_pos_right (lt_two_pow_places count) hpos
    rw [rounded, hplaces, Nat.pow_add, roundQuotient_mul_right hpos, ← Nat.mul_assoc]
    rfl

/-! ## The largest double -/

/-- The rounded quotient is beyond a binade from half a unit in its last place before the end on. -/
lemma quotientBits_lt_iff (num : ℕ) (hden : 0 < den) (q : ℕ) :
    quotientBits num den < (q + 3) * leadingBit ↔
      num < (4 * leadingBit - 1) * (den * twoTo q) := by
  obtain ⟨hle, hplaces⟩ := roundQuotient_mul_places num hden
  have hhigh := lt_mul_two_pow_places num hden
  have hhalf : 0 < den * 2 ^ q := Nat.mul_pos hden (Nat.two_pow_pos q)
  rw [quotientBits, twoTo_eq, leadingBit_eq] at *
  rcases Nat.lt_trichotomy (places (num / den)) (q + 1) with hlt | heq | hgt
  · have hpow : den * 2 ^ places (num / den) ≤ den * 2 ^ q :=
      Nat.mul_le_mul_left den (Nat.pow_le_pow_right (by decide) (by omega))
    omega
  · have hpow : den * 2 ^ places (num / den) = 2 * (den * 2 ^ q) := by
      rw [heq, Nat.pow_succ', Nat.mul_left_comm]
    obtain ⟨hbelow, habove, htie⟩ := roundQuotient_spec num (Nat.mul_pos hden (Nat.two_pow_pos _))
    rw [hpow] at hle hbelow habove htie ⊢
    rw [heq]
    generalize roundQuotient num (2 * (den * 2 ^ q)) = r at *
    generalize den * 2 ^ q = half at *
    -- the significand `2 ^ 53 - 1` is odd, and so a tie carries
    rcases Nat.lt_trichotomy r (2 * 4503599627370496 - 1) with hr | rfl | hr
    · have hmul := Nat.mul_le_mul_right (2 * half) (Nat.le_sub_one_of_lt hr)
      omega
    · omega
    · obtain rfl : r = 2 * 4503599627370496 := by omega
      omega
  · have hpow : den * 2 ^ (q + 2) ≤ den * 2 ^ places (num / den) :=
      Nat.mul_le_mul_left den (Nat.pow_le_pow_right (by decide) (by omega))
    have hlow := mul_two_pow_places_le num hden (by omega)
    rw [leadingBit_eq] at hlow
    rw [Nat.pow_add, ← Nat.mul_assoc] at hpow
    omega

/-- The number of units from which on a count is rounded to infinity: half a unit in the last place
behind the largest double. -/
def roundingLimit : ℕ := (4 * leadingBit - 1) * twoTo 2044

/-- A quotient of units is rounded to infinity from the limit on. -/
lemma nearestBits_lt_infinityBits_iff_of_pos (num : ℕ) (hden : 0 < den) :
    nearestBits num den < infinityBits ↔ num < roundingLimit * den := by
  rw [nearestBits_eq, min_lt_iff, or_iff_left (lt_irrefl _), roundingLimit, Nat.mul_assoc,
    Nat.mul_comm (twoTo 2044)]
  exact quotientBits_lt_iff num hden 2044

/-- A count is rounded to infinity from the limit on. -/
lemma nearestBits_lt_infinityBits_iff :
    nearestBits count 1 < infinityBits ↔ count < roundingLimit := by
  rw [nearestBits_lt_infinityBits_iff_of_pos count Nat.one_pos, Nat.mul_one]

/-- From the limit on there is only infinity. -/
lemma nearestBits_of_roundingLimit_le (h : roundingLimit ≤ count) :
    nearestBits count 1 = infinityBits := by
  rw [← Nat.not_lt, ← nearestBits_lt_infinityBits_iff, Nat.not_lt] at h
  exact Nat.le_antisymm (nearestBits_le count 1) h

/-- The units that the bits of infinity would stand for are past the limit. -/
lemma roundingLimit_le_unitsOf : roundingLimit ≤ unitsOf infinityBits := by
  rw [← Nat.not_lt, ← nearestBits_lt_infinityBits_iff, nearestBits_unitsOf, Nat.min_self]
  exact Nat.lt_irrefl _

end Reckon.Binary64
