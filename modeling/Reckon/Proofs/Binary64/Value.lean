import Reckon.Proofs.Binary64.Arithmetic

/-!
# The numbers that doubles stand for

A finite double stands for its signed significand, times two to the power of its exponent (`value`).
`IsNearest` says which double is to be put for a number that is not negative, in terms of these
values alone.  There is only one (`IsNearest.unique`), and for a quotient it is the double that
`nearest` finds (`isNearest_nearest`).  For a natural number it is the double that `ofNat` makes
(`isNearest_ofNat`), which stands for the number itself if that fits the significand
(`represents_ofNat`).
-/

namespace Reckon.Binary64

variable {x y : Float} {bits num den n : ℕ} {q : ℚ}

/-- The number that a double stands for.  Infinities and what is not a number count as zero. -/
def value (x : Float) : ℚ :=
  match x.toModel.unpack with
  | .finite sign significand exponent _ => (sign.apply significand : ℚ) * 2 ^ exponent
  | _ => 0

/-- A double is finite if its magnitude bits are less than those of infinity. -/
lemma isFinite_iff (x : Float) : isFinite x = true ↔ magnitudeBits x < infinityBits :=
  decide_eq_true_iff

lemma cast_one : (one : ℚ) = 2 ^ 1074 := by
  rw [one_eq, Nat.cast_pow]
  rfl

lemma cast_one_pos : (0 : ℚ) < one := by
  rw [cast_one]
  positivity

/-- A sign that is applied to a number is the sign of the number. -/
lemma cast_apply_signOf (negative : Bool) (n : ℕ) :
    ((signOf negative).apply n : ℚ) = if negative then -(n : ℚ) else n := by
  cases negative with
  | false => rfl
  | true => exact Int.cast_neg _

/-- A finite double is a whole multiple of the least positive one. -/
lemma value_eq (h : isFinite x = true) :
    value x = (if signBit x then -(units x : ℚ) else units x) / one := by
  rw [isFinite_iff] at h
  unfold value
  rcases Nat.eq_zero_or_pos (magnitudeBits x) with hzero | hpos
  · rw [unpack_of_eq_zero hzero, units, hzero, unitsOf_zero, Nat.cast_zero, neg_zero, ite_self,
      zero_div]
  · obtain ⟨h', hunpack⟩ := unpack_of_lt hpos h
    rw [hunpack, units, unitsOf_eq, cast_one]
    dsimp only
    rw [cast_apply_signOf, zpow_sub₀ two_ne_zero, zpow_natCast, zpow_ofNat, Nat.cast_mul,
      Nat.cast_pow, Nat.cast_two]
    split
    · rw [← neg_mul, mul_div_assoc]
    · rw [mul_div_assoc]

/-! ## The nearest double -/

/-- The largest finite double and half a unit in its last place. -/
def overflowLimit : ℚ := (2 ^ 53 - 1) * 2 ^ 971 + 2 ^ 970

/-- Whether a double is the one nearest to a number that is not negative: a finite one before the
limit, such that no other finite double is nearer, and the significand is even if another one is
equally near; and infinity from the limit on. -/
structure IsNearest (x : Float) (q : ℚ) : Prop where
  isFinite : q < overflowLimit → isFinite x = true ∧ signBit x = false
  dist_le : q < overflowLimit → ∀ y, Binary64.isFinite y = true → |value x - q| ≤ |value y - q|
  even : q < overflowLimit → ∀ y, Binary64.isFinite y = true → value y ≠ value x →
    |value y - q| = |value x - q| → significand (magnitudeBits x) % 2 = 0
  eq_infinity : overflowLimit ≤ q → x = ofMagnitudeBits false infinityBits

/-- The limit for rounding is the limit for overflow, counted in units. -/
lemma cast_roundingLimit : (roundingLimit : ℚ) = overflowLimit * one := by
  have hhalf : (2 : ℚ) ^ 971 = 2 * 2 ^ 970 := pow_succ' 2 970
  have hpow : (2 : ℚ) ^ 2044 = 2 ^ 970 * 2 ^ 1074 := pow_add 2 970 1074
  have hleading : ((4 * leadingBit - 1 : ℕ) : ℚ) = 2 ^ 54 - 1 := by
    rw [leadingBit_eq]
    norm_num
  rw [roundingLimit, overflowLimit, cast_one, Nat.cast_mul, hleading, twoTo_eq, Nat.cast_pow,
    Nat.cast_two, hhalf, hpow]
  generalize (2 : ℚ) ^ 970 = a
  generalize (2 : ℚ) ^ 1074 = b
  ring

/-- A quotient is before the limit if its units are. -/
lemma div_lt_overflowLimit_iff (num : ℕ) (hden : 0 < den) :
    (num / den : ℚ) < overflowLimit ↔ num * one < roundingLimit * den := by
  have hden' : (0 : ℚ) < den := Nat.cast_pos.2 hden
  rw [div_lt_iff₀ hden', ← mul_lt_mul_iff_of_pos_right cast_one_pos, mul_right_comm,
    ← cast_roundingLimit, ← Nat.cast_mul, ← Nat.cast_mul, Nat.cast_lt]

/-- The distance of two natural numbers is that of the rational numbers. -/
lemma cast_dist (a b : ℕ) : ((Nat.dist a b : ℕ) : ℚ) = |(a : ℚ) - b| := by
  rcases Nat.le_total a b with hle | hle
  · rw [Nat.dist_eq_sub_of_le hle, Nat.cast_sub hle, abs_sub_comm, abs_of_nonneg]
    exact sub_nonneg.2 (Nat.cast_le.2 hle)
  · rw [Nat.dist_eq_sub_of_le_right hle, Nat.cast_sub hle, abs_of_nonneg]
    exact sub_nonneg.2 (Nat.cast_le.2 hle)

/-- The distance between a finite double and a quotient, counted in parts of units. -/
lemma abs_value_sub_div (h : isFinite x = true) (num : ℕ) (hden : 0 < den) : |value x - num / den| =
    ((if signBit x then units x * den + num * one
      else Nat.dist (units x * den) (num * one) : ℕ) : ℚ) / (one * den) := by
  have hden' : (den : ℚ) ≠ 0 := Nat.cast_ne_zero.2 hden.ne'
  have hone : (one : ℚ) ≠ 0 := cast_one_pos.ne'
  have hpos : (0 : ℚ) < one * den := mul_pos cast_one_pos (Nat.cast_pos.2 hden)
  rw [value_eq h, div_sub_div _ _ hone hden', abs_div, abs_of_pos hpos, mul_comm (one : ℚ) num]
  congr 1
  split
  · have hsum : (0 : ℚ) ≤ units x * den + num * one :=
      add_nonneg (mul_nonneg (Nat.cast_nonneg _) (Nat.cast_nonneg _))
        (mul_nonneg (Nat.cast_nonneg _) cast_one_pos.le)
    rw [neg_mul, ← neg_add', abs_neg, abs_of_nonneg hsum, Nat.cast_add, Nat.cast_mul, Nat.cast_mul]
  · rw [cast_dist, Nat.cast_mul, Nat.cast_mul]

/-- The number of a double that is not negative. -/
lemma value_ofMagnitudeBits (h : bits < infinityBits) :
    value (ofMagnitudeBits false bits) = (unitsOf bits : ℚ) / one := by
  have hbits := magnitudeBits_ofMagnitudeBits false h.le
  rw [value_eq ((isFinite_iff _).2 (hbits.symm ▸ h)), signBit_ofMagnitudeBits false h.le, units,
    hbits, if_neg Bool.false_ne_true]

/-- What `nearestBits` finds before the limit stands for the rounded quotient. -/
lemma nearestBits_eq_quotientBits (hden : 0 < den) (h : num < roundingLimit * den) :
    nearestBits num den = quotientBits num den ∧ quotientBits num den < infinityBits := by
  rw [← nearestBits_lt_infinityBits_iff_of_pos num hden, nearestBits_eq, min_lt_iff,
    or_iff_left (lt_irrefl _)] at h
  exact ⟨(nearestBits_eq num den).trans (min_eq_left h.le), h⟩

/-- The double nearest to a quotient, before the limit. -/
lemma nearest_eq_of_lt (hden : 0 < den) (h : num * one < roundingLimit * den) :
    nearest num den = ofMagnitudeBits false (quotientBits (num * one) den) := by
  rw [nearest, (nearestBits_eq_quotientBits hden h).1]

/-- The units of the double nearest to a quotient are those of the rounded quotient. -/
lemma units_nearest (hden : 0 < den) (h : num * one < roundingLimit * den) :
    units (nearest num den) = roundedQuotient (num * one) den := by
  rw [nearest_eq_of_lt hden h,
    units_ofMagnitudeBits false (nearestBits_eq_quotientBits hden h).2.le,
    unitsOf_quotientBits _ hden]

/-- The double nearest to a quotient is finite before the limit. -/
lemma isFinite_nearest_iff (hden : 0 < den) :
    isFinite (nearest num den) = true ↔ num * one < roundingLimit * den := by
  rw [← nearestBits_lt_infinityBits_iff_of_pos _ hden, isFinite_iff, nearest,
    magnitudeBits_ofMagnitudeBits false (nearestBits_le _ _)]

/-- Past the limit there is only infinity. -/
lemma nearest_of_roundingLimit_mul_le (hden : 0 < den) (h : roundingLimit * den ≤ num * one) :
    nearest num den = ofMagnitudeBits false infinityBits := by
  rw [← Nat.not_lt, ← nearestBits_lt_infinityBits_iff_of_pos _ hden, Nat.not_lt] at h
  rw [nearest, Nat.le_antisymm (nearestBits_le _ _) h]

/-- The double nearest to a quotient is not negative. -/
lemma signBit_nearest (num den : ℕ) : signBit (nearest num den) = false :=
  signBit_ofMagnitudeBits false (nearestBits_le _ _)

/-- A natural number is a quotient by one. -/
lemma ofNat_eq_nearest (n : ℕ) : ofNat n = nearest n 1 := rfl

/-- The units of the double nearest to a natural number. -/
lemma units_ofNat (h : n * one < roundingLimit) : units (ofNat n) = rounded (n * one) := by
  rw [ofNat_eq_nearest, units_nearest Nat.one_pos (by rwa [Nat.mul_one]), roundedQuotient_one]

/-- The double nearest to a natural number is finite before the limit. -/
lemma isFinite_ofNat_iff : isFinite (ofNat n) = true ↔ n * one < roundingLimit := by
  rw [ofNat_eq_nearest, isFinite_nearest_iff Nat.one_pos, Nat.mul_one]

/-- Past the limit the double of a natural number is infinity. -/
lemma ofNat_of_roundingLimit_le (h : roundingLimit ≤ n * one) :
    ofNat n = ofMagnitudeBits false infinityBits :=
  nearest_of_roundingLimit_mul_le Nat.one_pos (by rwa [Nat.mul_one])

/-- Zero is the double of the number zero. -/
lemma zero_eq_ofNat : (0 : Float) = ofNat 0 := by
  rw [ofNat_eq, Nat.zero_mul, ofUnits, nearestBits_zero]
  decide

/-- The double of a natural number is not negative. -/
lemma signBit_ofNat (n : ℕ) : signBit (ofNat n) = false := signBit_nearest n 1

/-- Natural numbers before the limit with the same double are rounded alike. -/
lemma rounded_eq_of_ofNat_eq {m : ℕ} (hm : m * one < roundingLimit) (h : ofNat m = ofNat n) :
    rounded m = rounded n := by
  have hn : n * one < roundingLimit := by
    rw [← isFinite_ofNat_iff, ← h, isFinite_ofNat_iff]
    exact hm
  have hunits := congrArg units h
  rw [units_ofNat hm, units_ofNat hn, rounded_mul_one, rounded_mul_one] at hunits
  exact Nat.eq_of_mul_eq_mul_right one_pos hunits

/-- A finite double that is as near to a quotient as the rounded quotient is, but not the same
number, has other units that are as near. -/
lemma dist_units_eq (hden : 0 < den) (h : num * one < roundingLimit * den)
    (hy : isFinite y = true) (hne : value y ≠ value (nearest num den))
    (htie : |value y - num / den| = |value (nearest num den) - num / den|) :
    units y ≠ roundedQuotient (num * one) den ∧ Nat.dist (units y * den) (num * one) =
      Nat.dist (roundedQuotient (num * one) den * den) (num * one) := by
  have hsign := signBit_nearest num den
  have hx := (isFinite_nearest_iff hden).2 h
  have hunits := units_nearest hden h
  have hpos : (one * den : ℚ) ≠ 0 := mul_ne_zero cast_one_pos.ne' (Nat.cast_ne_zero.2 hden.ne')
  rw [abs_value_sub_div hy num hden, abs_value_sub_div hx num hden, div_left_inj' hpos,
    Nat.cast_inj, hsign, if_neg Bool.false_ne_true, hunits] at htie
  rw [value_eq hy, value_eq hx, hsign, if_neg Bool.false_ne_true, hunits] at hne
  cases hnegative : signBit y with
  | false =>
    rw [hnegative, if_neg Bool.false_ne_true] at htie hne
    refine ⟨fun heq => hne ?_, htie⟩
    rw [heq]
  | true =>
    rw [hnegative, if_pos rfl] at htie hne
    -- a negative double can be as near only if both are zero
    have hzero := dist_roundedQuotient_le (num * one) hden 0
    rw [unitsOf_zero, Nat.zero_mul] at hzero
    have hproduct : units y * den = 0 := by
      unfold Nat.dist at htie hzero
      omega
    have hunits' : units y = 0 := (Nat.mul_eq_zero.1 hproduct).resolve_right hden.ne'
    rw [hunits'] at htie hne ⊢
    refine ⟨fun heq => hne ?_, ?_⟩
    · rw [← heq, Nat.cast_zero, neg_zero]
    · rw [Nat.zero_mul] at htie ⊢
      unfold Nat.dist at htie ⊢
      omega

/-- The double that is found for a quotient is the one nearest to it. -/
lemma isNearest_nearest (num : ℕ) (hden : 0 < den) : IsNearest (nearest num den) (num / den) where
  isFinite h := by
    rw [div_lt_overflowLimit_iff num hden] at h
    exact ⟨(isFinite_nearest_iff hden).2 h, signBit_nearest num den⟩
  dist_le h y hy := by
    rw [div_lt_overflowLimit_iff num hden] at h
    have hle : Nat.dist (roundedQuotient (num * one) den * den) (num * one) ≤
        if signBit y then units y * den + num * one
        else Nat.dist (units y * den) (num * one) := by
      have hdist : Nat.dist (roundedQuotient (num * one) den * den) (num * one) ≤
          Nat.dist (units y * den) (num * one) := dist_roundedQuotient_le _ hden _
      unfold Nat.dist at hdist ⊢
      split <;> omega
    have hpos : (0 : ℚ) ≤ one * den := mul_nonneg cast_one_pos.le (Nat.cast_nonneg den)
    rw [abs_value_sub_div hy num hden, abs_value_sub_div ((isFinite_nearest_iff hden).2 h) num hden,
      signBit_nearest, units_nearest hden h, if_neg Bool.false_ne_true]
    exact div_le_div_of_nonneg_right (Nat.cast_le.2 hle) hpos
  even h y hy hne htie := by
    rw [div_lt_overflowLimit_iff num hden] at h
    obtain ⟨hunits, hdist⟩ := dist_units_eq hden h hy hne htie
    rw [nearest_eq_of_lt hden h,
      magnitudeBits_ofMagnitudeBits false (nearestBits_eq_quotientBits hden h).2.le]
    exact even_significand_quotientBits hden hunits hdist
  eq_infinity h := by
    rw [← not_lt, div_lt_overflowLimit_iff num hden, not_lt] at h
    exact nearest_of_roundingLimit_mul_le hden h

/-- The double of a natural number is the one nearest to it. -/
lemma isNearest_ofNat (n : ℕ) : IsNearest (ofNat n) n := by
  have hone := isNearest_nearest n Nat.one_pos
  rwa [Nat.cast_one, div_one] at hone

/-! ## Uniqueness -/

/-- A significand is even if the bits are. -/
lemma significand_mod_two (bits : ℕ) : significand bits % 2 = bits % 2 := by
  unfold significand
  rw [leadingBit_eq]
  split <;> omega

/-- More bits stand for a larger number, up to infinity. -/
lemma value_strictMono {bits' : ℕ} (h : bits < bits') (h' : bits' < infinityBits) :
    value (ofMagnitudeBits false bits) < value (ofMagnitudeBits false bits') := by
  rw [value_ofMagnitudeBits (h.trans h'), value_ofMagnitudeBits h']
  exact div_lt_div_of_pos_right (Nat.cast_lt.2 (unitsOf_strictMono h)) cast_one_pos

/-- A number between two others is nearer to any number than one of them. -/
lemma abs_sub_lt_or_lt {a b c : ℚ} (hac : a < c) (hcb : c < b) (q : ℚ) :
    |c - q| < |a - q| ∨ |c - q| < |b - q| := by
  rcases le_total q c with hle | hle
  · right
    rw [abs_of_nonneg (by linarith), abs_of_nonneg (by linarith)]
    linarith
  · left
    rw [abs_of_nonpos (by linarith), abs_of_nonpos (by linarith)]
    linarith

namespace IsNearest

/-- Of two doubles nearest to one number neither is less. -/
lemma not_lt (hx : IsNearest x q) (hy : IsNearest y q) (hq : q < overflowLimit) :
    ¬magnitudeBits x < magnitudeBits y := by
  intro hlt
  obtain ⟨hfinite, hsign⟩ := hx.isFinite hq
  obtain ⟨hfinite', hsign'⟩ := hy.isFinite hq
  have hybits := (isFinite_iff y).1 hfinite'
  have hvalue : value x < value y := by
    rw [eq_ofMagnitudeBits hsign rfl, eq_ofMagnitudeBits hsign' rfl]
    exact value_strictMono hlt hybits
  have htie : |value x - q| = |value y - q| :=
    le_antisymm (hx.dist_le hq y hfinite') (hy.dist_le hq x hfinite)
  have heven := hx.even hq y hfinite' hvalue.ne' htie.symm
  have heven' := hy.even hq x hfinite hvalue.ne htie
  rw [significand_mod_two] at heven heven'
  -- A double between the two is nearer than both.
  have hbetween : magnitudeBits x + 1 < magnitudeBits y := by omega
  set z := ofMagnitudeBits false (magnitudeBits x + 1) with hz
  have hbelow : value x < value z := by
    rw [eq_ofMagnitudeBits hsign rfl]
    exact value_strictMono (Nat.lt_succ_self _) (hbetween.trans hybits)
  have habove : value z < value y := by
    rw [eq_ofMagnitudeBits hsign' rfl]
    exact value_strictMono hbetween hybits
  have hfinite'' : Binary64.isFinite z = true := by
    rw [isFinite_iff, hz, magnitudeBits_ofMagnitudeBits false (hbetween.trans hybits).le]
    exact hbetween.trans hybits
  have hnear := hx.dist_le hq z hfinite''
  have hnear' := hy.dist_le hq z hfinite''
  rcases abs_sub_lt_or_lt hbelow habove q with hless | hless
  · exact absurd hnear (not_le.2 hless)
  · exact absurd hnear' (not_le.2 hless)

/-- There is only one nearest double. -/
lemma unique (hx : IsNearest x q) (hy : IsNearest y q) : x = y := by
  rcases lt_or_ge q overflowLimit with hq | hq
  · have hbits : magnitudeBits x = magnitudeBits y :=
      Nat.le_antisymm (Nat.le_of_not_lt (hy.not_lt hx hq)) (Nat.le_of_not_lt (hx.not_lt hy hq))
    exact (eq_ofMagnitudeBits (hx.isFinite hq).2 hbits).trans
      (eq_ofMagnitudeBits (hy.isFinite hq).2 rfl).symm
  · rw [hx.eq_infinity hq, hy.eq_infinity hq]

end IsNearest

/-! ## Exact numbers -/

/-- Whether a double is a natural number. -/
structure Represents (x : Float) (n : ℕ) : Prop where
  isFinite : isFinite x = true
  signBit_eq : signBit x = false
  value_eq : value x = n

/-- A natural number that fits the significand is not rounded. -/
lemma represents_ofNat (h : n < 2 * leadingBit) : Represents (ofNat n) n := by
  have hrounded : rounded (n * one) = n * one := by rw [rounded_mul_one, rounded_of_lt h]
  have hlimit : n * one < roundingLimit := by
    have hone : one ≤ twoTo 2044 := twoTo_le_twoTo (by decide)
    have hleading : 2 * leadingBit ≤ 4 * leadingBit - 1 := by decide
    calc n * one < 2 * leadingBit * one := Nat.mul_lt_mul_of_pos_right h one_pos
      _ ≤ (4 * leadingBit - 1) * twoTo 2044 := Nat.mul_le_mul hleading hone
  refine ⟨isFinite_ofNat_iff.2 hlimit, signBit_ofNat n, ?_⟩
  rw [Binary64.value_eq (isFinite_ofNat_iff.2 hlimit), signBit_ofNat, if_neg Bool.false_ne_true,
    units_ofNat hlimit, hrounded, Nat.cast_mul, mul_div_cancel_right₀ _ cast_one_pos.ne']

end Reckon.Binary64
