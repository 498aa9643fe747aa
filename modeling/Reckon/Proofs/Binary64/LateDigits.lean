import Reckon.Proofs.Binary64.Value

/-!
# Late digits

A hexadecimal digit is late if it stands behind the first digits that do not fit the significand of
a double.  Digits that are accumulated in doubles are lost when they are late
(`rounded_mul_sixteen_add`). For almost all numbers this does no harm, since the late digits do not
change which double is nearest. They do so only if they are what tells the number from one that is
half way between two doubles, of which the smaller one has the even significand (`IsDecidedLate`,
`ofNat_head_eq_iff`).
-/

namespace Reckon.Binary64

variable {n p m t : ℕ}

/-- How many hexadecimal digits stand behind the first ones that do not fit the significand. -/
def lateDigits (n : ℕ) : ℕ := (n.log2 - 53) / 4

/-- The number that is left of a number without its late digits. -/
def head (n : ℕ) : ℕ := n / 16 ^ lateDigits n

/-- Whether a late digit decides how a number is rounded: without the late digits the number is half
way between two doubles of which the smaller one has the even significand, and the late digits are
not all zero. -/
def IsDecidedLate (n : ℕ) : Prop :=
  twoTo 128 ≤ n ∧ n < twoTo 1024 ∧
    2 * (head n % (2 * 2 ^ places (head n))) = 2 ^ places (head n) ∧ n % 16 ^ lateDigits n ≠ 0

instance : DecidablePred IsDecidedLate := fun n =>
  inferInstanceAs (Decidable (twoTo 128 ≤ n ∧ n < twoTo 1024 ∧
    2 * (head n % (2 * 2 ^ places (head n))) = 2 ^ places (head n) ∧ n % 16 ^ lateDigits n ≠ 0))

lemma sixteen_pow (m : ℕ) : 16 ^ m = 2 ^ (4 * m) := (Nat.pow_mul 2 4 m).symm

/-- A digit less than the base leaves the order of what stands before it. -/
lemma mul_add_lt {k : ℕ} (ht : t < k) (h : p < n) : p * k + t < n * k := by
  calc p * k + t < (p + 1) * k := by rw [Nat.succ_mul]; omega
    _ ≤ n * k := Nat.mul_le_mul_right k h

/-- The late digits are found from the number alone. -/
lemma lateDigits_eq (hp : 2 * leadingBit ≤ p) (hp' : p < 32 * leadingBit) (ht : t < 16 ^ m) :
    lateDigits (p * 16 ^ m + t) = m := by
  have hlow : 2 ^ (53 + 4 * m) ≤ p * 16 ^ m + t := by
    rw [Nat.pow_add, ← sixteen_pow]
    exact (Nat.mul_le_mul_right _ hp).trans (Nat.le_add_right _ _)
  have hhigh : p * 16 ^ m + t < 2 ^ (57 + 4 * m) := by
    rw [Nat.pow_add, ← sixteen_pow]
    exact mul_add_lt ht hp'
  have hne : p * 16 ^ m + t ≠ 0 := by
    have hpos := Nat.two_pow_pos (53 + 4 * m)
    omega
  rw [← Nat.le_log2 hne] at hlow
  rw [← Nat.log2_lt hne] at hhigh
  unfold lateDigits
  omega

/-- The head of a number is what stands before its late digits. -/
lemma head_eq (hp : 2 * leadingBit ≤ p) (hp' : p < 32 * leadingBit) (ht : t < 16 ^ m) :
    head (p * 16 ^ m + t) = p := by
  rw [head, lateDigits_eq hp hp' ht, mul_add_div_of_lt ht]

/-- The place of a number does not depend on its late digits. -/
lemma places_mul_add (hp : 2 * leadingBit ≤ p) (ht : t < 16 ^ m) :
    places (p * 16 ^ m + t) = places p + 4 * m := by
  have hplaces := places_ne_zero hp
  refine places_of_le ?_ ?_
  · rw [Nat.pow_add, ← sixteen_pow, ← Nat.mul_assoc]
    exact (Nat.mul_le_mul_right _ (le_of_places_ne_zero hplaces)).trans (Nat.le_add_right _ _)
  · rw [Nat.pow_add, ← sixteen_pow, ← Nat.mul_assoc]
    exact mul_add_lt ht (lt_two_pow_places p)

/-- Without its late digits a number is rounded as it is with them, unless they decide. -/
lemma rounded_mul_add (hp : 2 * leadingBit ≤ p) (ht : t < 16 ^ m) :
    rounded (p * 16 ^ m + t) = rounded (p * 16 ^ m) +
      if 2 * (p % (2 * 2 ^ places p)) = 2 ^ places p ∧ t ≠ 0 then 2 ^ places p * 16 ^ m else 0 := by
  obtain ⟨k, hk⟩ := Nat.exists_eq_succ_of_ne_zero (places_ne_zero hp)
  have hpos : 0 < 16 ^ m := Nat.pow_pos (by decide)
  have hplaces := places_mul_add hp ht
  have hplaces' := places_mul_add hp hpos
  rw [Nat.add_zero] at hplaces'
  have hden : 2 ^ (places p + 4 * m) = 2 * 2 ^ k * 16 ^ m := by
    rw [hk, Nat.pow_add, ← sixteen_pow, Nat.pow_succ']
  have hround := roundQuotient_mul_add_of_lt p (Nat.two_pow_pos k) ht
  have hround' : roundQuotient (p * 16 ^ m) (2 * 2 ^ k * 16 ^ m) = roundQuotient p (2 * 2 ^ k) :=
    roundQuotient_mul_right hpos
  rw [rounded, rounded, hplaces, hplaces', hden, hround, hround', Nat.add_mul, hk, Nat.pow_succ',
    ite_mul, Nat.one_mul, Nat.zero_mul]
  simp only [Nat.mul_right_inj two_ne_zero]

/-- The limit is that of the largest significand and the largest place. -/
lemma roundingLimit_eq : roundingLimit = (4 * leadingBit - 1) * twoTo 970 * one := by
  rw [roundingLimit, one, Nat.mul_assoc (4 * leadingBit - 1), ← twoTo_add]

/-- A number with a larger place than the largest double is past the limit. -/
lemma roundingLimit_le (h : 972 ≤ places n) : roundingLimit ≤ n * one := by
  have hpow : twoTo 972 ≤ 2 ^ places n := twoTo_le_twoTo h
  have htwoTo : twoTo 972 = 2 * twoTo 971 := twoTo_succ 971
  have htwoTo' : twoTo 971 = 2 * twoTo 970 := twoTo_succ 970
  have hle : leadingBit * (2 * (2 * twoTo 970)) ≤ n := by
    rw [← htwoTo', ← htwoTo]
    exact (Nat.mul_le_mul_left _ hpow).trans (le_of_places_ne_zero (by omega))
  rw [roundingLimit_eq]
  refine Nat.mul_le_mul_right _ (le_trans ?_ hle)
  rw [leadingBit_eq]
  omega

/-- A tie that is rounded down is not at the end of its range. -/
lemma two_mul_le (htie : 2 * (p % (2 * 2 ^ places p)) = 2 ^ places p) :
    2 * p ≤ (4 * leadingBit - 3) * 2 ^ places p := by
  have hpos := Nat.two_pow_pos (places p)
  have hdiv := Nat.div_add_mod p (2 * 2 ^ places p)
  have hquotient : p / (2 * 2 ^ places p) < leadingBit := by
    rw [Nat.div_lt_iff_lt_mul (by omega), ← Nat.mul_assoc, Nat.mul_comm leadingBit]
    exact lt_two_pow_places p
  have hmul := Nat.mul_le_mul_left (2 ^ places p) (Nat.le_sub_one_of_lt hquotient)
  rw [Nat.mul_assoc 2] at hdiv
  rw [leadingBit_eq] at *
  omega

/-- A number half way above an even significand in the place of the largest double, or in a smaller
one, is not past the limit. -/
lemma lt_roundingLimit (htie : 2 * (p % (2 * 2 ^ places p)) = 2 ^ places p)
    (hplaces : places p + 4 * m ≤ 971) : p * 16 ^ m * one < roundingLimit := by
  have hdouble := two_mul_le htie
  have hpow : 2 ^ places p * 16 ^ m ≤ 2 * twoTo 970 := by
    rw [sixteen_pow, ← Nat.pow_add]
    exact (twoTo_le_twoTo hplaces).trans_eq (twoTo_succ 970)
  have hproduct : 2 * (p * 16 ^ m) ≤ (4 * leadingBit - 3) * (2 * twoTo 970) := by
    calc 2 * (p * 16 ^ m) = 2 * p * 16 ^ m := (Nat.mul_assoc _ _ _).symm
      _ ≤ (4 * leadingBit - 3) * 2 ^ places p * 16 ^ m := Nat.mul_le_mul_right _ hdouble
      _ ≤ (4 * leadingBit - 3) * (2 * twoTo 970) := by
          rw [Nat.mul_assoc]
          exact Nat.mul_le_mul_left _ hpow
  have hpos := twoTo_pos 970
  rw [roundingLimit_eq]
  refine Nat.mul_lt_mul_of_pos_right ?_ one_pos
  rw [leadingBit_eq] at *
  omega

/-- Without its late digits a number has the double nearest to it, unless they decide. -/
lemma ofNat_head_eq_iff (hp : 2 * leadingBit ≤ p) (hp' : p < 32 * leadingBit) (ht : t < 16 ^ m)
    (h : twoTo 128 ≤ p * 16 ^ m + t) :
    ofNat (p * 16 ^ m) = ofNat (p * 16 ^ m + t) ↔ ¬IsDecidedLate (p * 16 ^ m + t) := by
  have hround := rounded_mul_add hp ht
  have hmod : (p * 16 ^ m + t) % 16 ^ m = t := Nat.mul_add_mod_of_lt ht
  have hplaces := places_mul_add hp ht
  rw [IsDecidedLate, head_eq hp hp' ht, lateDigits_eq hp hp' ht, hmod]
  by_cases htie : 2 * (p % (2 * 2 ^ places p)) = 2 ^ places p ∧ t ≠ 0
  · rw [if_pos htie] at hround
    constructor
    · rintro heq ⟨-, hlt, -, -⟩
      have hle : places p + 4 * m ≤ 971 := by
        rw [← hplaces]
        exact places_le_of_lt hlt
      have hsame := rounded_eq_of_ofNat_eq (lt_roundingLimit htie.1 hle) heq
      have hpos : 0 < 2 ^ places p * 16 ^ m :=
        Nat.mul_pos (Nat.two_pow_pos _) (Nat.pow_pos (by decide))
      omega
    · intro hnot
      have hge : twoTo (52 + 972) ≤ p * 16 ^ m + t := by
        by_contra hlt
        exact hnot ⟨h, Nat.lt_of_not_le hlt, htie⟩
      have hlate := le_places_of_le hge
      have hplaces' := places_mul_add hp (Nat.pow_pos (by decide) : 0 < 16 ^ m)
      have hlate' : 972 ≤ places (p * 16 ^ m) := by
        rw [Nat.add_zero] at hplaces'
        omega
      rw [ofNat_of_roundingLimit_le (roundingLimit_le hlate),
        ofNat_of_roundingLimit_le (roundingLimit_le hlate')]
  · rw [if_neg htie, Nat.add_zero] at hround
    exact ⟨fun _ hlate => htie hlate.2.2, fun _ => ofNat_congr hround.symm⟩

/-- A rounded number that needs all 53 digits loses the digit behind them. -/
lemma rounded_mul_sixteen_add {d : ℕ} (h : 2 * leadingBit ≤ rounded n) (hd : d < 16) :
    rounded (rounded n * 16 + d) = rounded n * 16 := by
  set bits := rawBits n with hbits
  set p := place bits with hp
  set s := significand bits with hs
  have hunits : rounded n = s * 2 ^ p := by rw [← unitsOf_rawBits, unitsOf_eq]
  have hlt : s < 2 * leadingBit := significand_lt bits
  have hplace : p ≠ 0 := by
    intro hzero
    rw [hunits, hzero, Nat.pow_zero] at h
    omega
  have hleading : leadingBit ≤ s := (place_eq_zero_or bits).resolve_left hplace
  have hthirtyTwo : 2 ^ 5 ≤ 2 ^ (p + 4) := Nat.pow_le_pow_right Nat.two_pos (by omega)
  have hproduct : rounded n * 16 = s * 2 ^ (p + 4) := by
    rw [hunits, Nat.pow_add, Nat.mul_assoc]
  have hplaces : places (s * 2 ^ (p + 4) + d) = p + 4 := by
    refine places_of_le ?_ ?_
    · exact (Nat.mul_le_mul_right _ hleading).trans (Nat.le_add_right _ _)
    · calc s * 2 ^ (p + 4) + d < (s + 1) * 2 ^ (p + 4) := by rw [Nat.succ_mul]; omega
        _ ≤ 2 * leadingBit * 2 ^ (p + 4) := Nat.mul_le_mul_right _ hlt
  rw [hproduct, rounded, hplaces, roundQuotient_mul_add (by omega)]

end Reckon.Binary64
