import Reckon.Proofs.Binary64.Value
import Reckon.Proofs.Source.Numeral

/-!
# Decimal literals

A decimal literal stands for its digits times a power of ten.  The double that is made of the two is
the nearest one, however large or small the number is (`isNearest_scaled`): where nothing is
divided, the number is past every double or below half of the least one.

Of an exponent only as many digits count as reach 65536 (`Counts`).  The literals of up to 65000
characters have the same double as if all of them did (`Counts.scaled_eq`).
-/

namespace Reckon

open Binary64

variable {m n places : ℕ} {e k : ℤ}

/-! ## Powers of ten -/

namespace Binary64

lemma cast_tenTo (n : ℕ) : ((tenTo n : ℕ) : ℚ) = 10 ^ n := by
  unfold tenTo
  norm_cast

lemma tenTo_pos (n : ℕ) : 0 < tenTo n := Nat.pow_pos (by decide)

lemma tenTo_add (m n : ℕ) : tenTo (m + n) = tenTo m * tenTo n := Nat.pow_add 10 m n

lemma tenTo_le_tenTo (h : m ≤ n) : tenTo m ≤ tenTo n := Nat.pow_le_pow_right (by decide) h

/-- A power of ten is a quotient of natural numbers. -/
lemma zpow_ten (p : ℤ) : (10 : ℚ) ^ p = tenTo p.toNat / tenTo (-p).toNat := by
  rw [cast_tenTo, cast_tenTo]
  rcases le_total 0 p with hp | hp
  · obtain ⟨n, rfl⟩ := Int.eq_ofNat_of_zero_le hp
    rw [Int.toNat_natCast, Int.toNat_of_nonpos (by omega), pow_zero, div_one, zpow_natCast]
  · obtain ⟨n, rfl⟩ : ∃ n : ℕ, p = -n := ⟨(-p).toNat, by omega⟩
    rw [neg_neg, Int.toNat_natCast, Int.toNat_of_nonpos hp, pow_zero, one_div, zpow_neg,
      zpow_natCast]

/-- A number with more than `n` digits reaches the power of ten. -/
lemma tenTo_le (hn : 0 < n) (h : n < m.repr.length) : tenTo n ≤ m := by
  rw [← Nat.not_le, Nat.length_repr_le_iff hn, Nat.not_lt] at h
  exact h

/-- A number with up to `n` digits does not reach the power of ten. -/
lemma lt_tenTo (hn : 0 < n) (h : m.repr.length ≤ n) : m < tenTo n :=
  (Nat.length_repr_le_iff hn).1 h

/-- A number that is not zero reaches the power of ten that its first digit counts. -/
lemma tenTo_length_sub_one_le (hm : 0 < m) : tenTo (m.repr.length - 1) ≤ m := by
  rcases Nat.eq_zero_or_pos (m.repr.length - 1) with hzero | hpos
  · rw [hzero]
    exact hm
  · exact tenTo_le hpos (by omega)

/-- A quotient below half of the least positive double is rounded to zero. -/
lemma nearest_eq_zero {num den : ℕ} (h : 2 * (num * one) < den) : nearest num den = 0 := by
  have hlow : num * one / den = 0 := Nat.div_eq_of_lt (by omega)
  have hrest : num * one % den = num * one := Nat.mod_eq_of_lt (by omega)
  have hbits : nearestBits (num * one) den = 0 := by
    have hround : roundQuotient (num * one) den = 0 := by
      unfold roundQuotient
      dsimp only
      rw [hlow, hrest, if_pos h]
    have hlog : Nat.log2 0 - 52 = 0 := rfl
    have htwoTo : twoTo 0 = 1 := rfl
    unfold nearestBits
    rw [hlow, hlog]
    dsimp only
    rw [htwoTo, Nat.mul_one, hround, Nat.zero_mul, Nat.zero_add, Nat.zero_min]
  rw [nearest, hbits]
  decide

end Binary64

namespace Numeral

/-- Where nothing is divided, the quotient would have come out the same. -/
lemma scaled_eq (m : ℕ) (e : ℤ) : scaled m e = nearest (m * tenTo e.toNat) (tenTo (-e).toNat) := by
  unfold scaled
  rcases Nat.eq_zero_or_pos m with rfl | hm
  · rw [if_pos rfl, Nat.zero_mul, nearest_eq_zero]
    rw [Nat.zero_mul]
    exact tenTo_pos _
  rw [if_neg hm.ne']
  dsimp only
  split
  · rename_i hlarge
    have hlimit : roundingLimit ≤ tenTo 310 * one := by decide +kernel
    have hpow : tenTo 310 * tenTo (-e).toNat ≤ tenTo (m.repr.length - 1) * tenTo e.toNat := by
      rw [← tenTo_add, ← tenTo_add]
      exact tenTo_le_tenTo (by omega)
    refine (nearest_of_roundingLimit_mul_le (tenTo_pos _) ?_).symm
    calc roundingLimit * tenTo (-e).toNat
        ≤ tenTo 310 * one * tenTo (-e).toNat := Nat.mul_le_mul_right _ hlimit
      _ = tenTo 310 * tenTo (-e).toNat * one := Nat.mul_right_comm ..
      _ ≤ tenTo (m.repr.length - 1) * tenTo e.toNat * one := Nat.mul_le_mul_right _ hpow
      _ ≤ m * tenTo e.toNat * one :=
        Nat.mul_le_mul_right _ (Nat.mul_le_mul_right _ (tenTo_length_sub_one_le hm))
  split
  · rename_i hsmall
    have hhalf : 2 * one ≤ tenTo 330 := by decide +kernel
    have hlt : m < tenTo (m.repr.length + 1) := lt_tenTo (Nat.succ_pos _) (Nat.le_succ _)
    have hpow : tenTo (m.repr.length + 1) * tenTo 330 ≤ tenTo (-e).toNat := by
      rw [← tenTo_add]
      exact tenTo_le_tenTo (by omega)
    have hten : tenTo 0 = 1 := rfl
    refine (nearest_eq_zero ?_).symm
    rw [Int.toNat_of_nonpos (by omega), hten, Nat.mul_one]
    calc 2 * (m * one) = m * (2 * one) := Nat.mul_left_comm 2 m one
      _ < tenTo (m.repr.length + 1) * (2 * one) :=
        Nat.mul_lt_mul_of_pos_right hlt (Nat.mul_pos Nat.two_pos Binary64.one_pos)
      _ ≤ tenTo (m.repr.length + 1) * tenTo 330 := Nat.mul_le_mul_left _ hhalf
      _ ≤ tenTo (-e).toNat := hpow
  · rfl

/-- The double of digits and a power of ten is the one nearest to their product. -/
lemma isNearest_scaled (m : ℕ) (e : ℤ) : IsNearest (scaled m e) (m * 10 ^ e) := by
  have hnearest := isNearest_nearest (m * tenTo e.toNat) (tenTo_pos (-e).toNat)
  rwa [← scaled_eq, Nat.cast_mul, mul_div_assoc, ← zpow_ten] at hnearest

/-- The double of a decimal number without a fraction and an exponent is the one nearest to it. -/
lemma scaled_zero (n : ℕ) : scaled n 0 = ofNat n := by
  have hten : tenTo 0 = 1 := rfl
  rw [scaled_eq, neg_zero, Int.toNat_zero, hten, Nat.mul_one, ofNat]

end Numeral

/-! ## Exponents -/

/-- The number that an exponent stands for. -/
def Exponent.number (x : Exponent) : ℤ :=
  if x.sign = some '-' then -numberOf 10 x.digits else numberOf 10 x.digits

/-- Whether an exponent is counted as this: all of it, or no more of its digits than are needed to
reach 65536. -/
structure Counts (exponent counted : ℤ) : Prop where
  lt : counted.natAbs < 655360
  exists_late : ∃ late : ℕ, counted = exponent.tdiv (10 ^ late) ∧
    (late = 0 ∨ 65536 ≤ counted.natAbs)

namespace Counts

/-- Without an exponent there is nothing to count. -/
lemma zero : Counts 0 0 := ⟨by decide, 0, rfl, .inl rfl⟩

/-- An exponent without its late digits is as much smaller. -/
lemma natAbs_eq {late : ℕ} (h : k = e.tdiv (10 ^ late)) : k.natAbs = e.natAbs / 10 ^ late := by
  rw [h, Int.natAbs_tdiv, Int.natAbs_pow]
  rfl

/-- What is counted of an exponent is determined. -/
lemma unique {k' : ℤ} (h : Counts e k) (h' : Counts e k') : k = k' := by
  -- with more digits left out, the other count is ten times as large
  have hle : ∀ {k k' : ℤ} {late late' : ℕ}, k.natAbs < 655360 → k = e.tdiv (10 ^ late) →
      k' = e.tdiv (10 ^ late') → (late' = 0 ∨ 65536 ≤ k'.natAbs) → late' ≤ late := by
    intro k k' late late' hlt hk hk' hor
    by_contra hmore
    obtain ⟨more, rfl⟩ : ∃ more, late' = late + (1 + more) := ⟨late' - (late + 1), by omega⟩
    have hreach : 65536 ≤ k'.natAbs := hor.resolve_left (by omega)
    have hdiv : k'.natAbs = k.natAbs / 10 ^ (1 + more) := by
      rw [natAbs_eq hk', natAbs_eq hk, Nat.div_div_eq_div_mul, ← Nat.pow_add]
    have hmul : k'.natAbs * 10 ^ (1 + more) ≤ k.natAbs := hdiv ▸ Nat.div_mul_le_self _ _
    have hten : 10 ≤ 10 ^ (1 + more) := Nat.le_self_pow (by omega) 10
    have hproduct := Nat.mul_le_mul hreach hten
    omega
  obtain ⟨hlt, late, hk, hor⟩ := h
  obtain ⟨hlt', late', hk', hor'⟩ := h'
  obtain rfl : late = late' := Nat.le_antisymm (hle hlt' hk' hk hor) (hle hlt hk hk' hor')
  rw [hk, hk']

/-- An exponent below the bound is counted as it is. -/
lemma eq_of_natAbs_lt (h : Counts e k) (he : e.natAbs < 655360) : k = e :=
  h.unique ⟨he, 0, by rw [pow_zero, Int.tdiv_one], .inl rfl⟩

end Counts

namespace Exponent

variable {x : Exponent} {digits : List Char}

/-- The digits of an exponent are counted up to the first ones that reach the bound. -/
lemma exists_late (hdigits : ∀ c ∈ digits, c.isDigit) :
    let size := digits.foldl
      (fun n c => if n < saturation then n * 10 + hexDigitValue c else n) 0
    size < 655360 ∧
      ∃ late, size = numberOf 10 digits / 10 ^ late ∧ (late = 0 ∨ 65536 ≤ size) := by
  induction digits using List.reverseRecOn with
  | nil => exact ⟨by decide, 0, rfl, .inl rfl⟩
  | append_singleton digits c ih =>
    rw [List.forall_mem_append, List.forall_mem_singleton] at hdigits
    obtain ⟨hdigits, hc⟩ := hdigits
    obtain ⟨hlt, late, hsize, hor⟩ := ih hdigits
    have hvalue := hexDigitValue_eq (isHexSign_of_isDigit hc)
    have hsmall := idxOf_lt_ten hc
    dsimp only
    rw [List.foldl_append, List.foldl_cons, List.foldl_nil, numberOf_append_singleton, hvalue]
    set size := digits.foldl (fun n c => if n < saturation then n * 10 + hexDigitValue c else n) 0
    split
    · rename_i hbelow
      have hbelow' : size < 65536 := hbelow
      obtain rfl : late = 0 := hor.resolve_right (Nat.not_le.2 hbelow')
      rw [pow_zero, Nat.div_one] at hsize
      refine ⟨by omega, 0, ?_, .inl rfl⟩
      rw [pow_zero, Nat.div_one, hsize]
    · rename_i hreached
      have hreached' : 65536 ≤ size := Nat.not_lt.1 hreached
      refine ⟨hlt, late + 1, ?_, .inr hreached'⟩
      rw [hsize, Nat.pow_succ', ← Nat.div_div_eq_div_mul]
      congr 1
      omega

/-- What the value of an exponent counts. -/
lemma counts_value (h : ∀ c ∈ x.digits, c.isDigit) : Counts x.number x.value := by
  obtain ⟨hlt, late, hsize, hor⟩ := exists_late h
  unfold value number
  split
  · refine ⟨by rwa [Int.natAbs_neg], late, ?_, hor.imp_right fun hle => by rwa [Int.natAbs_neg]⟩
    rw [Int.neg_tdiv, neg_inj, magnitude, hsize]
    exact_mod_cast Int.ofNat_tdiv _ _
  · refine ⟨hlt, late, ?_, hor⟩
    rw [magnitude, hsize]
    exact_mod_cast Int.ofNat_tdiv _ _

end Exponent

/-- The digits of an exponent that do not count make no difference for numbers of up to 65000 digits
and as many places. -/
lemma Counts.scaled_eq (h : Counts e k) (hm : m.repr.length ≤ 65000) (hplaces : places ≤ 65000) :
    Numeral.scaled m (k - places) = Numeral.scaled m (e - places) := by
  obtain ⟨-, late, hk, hor⟩ := h
  rcases hor with rfl | hreach
  · rw [hk, pow_zero, Int.tdiv_one]
  have hle : k.natAbs ≤ e.natAbs := natAbs_eq hk ▸ Nat.div_le_self _ _
  have hten : (0 : ℤ) ≤ 10 ^ late := by positivity
  unfold Numeral.scaled
  split
  · rfl
  dsimp only
  rcases le_total 0 e with hpos | hneg
  · have hpos' : 0 ≤ k := hk ▸ Int.tdiv_nonneg hpos hten
    rw [if_pos (by omega), if_pos (by omega)]
  · have hneg' : 0 ≤ -k := by
      rw [hk, ← Int.neg_tdiv]
      exact Int.tdiv_nonneg (Int.neg_nonneg.2 hneg) hten
    rw [if_neg (by omega), if_pos (by omega), if_neg (by omega), if_pos (by omega)]

end Reckon
