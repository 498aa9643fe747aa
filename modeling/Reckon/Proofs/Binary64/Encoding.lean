import Mathlib
import Reckon.Proofs.Binary64.Magnitude

/-!
# How doubles are encoded

The logic knows a double as a word of 64 bits, and computes with it by taking the word apart into a
sign, a significand and an exponent.
-/

namespace Reckon.Binary64

open Float.Model Float.Model.UnpackedFloat
open Float.Model.Format (binary64)

lemma signPlace_eq : signPlace = 9223372036854775808 := rfl

lemma two_pow_exponentBits : 2 ^ binary64.exponentBits = 2048 := rfl

lemma two_pow_mantissaBits : 2 ^ binary64.mantissaBitsWithoutImplicit = leadingBit := rfl

lemma mantissaBits_eq : binary64.mantissaBits = 53 := rfl

/-! ## The fields of a word -/

/-- The exponent stands behind the mantissa. -/
lemma toNat_unpackExponent (b : BitVec 64) :
    (@unpackExponent binary64 b).toNat = b.toNat / leadingBit % 2048 := by
  change (b.toNat >>> 52) % 2 ^ 11 = _
  rw [Nat.shiftRight_eq_div_pow]
  rfl

/-- The mantissa takes the last bits. -/
lemma toNat_unpackMantissa (b : BitVec 64) :
    (@unpackMantissa binary64 b).toNat = b.toNat % leadingBit := by
  change (b.toNat >>> 0) % 2 ^ 52 = _
  rw [Nat.shiftRight_zero]
  rfl

/-- The sign is the first bit. -/
lemma toNat_unpackSign (b : BitVec 64) :
    (@unpackSign binary64 b).toNat = b.toNat / signPlace % 2 := by
  change (b.toNat >>> 63) % 2 ^ 1 = _
  rw [Nat.shiftRight_eq_div_pow]
  rfl

/-- A word is put together from its sign, its exponent and its mantissa. -/
lemma toNat_packComponents (s : Sign) (e : BitVec 11) (m : BitVec 52) :
    (packComponents binary64 s e m).toNat =
      s.toBitVec.toNat * signPlace + (e.toNat * leadingBit + m.toNat) := by
  rw [packComponents, BitVec.toNat_append, BitVec.toNat_append,
    ← Nat.shiftLeft_add_eq_or_of_lt m.isLt, ← Nat.shiftLeft_add_eq_or_of_lt e.isLt,
    Nat.shiftLeft_eq, Nat.shiftLeft_eq, signPlace_eq, leadingBit_eq]
  omega

/-! ## Magnitude bits and sign -/

variable {x : Float} {bits : ℕ}

/-- The sign of a double as the logic has it. -/
def signOf (negative : Bool) : Sign := if negative then .negative else .positive

/-- The sign is the highest bit. -/
lemma signBit_eq (x : Float) : signBit x = decide (signPlace ≤ x.toBits.toNat) := rfl

/-- The magnitude is what the bits below the sign stand for. -/
lemma magnitudeBits_eq (x : Float) : magnitudeBits x = x.toBits.toNat % signPlace := rfl

/-- A valid word is that of the double with these bits. -/
lemma toBits_ofBits_of_valid {w : UInt64} (h : binary64.Valid w.toBitVec) :
    (Float.ofBits w).toBits = w := by
  change UInt64.ofBitVec (UnpackedFloat.pack binary64 (unpack binary64 w.toBitVec)) = w
  rw [pack_unpack_of_valid h]

/-- A word with magnitude bits up to those of infinity is read back. -/
lemma toNat_toBits_ofBits {n : ℕ} (hword : n < 2 * signPlace)
    (hbits : n % signPlace ≤ infinityBits) : (Float.ofBits (UInt64.ofNat n)).toBits.toNat = n := by
  rw [signPlace_eq, infinityBits_eq] at *
  have hn : (UInt64.ofNat n).toNat = n := by
    rw [UInt64.toNat_ofNat']
    omega
  have hvalid : binary64.Valid (UInt64.ofNat n).toBitVec := by
    refine ⟨fun hexponent hmantissa => absurd ?_ hmantissa⟩
    have hexponent' := congrArg BitVec.toNat hexponent
    have hall : (-BitVec.ofNat binary64.exponentBits 1).toNat = 2047 := rfl
    rw [toNat_unpackExponent, hall, leadingBit_eq, UInt64.toNat_toBitVec, hn] at hexponent'
    refine BitVec.eq_of_toNat_eq ?_
    rw [toNat_unpackMantissa, leadingBit_eq, UInt64.toNat_toBitVec, hn, BitVec.toNat_zero]
    omega
  rw [toBits_ofBits_of_valid hvalid, hn]

/-- The word of a double is made up of its sign and its magnitude bits. -/
lemma toNat_toBits_ofMagnitudeBits (negative : Bool) (h : bits ≤ infinityBits) :
    (ofMagnitudeBits negative bits).toBits.toNat = if negative then signPlace + bits else bits := by
  rw [infinityBits_eq] at h
  refine toNat_toBits_ofBits ?_ ?_
  · rw [signPlace_eq]
    split <;> omega
  · rw [signPlace_eq, infinityBits_eq]
    split <;> omega

/-- The magnitude bits are those it is made of. -/
lemma magnitudeBits_ofMagnitudeBits (negative : Bool) (h : bits ≤ infinityBits) :
    magnitudeBits (ofMagnitudeBits negative bits) = bits := by
  rw [magnitudeBits_eq, toNat_toBits_ofMagnitudeBits negative h]
  rw [infinityBits_eq] at h
  rw [signPlace_eq]
  split <;> omega

/-- The sign is the one it is made of. -/
lemma signBit_ofMagnitudeBits (negative : Bool) (h : bits ≤ infinityBits) :
    signBit (ofMagnitudeBits negative bits) = negative := by
  rw [signBit_eq, toNat_toBits_ofMagnitudeBits negative h]
  rw [infinityBits_eq] at h
  rw [signPlace_eq]
  cases negative with
  | false =>
    rw [if_neg Bool.false_ne_true, decide_eq_false_iff_not]
    omega
  | true =>
    rw [if_pos rfl, decide_eq_true_eq]
    omega

/-- Its number of units is that of its magnitude bits. -/
lemma units_ofMagnitudeBits (negative : Bool) (h : bits ≤ infinityBits) :
    units (ofMagnitudeBits negative bits) = unitsOf bits := by
  rw [units, magnitudeBits_ofMagnitudeBits negative h]

/-- A double is made up of its sign and its magnitude bits. -/
lemma ofMagnitudeBits_magnitudeBits (x : Float) :
    ofMagnitudeBits (signBit x) (magnitudeBits x) = x := by
  have hlt := x.toBits.toNat_lt
  have hword : (if signBit x then signPlace + magnitudeBits x else magnitudeBits x) =
      x.toBits.toNat := by
    rw [signBit_eq, magnitudeBits_eq, signPlace_eq]
    split
    · rename_i hsign
      rw [decide_eq_true_eq] at hsign
      omega
    · rename_i hsign
      rw [decide_eq_true_eq] at hsign
      omega
  rw [ofMagnitudeBits, hword, UInt64.ofNat_toNat, Float.ofBits_toBits]

/-- A double that is not negative is made up of its magnitude bits. -/
lemma eq_ofMagnitudeBits (hsign : signBit x = false) (hbits : magnitudeBits x = bits) :
    x = ofMagnitudeBits false bits := by
  rw [← hsign, ← hbits, ofMagnitudeBits_magnitudeBits]

/-! ## Unpacked doubles -/

/-- A double is unpacked from its bits. -/
lemma unpack_toModel (x : Float) : x.toModel.unpack = unpack binary64 x.toBits.toBitVec := rfl

/-- The exponent is what the magnitude bits have before the mantissa. -/
lemma toNat_unpackExponent_toBits (x : Float) :
    (@unpackExponent binary64 x.toBits.toBitVec).toNat = magnitudeBits x / leadingBit := by
  rw [toNat_unpackExponent, UInt64.toNat_toBitVec, magnitudeBits_eq, leadingBit_eq, signPlace_eq]
  omega

/-- The mantissa is what the magnitude bits end with. -/
lemma toNat_unpackMantissa_toBits (x : Float) :
    (@unpackMantissa binary64 x.toBits.toBitVec).toNat = magnitudeBits x % leadingBit := by
  rw [toNat_unpackMantissa, UInt64.toNat_toBitVec, magnitudeBits_eq, leadingBit_eq, signPlace_eq]
  omega

/-- The sign bit is the sign. -/
lemma ofBitVec_unpackSign_toBits (x : Float) :
    Sign.ofBitVec (@unpackSign binary64 x.toBits.toBitVec) = signOf (signBit x) := by
  have hlt := x.toBits.toNat_lt
  have hsign := toNat_unpackSign x.toBits.toBitVec
  rw [UInt64.toNat_toBitVec, signPlace_eq] at hsign
  unfold Sign.ofBitVec signOf
  rw [signBit_eq, signPlace_eq]
  by_cases hnegative : 9223372036854775808 ≤ x.toBits.toNat
  · rw [if_neg, if_pos (decide_eq_true hnegative)]
    intro hzero
    rw [hzero, BitVec.toNat_zero] at hsign
    omega
  · rw [if_pos, if_neg]
    · rwa [decide_eq_true_eq]
    · refine BitVec.eq_of_toNat_eq ?_
      rw [hsign, BitVec.toNat_zero]
      omega

/-- Finite doubles are equal if their parts are. -/
lemma finite_congr {s : Sign} {m m' : ℕ} {e e' : ℤ} (hm : m = m') (he : e = e') (h : 0 < m) :
    ∃ h', UnpackedFloat.finite s m e h = .finite s m' e' h' := by
  subst hm he
  exact ⟨h, rfl⟩

lemma exponentBias_add :
    (binary64.exponentBias : ℤ) + (binary64.mantissaBitsWithoutImplicit : ℤ) = 1075 :=
  rfl

/-- A subnormal double has its mantissa for a significand. -/
lemma unpack_of_subnormal (hpos : 0 < magnitudeBits x) (h : magnitudeBits x / leadingBit = 0) :
    ∃ h', x.toModel.unpack = .finite (signOf (signBit x)) (magnitudeBits x) (-1074) h' := by
  have hexponent := toNat_unpackExponent_toBits x
  have hmantissa := toNat_unpackMantissa_toBits x
  rw [h] at hexponent
  have hexponent' : @unpackExponent binary64 x.toBits.toBitVec = 0#11 :=
    BitVec.eq_of_toNat_eq hexponent
  have hmantissa' : (@unpackMantissa binary64 x.toBits.toBitVec).toNat = magnitudeBits x := by
    rw [leadingBit_eq] at *
    omega
  have hnonzero : @unpackMantissa binary64 x.toBits.toBitVec ≠ 0#52 := by
    intro heq
    rw [heq, BitVec.toNat_zero] at hmantissa'
    omega
  rw [unpack_toModel]
  unfold UnpackedFloat.unpack
  dsimp only
  rw [hexponent', if_neg (by decide), if_pos rfl, dif_neg hnonzero, exponentBias_add,
    ofBitVec_unpackSign_toBits]
  exact finite_congr hmantissa' rfl _

/-- A normal double has a leading bit before its mantissa. -/
lemma unpack_of_normal (h : magnitudeBits x / leadingBit ≠ 0)
    (hlt : magnitudeBits x < infinityBits) :
    ∃ h', x.toModel.unpack = .finite (signOf (signBit x))
      (leadingBit + magnitudeBits x % leadingBit)
      ((magnitudeBits x / leadingBit - 1 : ℕ) - 1074) h' := by
  have hexponent := toNat_unpackExponent_toBits x
  have hmantissa := toNat_unpackMantissa_toBits x
  have hnormal : @unpackExponent binary64 x.toBits.toBitVec ≠ 0#11 := by
    intro heq
    rw [heq, BitVec.toNat_zero] at hexponent
    exact h hexponent.symm
  have hfinite : @unpackExponent binary64 x.toBits.toBitVec ≠ -1#11 := by
    intro heq
    have hall : (-1#11).toNat = 2047 := rfl
    rw [heq, hall] at hexponent
    rw [leadingBit_eq, infinityBits_eq] at *
    omega
  have hleading : (1#1 ++ @unpackMantissa binary64 x.toBits.toBitVec).toNat =
      leadingBit + magnitudeBits x % leadingBit := by
    rw [BitVec.toNat_append, ← Nat.shiftLeft_add_eq_or_of_lt (BitVec.isLt _), hmantissa]
    rfl
  rw [unpack_toModel]
  unfold UnpackedFloat.unpack
  dsimp only
  rw [if_neg hfinite, if_neg hnormal, exponentBias_add, ofBitVec_unpackSign_toBits, hexponent]
  exact finite_congr hleading (by omega) _

/-- A finite double other than zero is unpacked into its significand and its place. -/
lemma unpack_of_lt (hpos : 0 < magnitudeBits x) (hlt : magnitudeBits x < infinityBits) :
    ∃ h, x.toModel.unpack = .finite (signOf (signBit x)) (significand (magnitudeBits x))
      ((place (magnitudeBits x) : ℤ) - 1074) h := by
  unfold significand place
  by_cases hsubnormal : magnitudeBits x / leadingBit = 0
  · rw [if_pos hsubnormal, hsubnormal]
    exact unpack_of_subnormal hpos hsubnormal
  · rw [if_neg hsubnormal]
    exact unpack_of_normal hsubnormal hlt

/-- Zero is unpacked. -/
lemma unpack_of_eq_zero (h : magnitudeBits x = 0) :
    x.toModel.unpack = .zero (signOf (signBit x)) := by
  have hexponent := toNat_unpackExponent_toBits x
  have hmantissa := toNat_unpackMantissa_toBits x
  have hsign := ofBitVec_unpackSign_toBits x
  rw [h] at hexponent hmantissa
  have hexponent' : @unpackExponent binary64 x.toBits.toBitVec = 0#11 :=
    BitVec.eq_of_toNat_eq hexponent
  have hmantissa' : @unpackMantissa binary64 x.toBits.toBitVec = 0#52 :=
    BitVec.eq_of_toNat_eq hmantissa
  rw [unpack_toModel]
  unfold UnpackedFloat.unpack
  simp only [hexponent', hmantissa', hsign]
  rfl

/-- Infinity is unpacked. -/
lemma unpack_of_eq_infinityBits (h : magnitudeBits x = infinityBits) :
    x.toModel.unpack = .infinity (signOf (signBit x)) := by
  have hexponent := toNat_unpackExponent_toBits x
  have hmantissa := toNat_unpackMantissa_toBits x
  have hsign := ofBitVec_unpackSign_toBits x
  rw [h] at hexponent hmantissa
  have hexponent' : @unpackExponent binary64 x.toBits.toBitVec = -1#11 :=
    BitVec.eq_of_toNat_eq hexponent
  have hmantissa' : @unpackMantissa binary64 x.toBits.toBitVec = 0#52 :=
    BitVec.eq_of_toNat_eq hmantissa
  rw [unpack_toModel]
  unfold UnpackedFloat.unpack
  simp only [hexponent', hmantissa', hsign]
  rfl

/-! ## Shifted significands -/

/-- Whether a significand with its residual bits stands for a quotient, as far as rounding is
concerned: the bits tell how the rest compares with a half of the divisor. -/
structure StandsFor (em : ExtendedMantissa) (num den : ℕ) : Prop where
  mantissa_eq : em.mantissa = num / den
  roundBit_iff : em.roundBit = true ↔ den ≤ 2 * (num % den)
  stickyBit_iff : em.stickyBit = true ↔ num % den ≠ 0 ∧ 2 * (num % den) ≠ den

namespace StandsFor

variable {em : ExtendedMantissa} {num den : ℕ}

/-- A mantissa stands for itself. -/
lemma exact (m : ℕ) : StandsFor (ExtendedMantissa.ofMantissaAndAccuracy m .exact) m 1 := by
  refine ⟨(Nat.div_one m).symm, ?_, ?_⟩
  · simp [ExtendedMantissa.ofMantissaAndAccuracy, Nat.mod_one]
  · simp [ExtendedMantissa.ofMantissaAndAccuracy, Nat.mod_one]

/-- Shifted by one place, it stands for half as much. -/
lemma shiftRightOne (h : StandsFor em num den) (hden : 0 < den) :
    StandsFor em.shiftRightOne num (den * 2) := by
  have hlt := Nat.mod_lt num hden
  have hrest : num % (den * 2) = num % den + den * (num / den % 2) := Nat.mod_mul
  have hparity := Nat.mod_two_eq_zero_or_one (num / den)
  refine ⟨?_, ?_, ?_⟩
  · rw [ExtendedMantissa.shiftRightOne, h.mantissa_eq, Nat.div_div_eq_div_mul]
  · rw [ExtendedMantissa.shiftRightOne, hrest, h.mantissa_eq, bne_iff_ne]
    rcases hparity with heven | hodd
    · rw [heven]
      omega
    · rw [hodd]
      omega
  · rw [ExtendedMantissa.shiftRightOne, hrest, Bool.or_eq_true, h.roundBit_iff, h.stickyBit_iff]
    rcases hparity with heven | hodd
    · rw [heven]
      omega
    · rw [hodd]
      omega

/-- Shifted by more places, it stands for the quotient by a power of two. -/
lemma shiftRight (m n : ℕ) :
    StandsFor (ExtendedMantissa.ofMantissaAndAccuracy m .exact >>> n) m (2 ^ n) := by
  induction n with
  | zero => exact exact m
  | succ n ih =>
    rw [Nat.pow_succ]
    exact ih.shiftRightOne (Nat.two_pow_pos n)

/-- The quotient is rounded. -/
lemma roundedMantissa_eq (h : StandsFor em num den) (hden : 0 < den) :
    em.roundedMantissa = roundQuotient num den := by
  have hlt := Nat.mod_lt num hden
  obtain ⟨mantissa, roundBit, stickyBit⟩ := em
  obtain ⟨hmantissa, hround, hsticky⟩ := h
  dsimp only at hmantissa hround hsticky
  rw [hmantissa]
  unfold roundQuotient
  dsimp only
  cases roundBit with
  | false =>
    have hbelow : ¬den ≤ 2 * (num % den) := fun hle => Bool.false_ne_true (hround.2 hle)
    rw [if_pos (by omega)]
    cases stickyBit with
    | false => rfl
    | true => rfl
  | true =>
    have hle := hround.1 rfl
    rw [if_neg (by omega)]
    cases stickyBit with
    | false =>
      have htie : ¬(num % den ≠ 0 ∧ 2 * (num % den) ≠ den) :=
        fun hboth => Bool.false_ne_true (hsticky.2 hboth)
      rw [if_neg (by omega)]
      rfl
    | true =>
      have habove := hsticky.1 rfl
      rw [if_pos (by omega)]
      rfl

end StandsFor

/-! ## Packed doubles -/

lemma toNat_positive : (Sign.positive.toBitVec).toNat = 0 := rfl

/-- Infinity is packed into its bits. -/
lemma toNat_packedInfinity : (packedInfinity binary64 .positive).toNat = infinityBits := rfl

/-- Zero is packed into no bits. -/
lemma toNat_pack_zero : (UnpackedFloat.pack binary64 (.zero .positive)).toNat = 0 := rfl

/-- The exponent field of a place. -/
lemma toNat_biased (p : ℕ) : (((p : ℤ) - 1074) + binary64.exponentBias +
    binary64.mantissaBitsWithoutImplicit).toNat = p + 1 := by
  have hsum : (((p : ℤ) - 1074) + binary64.exponentBias + binary64.mantissaBitsWithoutImplicit) =
      (p : ℤ) - 1074 + 1023 + 52 := rfl
  rw [hsum]
  omega

/-- A significand in its place is packed into magnitude bits, up to those of infinity. -/
lemma toNat_pack_finite {m p : ℕ} (hpos : 0 < m) (hm : m < 2 * leadingBit)
    (h : p = 0 ∨ leadingBit ≤ m) :
    (UnpackedFloat.pack binary64 (.finite .positive m ((p : ℤ) - 1074) hpos)).toNat =
      min (p * leadingBit + m) infinityBits := by
  unfold UnpackedFloat.pack
  dsimp only
  rw [toNat_biased, two_pow_exponentBits, mantissaBits_eq]
  by_cases hlarge : 2048 ≤ p + 1 + 1
  · rw [if_pos hlarge, toNat_packedInfinity]
    rw [leadingBit_eq, infinityBits_eq] at *
    omega
  · rw [if_neg hlarge]
    by_cases hnormal : leadingBit ≤ m
    · have hlog := log2_of_leadingBit_le hnormal hm
      rw [if_pos (by rw [hlog]), toNat_packComponents, BitVec.toNat_ofNat, BitVec.toNat_ofNat,
        two_pow_exponentBits, two_pow_mantissaBits, toNat_positive]
      rw [leadingBit_eq, infinityBits_eq] at *
      omega
    · have hlog := log2_of_lt_leadingBit (Nat.lt_of_not_le hnormal)
      rw [if_neg (by omega), toNat_packComponents, BitVec.toNat_ofNat, BitVec.toNat_ofNat,
        Nat.zero_mod, two_pow_mantissaBits, toNat_positive]
      rw [leadingBit_eq, infinityBits_eq] at *
      omega

/-! ## Rounding in the logic -/

/-- By how many places a significand is shifted. -/
def shiftOf (m : ℕ) (e : ℤ) : ℕ := (max ((m.log2 : ℤ) + 1 + e - 53) (-1074) - e).toNat

/-- A mantissa is shifted as far as its exponent asks for. -/
lemma shiftToTargetExponent_eq (m : ℕ) (e : ℤ) : shiftToTargetExponent binary64 m e .exact =
    (ExtendedMantissa.ofMantissaAndAccuracy m .exact >>> shiftOf m e, e + shiftOf m e) := rfl

/-- A significand in its place is not shifted. -/
lemma shiftToTargetExponent_of_lt {p r : ℕ} (hr : r < 2 * leadingBit) :
    (shiftToTargetExponent binary64 r ((p : ℤ) - 1074) .exact).1.mantissa = r ∧
      (shiftToTargetExponent binary64 r ((p : ℤ) - 1074) .exact).2 = (p : ℤ) - 1074 := by
  have hlog : r.log2 ≤ 52 := by
    rcases Nat.lt_or_ge r leadingBit with hlt | hge
    · exact (log2_of_lt_leadingBit hlt).le
    · exact (log2_of_leadingBit_le hge hr).le
  have hshift : shiftOf r ((p : ℤ) - 1074) = 0 := by
    unfold shiftOf
    omega
  rw [shiftToTargetExponent_eq, hshift]
  refine ⟨?_, Int.add_zero _⟩
  rw [(StandsFor.shiftRight r 0).mantissa_eq, Nat.pow_zero, Nat.div_one]

/-- A significand that is one too large is halved. -/
lemma shiftToTargetExponent_of_eq (p : ℕ) :
    (shiftToTargetExponent binary64 (2 * leadingBit) ((p : ℤ) - 1074) .exact).1.mantissa =
        leadingBit ∧
      (shiftToTargetExponent binary64 (2 * leadingBit) ((p : ℤ) - 1074) .exact).2 =
        ((p + 1 : ℕ) : ℤ) - 1074 := by
  have hshift : shiftOf (2 * leadingBit) ((p : ℤ) - 1074) = 1 := by
    unfold shiftOf
    rw [log2_two_mul_leadingBit]
    omega
  rw [shiftToTargetExponent_eq, hshift]
  refine ⟨?_, ?_⟩
  · rw [(StandsFor.shiftRight (2 * leadingBit) 1).mantissa_eq, Nat.pow_one,
      Nat.mul_div_cancel_left _ Nat.two_pos]
  · dsimp only
    omega

/-- A rounded significand is packed into magnitude bits; one that is too large carries into the next
place. -/
lemma toNat_pack_carry {p r : ℕ} (hr : r ≤ 2 * leadingBit) (h : p = 0 ∨ leadingBit ≤ r) :
    (UnpackedFloat.pack binary64
      (if hzero : (shiftToTargetExponent binary64 r ((p : ℤ) - 1074) .exact).1.mantissa = 0 then
        .zero .positive
      else .finite .positive (shiftToTargetExponent binary64 r ((p : ℤ) - 1074) .exact).1.mantissa
        (shiftToTargetExponent binary64 r ((p : ℤ) - 1074) .exact).2
        (Nat.pos_of_ne_zero hzero))).toNat = min (p * leadingBit + r) infinityBits := by
  rcases Nat.lt_or_eq_of_le hr with hlt | rfl
  · obtain ⟨hmantissa, hexponent⟩ := shiftToTargetExponent_of_lt (p := p) hlt
    rcases Nat.eq_zero_or_pos r with rfl | hpos
    · obtain rfl : p = 0 := h.resolve_right (by decide)
      rw [dif_pos hmantissa, toNat_pack_zero, Nat.zero_mul, Nat.zero_add, Nat.zero_min]
    · rw [dif_neg fun hzero => hpos.ne' (hmantissa.symm.trans hzero)]
      simp only [hmantissa, hexponent]
      exact toNat_pack_finite hpos hlt h
  · obtain ⟨hmantissa, hexponent⟩ := shiftToTargetExponent_of_eq p
    have hpos : 0 < leadingBit := by decide
    have hlt : leadingBit < 2 * leadingBit := by decide
    rw [dif_neg fun hzero => hpos.ne' (hmantissa.symm.trans hzero)]
    simp only [hmantissa, hexponent]
    rw [toNat_pack_finite hpos hlt (.inr le_rfl), Nat.succ_mul, Nat.add_assoc, Nat.two_mul]

section

variable {m a b count : ℕ}

/-- The place of a significand is that of the count it stands for. -/
lemma max_log2_eq (hm : 0 < m) (hcount : m * 2 ^ a = count * 2 ^ b) :
    max ((m.log2 : ℤ) + 1 + ((a : ℤ) - b - 1074) - 53) (-1074) = (places count : ℤ) - 1074 := by
  have hpos : 0 < count :=
    Nat.pos_of_mul_pos_right (hcount ▸ Nat.mul_pos hm (Nat.two_pow_pos a))
  have hlog := congrArg Nat.log2 hcount
  rw [log2_mul_two_pow hm, log2_mul_two_pow hpos] at hlog
  unfold places
  omega

/-- The logic rounds a significand with an exponent to the nearest double: the significand is
shifted into its place, and there it is the count that is rounded. -/
lemma toNat_pack_roundWithAccuracy (hm : 0 < m) (hcount : m * 2 ^ a = count * 2 ^ b)
    (hplaces : a ≤ b + places count) :
    (UnpackedFloat.pack binary64
      (roundWithAccuracy binary64 .positive m ((a : ℤ) - b - 1074) .exact)).toNat =
      nearestBits count 1 := by
  set e : ℤ := (a : ℤ) - b - 1074 with he
  have hshift : e + shiftOf m e = (places count : ℤ) - 1074 := by
    rw [shiftOf, he, max_log2_eq hm hcount]
    omega
  have hround : (ExtendedMantissa.ofMantissaAndAccuracy m .exact >>> shiftOf m e).roundedMantissa =
      roundQuotient count (2 ^ places count) := by
    rw [(StandsFor.shiftRight m _).roundedMantissa_eq (Nat.two_pow_pos _)]
    refine roundQuotient_congr (Nat.two_pow_pos _) (Nat.two_pow_pos _) ?_
    refine Nat.eq_of_mul_eq_mul_right (Nat.two_pow_pos b) ?_
    have hexponents : places count + b = a + shiftOf m e := by omega
    calc m * 2 ^ places count * 2 ^ b = m * 2 ^ a * 2 ^ shiftOf m e := by
          rw [Nat.mul_assoc, ← Nat.pow_add, hexponents, Nat.pow_add, Nat.mul_assoc]
      _ = count * 2 ^ shiftOf m e * 2 ^ b := by
          rw [hcount, Nat.mul_right_comm]
  obtain ⟨hle, hplaces⟩ := roundQuotient_places count
  have hcarry := toNat_pack_carry hle hplaces
  rw [nearestBits_one, rawBits, ← hcarry, ← hround, ← hshift]
  rfl

/-- A significand that is too short for its place is extended before it is rounded. -/
lemma toNat_pack_round (hm : 0 < m) (hcount : m * 2 ^ a = count * 2 ^ b) :
    (UnpackedFloat.pack binary64
      (UnpackedFloat.round binary64 .positive m ((a : ℤ) - b - 1074))).toNat =
      nearestBits count 1 := by
  set s : ℕ := a - b - places count with hs
  have hround : UnpackedFloat.round binary64 .positive m ((a : ℤ) - b - 1074) =
      roundWithAccuracy binary64 .positive (m * 2 ^ s) ((a : ℤ) - (b + s : ℕ) - 1074) .exact := by
    have htarget : binary64.targetExponent (totalExponent m ((a : ℤ) - b - 1074)) =
        (places count : ℤ) - 1074 := max_log2_eq hm hcount
    have hextension : (((a : ℤ) - b - 1074) - ((places count : ℤ) - 1074)).toNat = s := by omega
    unfold UnpackedFloat.round decreaseExponent
    dsimp only
    rw [htarget, hextension, Nat.shiftLeft_eq]
    congr 1
    omega
  rw [hround]
  refine toNat_pack_roundWithAccuracy (Nat.mul_pos hm (Nat.two_pow_pos s)) ?_ (by omega)
  rw [Nat.mul_right_comm, hcount, Nat.pow_add, Nat.mul_assoc]

end

end Reckon.Binary64
