import Reckon.Proofs.Binary64.Encoding

/-!
# Arithmetic on doubles that are not negative

A sum of two doubles, sixteen times a double and the double of a word are the doubles nearest to the
sum, the product and the number, counted in units.  Infinity takes part with the units that its bits
would stand for: they are past the limit, and what is past the limit becomes infinity again.
-/

namespace Reckon.Binary64

open Float.Model Float.Model.UnpackedFloat
open Float.Model.Format (binary64)

/-! ## Packed results -/

section

variable {m a b count : ℕ}

/-- What is normalized is packed into the bits nearest to the number. -/
lemma toNat_pack_normalize (hcount : m * 2 ^ a = count * 2 ^ b) :
    (UnpackedFloat.pack binary64
      (UnpackedFloat.normalize binary64 (m : ℤ) ((a : ℤ) - b - 1074) .positive)).toNat =
      nearestBits count 1 := by
  rcases Nat.eq_zero_or_pos m with rfl | hm
  · have hzero : count = 0 := by
      rw [Nat.zero_mul] at hcount
      exact (Nat.mul_eq_zero.1 hcount.symm).resolve_right (Nat.two_pow_pos b).ne'
    rw [hzero, nearestBits_zero]
    exact toNat_pack_zero
  · have hpositive : compare (m : ℤ) 0 = .gt := by
      rw [compare_gt_iff_gt]
      exact Int.natCast_pos.2 hm
    unfold UnpackedFloat.normalize
    rw [hpositive]
    exact toNat_pack_round hm hcount

/-- What is packed into a double is found in its bits. -/
lemma toBits_ofModel_pack (u : UnpackedFloat) :
    (Float.ofModel (Float.Model.pack u)).toBits = UInt64.ofBitVec
      (UnpackedFloat.pack binary64 u) := rfl

/-- A double is known by the word it is packed into. -/
lemma ofModel_pack_eq_ofUnits {u : UnpackedFloat}
    (h : (UnpackedFloat.pack binary64 u).toNat = nearestBits count 1) :
    Float.ofModel (Float.Model.pack u) = ofUnits false count := by
  refine Float.toBits_inj.1 (UInt64.toNat_inj.1 ?_)
  rw [toBits_ofModel_pack, UInt64.toNat_ofBitVec, h, ofUnits,
    toNat_toBits_ofMagnitudeBits false (nearestBits_le count 1), if_neg Bool.false_ne_true]

end

/-! ## Words -/

/-- The double of a natural number is that of its units. -/
lemma ofNat_eq (n : ℕ) : ofNat n = ofUnits false (n * one) := rfl

/-- The logic turns a word into the double nearest to its number. -/
lemma toFloat_eq_ofNat (n : UInt32) : n.toFloat = ofNat n.toNat := by
  have hcount : n.toNat * 2 ^ 1074 = n.toNat * one * 2 ^ 0 := by
    rw [Nat.pow_zero, Nat.mul_one, one_eq]
  have hpack := toNat_pack_normalize hcount
  have hexponent : ((1074 : ℕ) : ℤ) - ((0 : ℕ) : ℤ) - 1074 = 0 := by decide
  rw [hexponent] at hpack
  rw [ofNat_eq, ← ofModel_pack_eq_ofUnits hpack]
  rfl

/-! ## Sums and products -/

variable {bits bits' : ℕ}

/-- Zero bits are unpacked to zero. -/
lemma unpack_ofMagnitudeBits_zero : (ofMagnitudeBits false 0).toModel.unpack = .zero .positive := by
  have hbits := magnitudeBits_ofMagnitudeBits false (Nat.zero_le infinityBits)
  rw [unpack_of_eq_zero hbits, signBit_ofMagnitudeBits false (Nat.zero_le _)]
  rfl

/-- The bits of infinity are unpacked to infinity. -/
lemma unpack_ofMagnitudeBits_infinityBits :
    (ofMagnitudeBits false infinityBits).toModel.unpack = .infinity .positive := by
  have hbits := magnitudeBits_ofMagnitudeBits false (Nat.le_refl infinityBits)
  rw [unpack_of_eq_infinityBits hbits, signBit_ofMagnitudeBits false (Nat.le_refl _)]
  rfl

/-- A finite double that is positive is unpacked into its significand and its place. -/
lemma unpack_ofMagnitudeBits_of_lt (hpos : 0 < bits) (hlt : bits < infinityBits) :
    ∃ h, (ofMagnitudeBits false bits).toModel.unpack =
      .finite .positive (significand bits) ((place bits : ℤ) - 1074) h := by
  have hbits := magnitudeBits_ofMagnitudeBits false hlt.le
  have hsign := signBit_ofMagnitudeBits false hlt.le
  rw [← hbits] at hpos hlt
  obtain ⟨h, hunpack⟩ := unpack_of_lt hpos hlt
  rw [hbits] at h
  refine ⟨h, ?_⟩
  rw [hunpack, hsign]
  exact (finite_congr (by rw [hbits]) (by rw [hbits]) _).2

/-- Infinity is the result when the count has the units of infinity. -/
lemma ofModel_pack_infinity {count : ℕ} (h : unitsOf infinityBits ≤ count) :
    Float.ofModel (Float.Model.pack (.infinity .positive)) = ofUnits false count := by
  refine ofModel_pack_eq_ofUnits ?_
  rw [nearestBits_of_roundingLimit_le (roundingLimit_le_unitsOf.trans h), ← toNat_packedInfinity]
  rfl

/-- A double that is not negative is its own result. -/
lemma ofUnits_unitsOf (h : bits ≤ infinityBits) :
    ofUnits false (unitsOf bits) = ofMagnitudeBits false bits := by
  rw [ofUnits, nearestBits_unitsOf, Nat.min_eq_left h]

/-- A double is what it is unpacked into. -/
lemma ofModel_pack_unpack (x : Float) : Float.ofModel (Float.Model.pack x.toModel.unpack) = x := by
  obtain ⟨w, hvalid⟩ := x
  rw [Float.Model.pack, Float.Model.unpack]
  simp only [pack_unpack_of_valid hvalid]

/-- A double that is not negative is zero, finite or infinite. -/
lemma unpack_ofMagnitudeBits_cases (h : bits ≤ infinityBits) :
    (bits = 0 ∧ (ofMagnitudeBits false bits).toModel.unpack = .zero .positive) ∨
      (∃ hpos, (ofMagnitudeBits false bits).toModel.unpack =
        .finite .positive (significand bits) ((place bits : ℤ) - 1074) hpos) ∨
      bits = infinityBits ∧ (ofMagnitudeBits false bits).toModel.unpack = .infinity .positive := by
  rcases Nat.eq_zero_or_pos bits with rfl | hpos
  · exact .inl ⟨rfl, unpack_ofMagnitudeBits_zero⟩
  · rcases Nat.lt_or_eq_of_le h with hlt | rfl
    · exact .inr (.inl (unpack_ofMagnitudeBits_of_lt hpos hlt))
    · exact .inr (.inr ⟨rfl, unpack_ofMagnitudeBits_infinityBits⟩)

/-- Doubles are added as they are unpacked. -/
lemma add_eq (x y : Float) : x + y =
    Float.ofModel (Float.Model.pack
      (UnpackedFloat.add binary64 x.toModel.unpack y.toModel.unpack)) := rfl

/-- Doubles are multiplied as they are unpacked. -/
lemma mul_eq (x y : Float) : x * y =
    Float.ofModel (Float.Model.pack
      (UnpackedFloat.mul binary64 x.toModel.unpack y.toModel.unpack)) := rfl

/-- Two significands are added in the lower one of their places. -/
lemma toNat_pack_add_finite {s s' p p' : ℕ} (hs : 0 < s) (hs' : 0 < s') :
    (UnpackedFloat.pack binary64 (UnpackedFloat.add binary64
      (.finite .positive s ((p : ℤ) - 1074) hs)
        (.finite .positive s' ((p' : ℤ) - 1074) hs'))).toNat =
      nearestBits (s * 2 ^ p + s' * 2 ^ p') 1 := by
  set low : ℕ := min p p' with hlow
  have hexponent : min ((p : ℤ) - 1074) ((p' : ℤ) - 1074) = (low : ℤ) - (0 : ℕ) - 1074 := by omega
  have hshift : (((p : ℤ) - 1074) - ((low : ℤ) - (0 : ℕ) - 1074)).toNat = p - low := by omega
  have hshift' : (((p' : ℤ) - 1074) - ((low : ℤ) - (0 : ℕ) - 1074)).toNat = p' - low := by omega
  have hpow : 2 ^ p = 2 ^ (p - low) * 2 ^ low := by
    rw [← Nat.pow_add, Nat.sub_add_cancel (by omega)]
  have hpow' : 2 ^ p' = 2 ^ (p' - low) * 2 ^ low := by
    rw [← Nat.pow_add, Nat.sub_add_cancel (by omega)]
  have hcount : (s * 2 ^ (p - low) + s' * 2 ^ (p' - low)) * 2 ^ low =
      (s * 2 ^ p + s' * 2 ^ p') * 2 ^ 0 := by
    rw [hpow, hpow', Nat.pow_zero, Nat.mul_one, Nat.add_mul, Nat.mul_assoc, Nat.mul_assoc]
  rw [← toNat_pack_normalize hcount, UnpackedFloat.add]
  unfold decreaseExponent
  dsimp only
  rw [hexponent, hshift, hshift', Nat.shiftLeft_eq, Nat.shiftLeft_eq]
  rfl

/-- The sum of two doubles that are not negative is the double nearest to the sum of their units. -/
lemma ofMagnitudeBits_add (h : bits ≤ infinityBits) (h' : bits' ≤ infinityBits) :
    ofMagnitudeBits false bits + ofMagnitudeBits false bits' =
      ofUnits false (unitsOf bits + unitsOf bits') := by
  rw [add_eq]
  rcases unpack_ofMagnitudeBits_cases h with ⟨rfl, hzero⟩ | ⟨hpos, hfinite⟩ | ⟨rfl, hinfinity⟩
  · rw [unitsOf_zero, Nat.zero_add, ofUnits_unitsOf h', hzero]
    refine Eq.trans ?_ (ofModel_pack_unpack (ofMagnitudeBits false bits'))
    rcases unpack_ofMagnitudeBits_cases h' with ⟨-, hright⟩ | ⟨hpos', hright⟩ | ⟨-, hright⟩ <;>
      rw [hright] <;> rfl
  · rw [hfinite]
    rcases unpack_ofMagnitudeBits_cases h' with ⟨rfl, hright⟩ | ⟨hpos', hright⟩ | ⟨rfl, hright⟩
    · rw [unitsOf_zero, Nat.add_zero, ofUnits_unitsOf h, hright]
      refine Eq.trans ?_ (ofModel_pack_unpack (ofMagnitudeBits false bits))
      rw [hfinite]
      rfl
    · rw [hright]
      exact ofModel_pack_eq_ofUnits (toNat_pack_add_finite hpos hpos')
    · rw [hright, ← ofModel_pack_infinity (Nat.le_add_left _ _)]
      rfl
  · rw [hinfinity, ← ofModel_pack_infinity (Nat.le_add_right _ _)]
    rcases unpack_ofMagnitudeBits_cases h' with ⟨-, hright⟩ | ⟨hpos', hright⟩ | ⟨-, hright⟩ <;>
      rw [hright] <;> rfl

lemma sixteen_eq : (16 : Float) = ofMagnitudeBits false 0x4030000000000000 := by decide

lemma significand_sixteen : significand 0x4030000000000000 = 2 ^ 52 := by decide

lemma place_sixteen : place 0x4030000000000000 = 1026 := by decide

/-- Powers of two are gathered on one side. -/
lemma mul_two_pow_eq {i j k : ℕ} (s p : ℕ) (h : i + j = 4 + k) :
    s * 2 ^ i * 2 ^ (p + j) = s * 2 ^ p * 16 * 2 ^ k := by
  have hpow : 2 ^ i * 2 ^ j = 16 * 2 ^ k := by rw [← Nat.pow_add, h, Nat.pow_add]
  calc s * 2 ^ i * 2 ^ (p + j) = s * 2 ^ p * (2 ^ i * 2 ^ j) := by rw [Nat.pow_add]; ac_rfl
    _ = s * 2 ^ p * 16 * 2 ^ k := by rw [hpow, Nat.mul_assoc _ 16]

/-- The significand of sixteen is a power of two: it only moves the other one. -/
lemma toNat_pack_mul_sixteen (hpos : 0 < significand bits)
    (hpos' : 0 < significand 0x4030000000000000) :
    (UnpackedFloat.pack binary64 (UnpackedFloat.mul binary64
      (.finite .positive (significand bits) ((place bits : ℤ) - 1074) hpos)
      (.finite .positive (significand 0x4030000000000000)
        ((place 0x4030000000000000 : ℤ) - 1074) hpos'))).toNat =
      nearestBits (unitsOf bits * 16) 1 := by
  have hexponent : ((place bits : ℤ) - 1074) + ((place 0x4030000000000000 : ℤ) - 1074) =
      ((place bits + 1026 : ℕ) : ℤ) - (1074 : ℕ) - 1074 := by
    rw [place_sixteen]
    omega
  have hcount : significand bits * 2 ^ 52 * 2 ^ (place bits + 1026) =
    unitsOf bits * 16 * 2 ^ 1074 :=
    mul_two_pow_eq (significand bits) (place bits) (i := 52) (j := 1026) (k := 1074) rfl
  have hplaces : place bits + 1026 ≤ 1074 + places (unitsOf bits * 16) := by
    have hunits : 0 < unitsOf bits := Nat.mul_pos hpos (Nat.two_pow_pos _)
    have hlog : (unitsOf bits * 16).log2 = (unitsOf bits).log2 + 4 := log2_mul_two_pow hunits 4
    have hself := places_unitsOf bits
    unfold places at hself ⊢
    omega
  have hround := toNat_pack_roundWithAccuracy (Nat.mul_pos hpos (Nat.two_pow_pos 52)) hcount hplaces
  rw [← hexponent, ← significand_sixteen] at hround
  rw [← hround]
  rfl

/-- Sixteen times a double that is not negative is the double nearest to sixteen times its units. -/
lemma ofMagnitudeBits_mul_sixteen (h : bits ≤ infinityBits) :
    ofMagnitudeBits false bits * 16 = ofUnits false (unitsOf bits * 16) := by
  have hlow : 0 < 0x4030000000000000 := by decide
  have hhigh : 0x4030000000000000 < infinityBits := by decide
  obtain ⟨hpos', hright⟩ := unpack_ofMagnitudeBits_of_lt hlow hhigh
  rw [mul_eq, sixteen_eq, hright]
  rcases unpack_ofMagnitudeBits_cases h with ⟨rfl, hzero⟩ | ⟨hpos, hfinite⟩ | ⟨rfl, hinfinity⟩
  · rw [unitsOf_zero, Nat.zero_mul, hzero,
      ← ofModel_pack_eq_ofUnits (toNat_pack_zero.trans nearestBits_zero.symm)]
    rfl
  · rw [hfinite]
    exact ofModel_pack_eq_ofUnits (toNat_pack_mul_sixteen hpos hpos')
  · rw [hinfinity, ← ofModel_pack_infinity (Nat.le_mul_of_pos_right _ (by decide))]
    rfl

/-! ## Counts -/

variable {count count' : ℕ}

/-- A number and the one it is rounded to have the same double. -/
lemma ofUnits_rounded (count : ℕ) : ofUnits false (rounded count) = ofUnits false count := by
  rw [ofUnits, nearestBits_rounded, ofUnits]

/-- The units that a count is rounded to, which are at most those that infinity would have. -/
lemma unitsOf_nearestBits (count : ℕ) :
    unitsOf (nearestBits count 1) = min (rounded count) (unitsOf infinityBits) := by
  rw [nearestBits_one, unitsOf_strictMono.monotone.map_min, unitsOf_rawBits]

/-- All numbers from that of infinity on have the same double. -/
lemma ofUnits_of_unitsOf_infinityBits_le (h : unitsOf infinityBits ≤ count)
    (h' : unitsOf infinityBits ≤ count') : ofUnits false count = ofUnits false count' := by
  rw [ofUnits, ofUnits, nearestBits_of_roundingLimit_le (roundingLimit_le_unitsOf.trans h),
    nearestBits_of_roundingLimit_le (roundingLimit_le_unitsOf.trans h')]

/-- Sixteen times a double is the double of sixteen times its number. -/
lemma ofUnits_mul_sixteen (count : ℕ) :
    ofUnits false count * 16 = ofUnits false (rounded count * 16) := by
  have hproduct : ofUnits false count * 16 = ofUnits false (unitsOf (nearestBits count 1) * 16) :=
    ofMagnitudeBits_mul_sixteen (nearestBits_le count 1)
  rw [hproduct, unitsOf_nearestBits]
  rcases Nat.le_total (rounded count) (unitsOf infinityBits) with hle | hle
  · rw [Nat.min_eq_left hle]
  · rw [Nat.min_eq_right hle]
    exact ofUnits_of_unitsOf_infinityBits_le (Nat.le_mul_of_pos_right _ (by decide))
      (hle.trans (Nat.le_mul_of_pos_right _ (by decide)))

/-- The sum of two doubles is the double of the sum of their numbers. -/
lemma ofUnits_add (count count' : ℕ) :
    ofUnits false count + ofUnits false count' =
      ofUnits false (rounded count + rounded count') := by
  have hsum : ofUnits false count + ofUnits false count' =
      ofUnits false (unitsOf (nearestBits count 1) + unitsOf (nearestBits count' 1)) :=
    ofMagnitudeBits_add (nearestBits_le count 1) (nearestBits_le count' 1)
  rw [hsum, unitsOf_nearestBits, unitsOf_nearestBits]
  rcases Nat.le_total (rounded count) (unitsOf infinityBits) with hle | hle
  · rcases Nat.le_total (rounded count') (unitsOf infinityBits) with hle' | hle'
    · rw [Nat.min_eq_left hle, Nat.min_eq_left hle']
    · rw [Nat.min_eq_left hle, Nat.min_eq_right hle']
      exact ofUnits_of_unitsOf_infinityBits_le (Nat.le_add_left _ _)
        (hle'.trans (Nat.le_add_left _ _))
  · rw [Nat.min_eq_right hle]
    exact ofUnits_of_unitsOf_infinityBits_le (Nat.le_add_right _ _)
      (hle.trans (Nat.le_add_right _ _))

/-! ## Natural numbers -/

variable {n d : ℕ}

/-- Whole numbers of ones are rounded as these numbers are. -/
lemma rounded_mul_one (n : ℕ) : rounded (n * one) = rounded n * one := by
  rw [one_eq, rounded_mul_two_pow]

/-- Natural numbers that are rounded alike have the same double. -/
lemma ofNat_congr {m n : ℕ} (h : rounded m = rounded n) : ofNat m = ofNat n := by
  rw [ofNat_eq, ofNat_eq, ← ofUnits_rounded (m * one), ← ofUnits_rounded (n * one), rounded_mul_one,
    rounded_mul_one, h]

/-- Sixteen times the double of a number and a digit: only the number is rounded before the digit is
added. -/
lemma ofNat_mul_sixteen_add (n : ℕ) (hd : d < 2 * leadingBit) :
    ofNat n * 16 + ofNat d = ofNat (rounded n * 16 + d) := by
  have hproduct : rounded (rounded (n * one) * 16) = rounded n * 16 * one := by
    calc rounded (rounded (n * one) * 16) = rounded (rounded (n * one)) * 16 :=
      rounded_mul_two_pow _ 4
      _ = rounded n * 16 * one := by rw [rounded_rounded, rounded_mul_one, Nat.mul_right_comm]
  rw [ofNat_eq, ofNat_eq, ofNat_eq, ofUnits_mul_sixteen, ofUnits_add, hproduct, rounded_mul_one d,
    rounded_of_lt hd, ← Nat.add_mul]

end Reckon.Binary64
