import Mathlib.Order.Compare
import Reckon.Proofs.Binary64.Value

/-!
# The order of doubles

Doubles are compared by their signs, then by their exponents and then by their significands.  For
finite doubles this is the order of the numbers they stand for (`compares_value`), so that the
comparisons can be read off their values (`lt_iff_value`, `le_iff_value`, `beq_iff_value`).  To
change the sign of a double is to change the sign of its value (`value_neg`).
-/

namespace Reckon.Binary64

open Float.Model

variable {x y : Float} {bits : ℕ}

/-! ## Comparisons -/

/-- Magnitude bits are compared by their places, and by their significands if these are equal. -/
lemma compares_bits (bits bits' : ℕ) :
    ((compare ((place bits : ℤ) - 1074) ((place bits' : ℤ) - 1074)).then
      (compare (significand bits) (significand bits'))).Compares bits bits' := by
  have hbits := place_mul_add_significand bits
  have hbits' := place_mul_add_significand bits'
  have hlt := significand_lt bits
  have hlt' := significand_lt bits'
  have hplace := place_eq_zero_or bits
  have hplace' := place_eq_zero_or bits'
  rw [leadingBit_eq] at *
  rcases Nat.lt_trichotomy (place bits) (place bits') with hp | hp | hp
  · rw [Int.compare_eq_lt.2 (by omega)]
    exact show bits < bits' by omega
  · rw [hp, Int.compare_eq_eq.2 rfl]
    rcases Nat.lt_trichotomy (significand bits) (significand bits') with hs | hs | hs
    · rw [Nat.compare_eq_lt.2 hs]
      exact show bits < bits' by rw [← hbits, ← hbits', hp]; omega
    · rw [hs, Nat.compare_eq_eq.2 rfl]
      exact show bits = bits' by rw [← hbits, ← hbits', hp, hs]
    · rw [Nat.compare_eq_gt.2 hs]
      exact show bits' < bits by rw [← hbits, ← hbits', hp]; omega
  · rw [Int.compare_eq_gt.2 (by omega)]
    exact show bits' < bits by omega

/-- The number that magnitude bits stand for. -/
def magnitude (bits : ℕ) : ℚ := unitsOf bits / one

/-- More bits stand for a larger number. -/
lemma magnitude_strictMono : StrictMono magnitude := fun _ _ h =>
  div_lt_div_of_pos_right (Nat.cast_lt.2 (unitsOf_strictMono h)) cast_one_pos

lemma magnitude_zero : magnitude 0 = 0 := by
  rw [magnitude, unitsOf_zero, Nat.cast_zero, zero_div]

/-- Bits other than zero stand for a positive number. -/
lemma magnitude_pos (h : 0 < bits) : 0 < magnitude bits :=
  magnitude_zero ▸ magnitude_strictMono h

/-- A finite double stands for its magnitude with its sign. -/
lemma value_eq_magnitude (h : isFinite x = true) :
    value x = if signBit x then -magnitude (magnitudeBits x) else magnitude (magnitudeBits x) := by
  rw [value_eq h, magnitude, units, ite_div, neg_div]

/-- Finite doubles are compared as the numbers they stand for. -/
theorem compares_value (hx : isFinite x = true) (hy : isFinite y = true) :
    ∃ o, x.toModel.unpack.compare y.toModel.unpack = some o ∧ o.Compares (value x) (value y) := by
  rw [value_eq_magnitude hx, value_eq_magnitude hy]
  rw [isFinite_iff] at hx hy
  rcases Nat.eq_zero_or_pos (magnitudeBits x) with hzero | hpos
  · rw [unpack_of_eq_zero hzero, hzero, magnitude_zero, neg_zero, ite_self]
    rcases Nat.eq_zero_or_pos (magnitudeBits y) with hzero' | hpos'
    · rw [unpack_of_eq_zero hzero', hzero', magnitude_zero, neg_zero, ite_self]
      exact ⟨.eq, rfl, rfl⟩
    · obtain ⟨h', hunpack'⟩ := unpack_of_lt hpos' hy
      have hmagnitude' := magnitude_pos hpos'
      rw [hunpack']
      cases signBit y with
      | false => exact ⟨.lt, rfl, hmagnitude'⟩
      | true => exact ⟨.gt, rfl, neg_lt_zero.2 hmagnitude'⟩
  · obtain ⟨h, hunpack⟩ := unpack_of_lt hpos hx
    have hmagnitude := magnitude_pos hpos
    rw [hunpack]
    rcases Nat.eq_zero_or_pos (magnitudeBits y) with hzero' | hpos'
    · rw [unpack_of_eq_zero hzero', hzero', magnitude_zero, neg_zero, ite_self]
      cases signBit x with
      | false => exact ⟨.gt, rfl, hmagnitude⟩
      | true => exact ⟨.lt, rfl, neg_lt_zero.2 hmagnitude⟩
    · obtain ⟨h', hunpack'⟩ := unpack_of_lt hpos' hy
      have hmagnitude' := magnitude_pos hpos'
      have hcompares := compares_bits (magnitudeBits x) (magnitudeBits y)
      rw [hunpack']
      cases signBit x with
      | false =>
        cases signBit y with
        | false => exact ⟨_, rfl, magnitude_strictMono.compares.2 hcompares⟩
        | true => exact ⟨.gt, rfl, (neg_lt_zero.2 hmagnitude').trans hmagnitude⟩
      | true =>
        cases signBit y with
        | false => exact ⟨.lt, rfl, (neg_lt_zero.2 hmagnitude).trans hmagnitude'⟩
        | true =>
          -- below zero the order of the magnitudes is turned around
          refine ⟨_, rfl, Ordering.compares_swap.2 ?_⟩
          exact magnitude_strictMono.neg.compares.2 hcompares

/-- Of finite doubles one is less if it stands for a smaller number. -/
lemma lt_iff_value (hx : isFinite x = true) (hy : isFinite y = true) :
    x < y ↔ value x < value y := by
  obtain ⟨o, hcompare, ho⟩ := compares_value hx hy
  have hlt : x < y ↔ (x.toModel.unpack.compare y.toModel.unpack == some .lt) = true :=
    decide_eq_true_iff
  rw [hlt, hcompare, beq_iff_eq, Option.some_inj, ho.eq_lt]

/-- Finite doubles are equal if they stand for the same number. -/
lemma beq_iff_value (hx : isFinite x = true) (hy : isFinite y = true) :
    (x == y) = true ↔ value x = value y := by
  obtain ⟨o, hcompare, ho⟩ := compares_value hx hy
  have heq : (x == y) = (x.toModel.unpack.compare y.toModel.unpack == some .eq) := rfl
  rw [heq, hcompare, beq_iff_eq, Option.some_inj, ho.eq_eq]

/-- Of finite doubles one is at most the other if this holds of their numbers. -/
lemma le_iff_value (hx : isFinite x = true) (hy : isFinite y = true) :
    x ≤ y ↔ value x ≤ value y := by
  obtain ⟨o, hcompare, ho⟩ := compares_value hx hy
  have hle : x ≤ y ↔ (x.toModel.unpack.compare y.toModel.unpack).any (·.isLE) = true :=
    decide_eq_true_iff
  rw [hle, hcompare, Option.any_some]
  cases o with
  | lt => exact iff_of_true rfl (le_of_lt ho)
  | eq => exact iff_of_true rfl (le_of_eq ho)
  | gt => exact iff_of_false Bool.false_ne_true (not_le_of_gt ho)

/-! ## Signs -/

/-- The sign of the opposite is the opposite sign. -/
lemma signOf_not (negative : Bool) : signOf (!negative) = -signOf negative := by
  cases negative with
  | false | true => rfl

/-- The sign of a number is changed, and nothing else. -/
lemma neg_eq (h : magnitudeBits x ≤ infinityBits) :
    -x = ofMagnitudeBits (!signBit x) (magnitudeBits x) := by
  have hbits := magnitudeBits_ofMagnitudeBits (!signBit x) h
  have hsign := signBit_ofMagnitudeBits (!signBit x) h
  generalize ofMagnitudeBits (!signBit x) (magnitudeBits x) = y at hbits hsign
  have hunpack : y.toModel.unpack = x.toModel.unpack.neg := by
    rcases Nat.eq_zero_or_pos (magnitudeBits x) with hzero | hpos
    · rw [unpack_of_eq_zero hzero, unpack_of_eq_zero (hbits.trans hzero), hsign, signOf_not]
      rfl
    · rcases Nat.lt_or_eq_of_le h with hlt | heq
      · obtain ⟨_, hx⟩ := unpack_of_lt hpos hlt
        obtain ⟨_, hy⟩ := unpack_of_lt (hbits ▸ hpos) (hbits ▸ hlt)
        simp only [hx, hy, hbits, hsign, signOf_not]
        rfl
      · rw [unpack_of_eq_infinityBits heq, unpack_of_eq_infinityBits (hbits.trans heq), hsign,
          signOf_not]
        rfl
  rw [← ofModel_pack_unpack y, hunpack]
  rfl

/-- The opposite of a finite double stands for the opposite number. -/
theorem value_neg (h : isFinite x = true) : isFinite (-x) = true ∧ value (-x) = -value x := by
  have hlt := (isFinite_iff x).1 h
  have hbits := magnitudeBits_ofMagnitudeBits (!signBit x) hlt.le
  have hfinite : isFinite (-x) = true := by rwa [isFinite_iff, neg_eq hlt.le, hbits]
  refine ⟨hfinite, ?_⟩
  rw [value_eq_magnitude hfinite, value_eq_magnitude h, neg_eq hlt.le, hbits,
    signBit_ofMagnitudeBits _ hlt.le]
  cases signBit x with
  | false => rfl
  | true => exact (neg_neg _).symm

end Reckon.Binary64
