import Reckon.Operation
import Reckon.Proofs.Binary64.Bitwise
import Reckon.Proofs.Binary64.Order

/-!
# What operations compute

For finite operands the operations that are not left to the library of mathematical functions are
those on the numbers that the operands stand for: the sign is changed (`UnaryOp.value_apply_neg`),
comparisons and connectives are true where they should be (`BinaryOp.apply_comparison`,
`BinaryOp.apply_connective`), the larger and the smaller number are found
(`BinaryOp.value_apply_max_min`), and where there is no quotient, remainder, logarithm or root,
there is a fixed result (`BinaryOp.apply_by_zero`, `UnaryOp.apply_of_value_nonpos`).
-/

namespace Reckon

open Binary64

variable {x a b : Float}

/-- Zero stands for the number zero. -/
lemma isFinite_zero : isFinite 0 = true ∧ value 0 = 0 := by
  have hzero : magnitudeBits 0 = 0 := by decide
  have hfinite : isFinite 0 = true := by decide
  refine ⟨hfinite, ?_⟩
  rw [value_eq_magnitude hfinite, hzero, magnitude_zero, neg_zero, ite_self]

/-- A finite double is zero if it stands for zero. -/
lemma beq_zero_iff (h : isFinite x = true) : (x == 0) = true ↔ value x = 0 := by
  rw [beq_iff_value h isFinite_zero.1, isFinite_zero.2]

/-- A finite double is true unless it stands for zero. -/
lemma isTrue_eq (h : isFinite x = true) : isTrue x = decide (value x ≠ 0) := by
  rw [Bool.eq_iff_iff, decide_eq_true_iff, isTrue, bne, Bool.not_eq_true', ← Bool.not_eq_true,
    beq_zero_iff h]

/-- Finite doubles are the same if they stand for the same number. -/
lemma sameNumber_eq (ha : isFinite a = true) (hb : isFinite b = true) :
    sameNumber a b = decide (value a = value b) := by
  rw [sameNumber_eq_beq (isNaN_of_isFinite ha) (isNaN_of_isFinite hb), Bool.eq_iff_iff,
    decide_eq_true_iff, beq_iff_value ha hb]

namespace UnaryOp

/-- The opposite of a number. -/
theorem value_apply_neg (h : isFinite x = true) :
    isFinite (neg.apply x) = true ∧ value (neg.apply x) = -value x :=
  value_neg h

/-- Zero is the only number that is false. -/
theorem apply_not (h : isFinite x = true) : not.apply x = truth (value x = 0) :=
  congrArg truth (Bool.eq_iff_iff.2 (by rw [beq_zero_iff h, decide_eq_true_iff]))

/-- Logarithms and roots of numbers that are not positive are zero. -/
theorem apply_of_value_nonpos {f : UnaryOp} (hf : f ∈ [log, log10, sqrt]) (h : isFinite x = true)
    (hx : value x ≤ 0) : f.apply x = 0 := by
  refine apply_of_le_zero hf ((le_iff_value h isFinite_zero.1).2 ?_)
  rwa [isFinite_zero.2]

end UnaryOp

namespace BinaryOp

/-- Comparisons are those of numbers. -/
theorem apply_comparison (ha : isFinite a = true) (hb : isFinite b = true) :
    lt.apply a b = truth (value a < value b) ∧ gt.apply a b = truth (value a > value b) ∧
      le.apply a b = truth (value a ≤ value b) ∧ ge.apply a b = truth (value a ≥ value b) ∧
      eq.apply a b = truth (value a = value b) ∧ ne.apply a b = truth (value a ≠ value b) := by
  simp only [apply, lt_iff_value ha hb, lt_iff_value hb ha, le_iff_value ha hb, le_iff_value hb ha,
    sameNumber_eq ha hb, decide_not, gt_iff_lt, ge_iff_le, ne_eq, and_self]

/-- Connectives take all numbers but zero for true. -/
theorem apply_connective (ha : isFinite a = true) (hb : isFinite b = true) :
    and.apply a b = truth (value a ≠ 0 ∧ value b ≠ 0) ∧
      or.apply a b = truth (value a ≠ 0 ∨ value b ≠ 0) := by
  simp only [apply, isTrue_eq ha, isTrue_eq hb, Bool.decide_and, Bool.decide_or, and_self]

/-- The larger and the smaller one of two numbers are one of them. -/
theorem value_apply_max_min (ha : isFinite a = true) (hb : isFinite b = true) :
    value (max.apply a b) = Max.max (value a) (value b) ∧
      value (min.apply a b) = Min.min (value a) (value b) := by
  have hmax : max.apply a b = if value a < value b then b else a := by
    simp only [apply, larger, isNaN_of_isFinite ha, isNaN_of_isFinite hb, Bool.false_eq_true,
      if_false, lt_iff_value ha hb]
  have hmin : min.apply a b = if value b < value a then b else a := by
    simp only [apply, smaller, isNaN_of_isFinite ha, isNaN_of_isFinite hb, Bool.false_eq_true,
      if_false, lt_iff_value hb ha]
  rw [hmax, hmin]
  constructor
  · split
    · rename_i hlt
      rw [max_eq_right hlt.le]
    · rename_i hle
      rw [max_eq_left (not_lt.1 hle)]
  · split
    · rename_i hlt
      rw [min_eq_right hlt.le]
    · rename_i hle
      rw [min_eq_left (not_lt.1 hle)]

/-- A number divided by zero is a fixed number, or zero if it is zero itself, and leaves no
remainder. -/
theorem apply_by_zero (ha : isFinite a = true) (hb : isFinite b = true) (hzero : value b = 0) :
    div.apply a b = (if value a = 0 then 0 else quotientByZero) ∧ mod.apply a b = 0 := by
  have hnumber := isNaN_of_isFinite ha
  have hbeq := (beq_zero_iff hb).2 hzero
  refine ⟨?_, modulo_by_zero hnumber hbeq⟩
  rw [apply, divide_by_zero hnumber (isNaN_of_isFinite hb) hbeq]
  simp only [beq_zero_iff ha]

/-- The number that stands for quotients by zero is the largest one in single precision. -/
lemma value_quotientByZero : value quotientByZero = (2 ^ 24 - 1) * 2 ^ 104 := by
  have hfinite : isFinite quotientByZero = true := by decide
  have hsign : signBit quotientByZero = false := by decide
  have hunits : units quotientByZero = (2 ^ 24 - 1) * 2 ^ 104 * one := by decide +kernel
  have hone : (one : ℚ) ≠ 0 := cast_one_pos.ne'
  rw [value_eq hfinite, hsign, if_neg Bool.false_ne_true, hunits]
  push_cast
  rw [mul_div_assoc, div_self hone, mul_one]
  norm_num

end BinaryOp

end Reckon
