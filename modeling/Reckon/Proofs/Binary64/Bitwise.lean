import Reckon.Proofs.Binary64.Value
import Reckon.Operation

/-!
# Doubles as words

The whole part of a double, wrapped into 32 bits, is the word that the bitwise operations work on
(`toNat_word_eq_iff`), if it is in the range of signed 64-bit integers.  Beyond that range the whole
part is first replaced by an end of the range; this does no harm only to multiples of `2 ^ 32` below
the range.
-/

namespace Reckon

namespace Binary64

variable {x : Float} {q : ℚ}

/-- The whole number next to a number on the side of zero. -/
def towardZero (q : ℚ) : ℤ := if 0 ≤ q then ⌊q⌋ else ⌈q⌉

/-- The whole part of a number, wrapped into 32 bits. -/
def wrapped (q : ℚ) : ℕ := (towardZero q % 2 ^ 32).toNat

/-- Whether the whole part of a number can be wrapped into 32 bits by way of a signed 64-bit
integer. -/
def WrapsExactly (q : ℚ) : Prop :=
  towardZero q < 2 ^ 63 ∧ (-2 ^ 63 ≤ towardZero q ∨ 2 ^ 32 ∣ towardZero q)

/-- A number that is not positive is cut to minus its whole part. -/
lemma towardZero_neg (h : 0 ≤ q) : towardZero (-q) = -⌊q⌋ := by
  unfold towardZero
  rcases h.eq_or_lt with rfl | hpos
  · rw [neg_zero, if_pos le_rfl, Int.floor_zero, neg_zero]
  · rw [if_neg (by linarith), Int.ceil_neg]

/-- A double is truncated toward zero. -/
lemma truncate_eq (h : isFinite x = true) : truncate x = towardZero (value x) := by
  have hnonneg : (0 : ℚ) ≤ units x / one := div_nonneg (Nat.cast_nonneg _) (Nat.cast_nonneg _)
  have hfloor : ⌊(units x / one : ℚ)⌋ = ((units x / one : ℕ) : ℤ) :=
    Rat.floor_natCast_div_natCast _ _
  rw [truncate, value_eq h]
  cases signBit x with
  | false =>
    rw [if_neg Bool.false_ne_true, if_neg Bool.false_ne_true, towardZero, if_pos hnonneg, hfloor]
  | true =>
    rw [if_pos rfl, if_pos rfl, neg_div, towardZero_neg hnonneg, hfloor]

/-- What is finite is a number. -/
lemma isNaN_of_isFinite (h : isFinite x = true) : x.isNaN = false := by
  rw [isFinite_iff] at h
  unfold Float.isNaN Float.Model.isNaN
  rcases Nat.eq_zero_or_pos (magnitudeBits x) with hzero | hpos
  · rw [unpack_of_eq_zero hzero]
    rfl
  · obtain ⟨h', hunpack⟩ := unpack_of_lt hpos h
    rw [hunpack]
    rfl

/-- A finite double is cut to its whole part and brought into the range of 64-bit integers. -/
lemma toInteger_eq (h : isFinite x = true) : toInteger x = clamp (towardZero (value x)) := by
  rw [toInteger, isNaN_of_isFinite h, if_neg Bool.false_ne_true, if_pos h, truncate_eq h]

lemma twoTo_thirtyTwo : (twoTo 32 : ℤ) = 4294967296 := rfl

/-- The word of a finite double is its whole part in that range, modulo `2 ^ 32`. -/
lemma toNat_word (h : isFinite x = true) :
    (word x).toNat = (clamp (towardZero (value x)) % 4294967296).toNat := by
  have hlt := Int.emod_lt_of_pos (clamp (towardZero (value x))) (b := 4294967296) (by decide)
  rw [word, toInteger_eq h, twoTo_thirtyTwo, UInt32.toNat_ofNat']
  omega

/-- A double from `2 ^ 63` on is an even number: its significand is shifted. -/
lemma even_units_div_one (h : 2 * leadingBit ≤ units x / one) : 2 ∣ units x / one := by
  set p := place (magnitudeBits x) with hp
  have hunits : units x = significand (magnitudeBits x) * 2 ^ p := unitsOf_eq _
  have hplace : 1074 < p := by
    by_contra hle
    have hpow : 2 ^ p ≤ one := twoTo_le_twoTo (Nat.le_of_not_lt hle)
    have hlt : units x < 2 * leadingBit * one := by
      calc units x = significand (magnitudeBits x) * 2 ^ p := hunits
        _ ≤ significand (magnitudeBits x) * one := Nat.mul_le_mul_left _ hpow
        _ < 2 * leadingBit * one := Nat.mul_lt_mul_of_pos_right (significand_lt _) one_pos
    exact absurd ((Nat.le_div_iff_mul_le one_pos).1 h) (Nat.not_le_of_lt hlt)
  have hshift : units x = significand (magnitudeBits x) * 2 ^ (p - 1075) * 2 * one := by
    have hpow : 2 ^ p = 2 ^ (p - 1075) * 2 * one := by
      rw [one_eq, ← Nat.pow_succ, ← Nat.pow_add]
      congr 1
      omega
    rw [hunits, hpow, Nat.mul_assoc, Nat.mul_assoc, Nat.mul_assoc]
  rw [hshift, Nat.mul_div_cancel _ one_pos]
  exact Nat.dvd_mul_left _ _

/-- From `2 ^ 63` on finite doubles are even. -/
lemma even_towardZero (hfinite : isFinite x = true) (h : 2 ^ 63 ≤ towardZero (value x)) :
    2 ∣ towardZero (value x) := by
  have heven := even_units_div_one (x := x)
  rw [← truncate_eq hfinite, truncate] at h ⊢
  rw [leadingBit_eq] at heven
  generalize units x / one = k at *
  cases hsign : signBit x with
  | true =>
    rw [hsign, if_pos rfl] at h
    omega
  | false =>
    rw [hsign, if_neg Bool.false_ne_true] at h
    rw [if_neg Bool.false_ne_true]
    omega

/-- A double is wrapped exactly. -/
lemma toNat_word_eq_iff (h : isFinite x = true) :
    (word x).toNat = wrapped (value x) ↔ WrapsExactly (value x) := by
  have heven := even_towardZero h
  rw [toNat_word h]
  unfold clamp wrapped WrapsExactly
  rw [signPlace_eq]
  generalize towardZero (value x) = t at *
  omega

lemma wrapped_lt (q : ℚ) : wrapped q < 2 ^ 32 := by
  have hlt := Int.emod_lt_of_pos (towardZero q) (b := 2 ^ 32) (by decide)
  unfold wrapped
  omega

/-- The double of a word is the number of the word. -/
lemma represents_toFloat (n : UInt32) : Represents n.toFloat n.toNat := by
  have hlt := n.toNat_lt
  rw [toFloat_eq_ofNat]
  refine represents_ofNat ?_
  rw [leadingBit_eq]
  omega

/-- A double represents one number only. -/
lemma Represents.unique {m n : ℕ} (hm : Represents x m) (hn : Represents x n) : m = n := by
  have hvalue := hm.value_eq.symm.trans hn.value_eq
  exact_mod_cast hvalue

end Binary64

open Binary64

/-- The bitwise operators work on the whole parts of their operands, wrapped into 32 bits, and their
results are exact, for all finite operands that are wrapped exactly.  An operand that is not gives
itself away: its complement is another number. -/
theorem BinaryOp.represents_bitwise {a b : Float} (ha : isFinite a = true)
    (hb : isFinite b = true) :
    let u := wrapped (value a)
    let v := wrapped (value b)
    (Represents (UnaryOp.bitNot.apply a) (2 ^ 32 - 1 - u) ↔ WrapsExactly (value a)) ∧
    (WrapsExactly (value a) → WrapsExactly (value b) →
      Represents (BinaryOp.bitAnd.apply a b) (u &&& v) ∧
      Represents (BinaryOp.bitOr.apply a b) (u ||| v) ∧
      Represents (BinaryOp.bitXor.apply a b) (u ^^^ v) ∧
      Represents (BinaryOp.shl.apply a b) (u * 2 ^ (v % 32) % 2 ^ 32) ∧
      Represents (BinaryOp.shr.apply a b) (u / 2 ^ (v % 32))) := by
  intro u v
  have hnot := represents_toFloat (~~~ word a)
  rw [UInt32.toNat_not] at hnot
  refine ⟨?_, fun hwa hwb => ?_⟩
  · rw [← toNat_word_eq_iff ha]
    have hu : u < 2 ^ 32 := wrapped_lt _
    have hlt := (word a).toNat_lt
    constructor
    · intro h
      have heq := h.unique hnot
      unfold UInt32.size at heq
      omega
    · intro h
      have heq : 2 ^ 32 - 1 - u = UInt32.size - 1 - (word a).toNat := by rw [h]; rfl
      rw [heq]
      exact hnot
  · rw [← toNat_word_eq_iff ha] at hwa
    rw [← toNat_word_eq_iff hb] at hwb
    have hu : u = (word a).toNat := hwa.symm
    have hv : v = (word b).toNat := hwb.symm
    rw [hu, hv, ← UInt32.toNat_and, ← UInt32.toNat_or, ← UInt32.toNat_xor, ← Nat.shiftLeft_eq,
      ← UInt32.toNat_shiftLeft, ← Nat.shiftRight_eq_div_pow, ← UInt32.toNat_shiftRight]
    exact ⟨represents_toFloat _, represents_toFloat _, represents_toFloat _, represents_toFloat _,
      represents_toFloat _⟩

/-- A fraction of a negative number is cut off, and `2 ^ 32 + 4` shifts by four. -/
theorem BinaryOp.represents_bitwise_neg_three_halves :
    let a := Float.ofBits 0xbff8000000000000
    let b := Float.ofBits 0x41f0000000400000
    isFinite a = true ∧ isFinite b = true ∧ WrapsExactly (value a) ∧ WrapsExactly (value b) ∧
      Represents (UnaryOp.bitNot.apply a) 0 ∧ Represents (BinaryOp.bitAnd.apply a b) 4 ∧
      Represents (BinaryOp.bitOr.apply a b) 4294967295 ∧
      Represents (BinaryOp.bitXor.apply a b) 4294967291 ∧
      Represents (BinaryOp.shl.apply a b) 4294967280 ∧
      Represents (BinaryOp.shr.apply a b) 268435455 := by
  intro a b
  have ha : isFinite a = true := by decide
  have hb : isFinite b = true := by decide
  have hta : truncate a = -1 := by decide +kernel
  have htb : truncate b = 4294967300 := by decide +kernel
  rw [truncate_eq ha] at hta
  rw [truncate_eq hb] at htb
  have hwa : WrapsExactly (value a) := by
    rw [WrapsExactly, hta]
    decide
  have hwb : WrapsExactly (value b) := by
    rw [WrapsExactly, htb]
    decide
  have hu : wrapped (value a) = 4294967295 := by
    rw [wrapped, hta]
    decide
  have hv : wrapped (value b) = 4 := by
    rw [wrapped, htb]
    decide
  obtain ⟨hnot, hrest⟩ := BinaryOp.represents_bitwise ha hb
  have hall := hrest hwa hwb
  rw [hu] at hnot hall
  rw [hv] at hall
  exact ⟨ha, hb, hwa, hwb, hnot.2 hwa, hall⟩

/-- The conversion to signed 64-bit integers turns `2 ^ 63`, which is a multiple of `2 ^ 32`, into a
number whose last bits are all ones. -/
theorem BinaryOp.bitAnd_two_pow_sixtyThree :
    let a := Float.ofBits 0x43e0000000000000
    let b := Float.ofBits 0x41efffffffe00000
    isFinite a = true ∧ isFinite b = true ∧ wrapped (value a) &&& wrapped (value b) = 0 ∧
      BinaryOp.bitAnd.apply a b = Float.ofBits 0x41efffffffe00000 ∧
      ¬Represents (BinaryOp.bitAnd.apply a b) (wrapped (value a) &&& wrapped (value b)) := by
  intro a b
  have ha : isFinite a = true := by decide
  have hb : isFinite b = true := by decide
  have hta : truncate a = 2 ^ 63 := by decide +kernel
  have htb : truncate b = 4294967295 := by decide +kernel
  rw [truncate_eq ha] at hta
  rw [truncate_eq hb] at htb
  have hand : wrapped (value a) &&& wrapped (value b) = 0 := by
    rw [wrapped, wrapped, hta, htb]
    decide
  have hresult : BinaryOp.bitAnd.apply a b = Float.ofBits 0x41efffffffe00000 := by decide +kernel
  have hword : (word a &&& word b).toNat = 4294967295 := by decide +kernel
  have hbits : Represents (BinaryOp.bitAnd.apply a b) (word a &&& word b).toNat :=
    represents_toFloat _
  rw [hword] at hbits
  rw [hand]
  exact ⟨ha, hb, rfl, hresult, fun hzero => absurd (hbits.unique hzero) (by decide)⟩

end Reckon
