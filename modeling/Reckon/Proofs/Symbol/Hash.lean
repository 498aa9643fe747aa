import Mathlib.Data.FinEnum
import Mathlib.Data.Fintype.Card
import Mathlib.Tactic.Common
import Reckon.Symbol.Hash

/-!
# What hashing keeps apart

Mixing a hash loses nothing: it takes the 64-bit words to one another one to one, since an exclusive
or with what is shifted to the right can be undone from the high bits downwards, and a
multiplication by an odd number by another one (`Hash.injective_avalanche`).  For the same reasons a
step of the hash keeps apart both different hashes and different bytes, so names of the same length
that differ in one byte have different hashes, whatever stands before and behind it
(`Hash.bijective_avalanche_and_separates`).
-/

namespace Reckon.Hash

open Function

/-- A word is known from its exclusive or with itself shifted to the right. -/
lemma injective_xor_ushiftRight {w k : ℕ} (hk : 0 < k) :
    Injective fun x : BitVec w => x ^^^ (x >>> k) := by
  intro x y heq
  -- by induction on how far from the high end a bit is
  have hbits : ∀ distance i, w ≤ i + distance → x.getLsbD i = y.getLsbD i := by
    intro distance
    induction distance with
    | zero =>
      intro i hi
      rw [BitVec.getLsbD_of_ge x i hi, BitVec.getLsbD_of_ge y i hi]
    | succ distance ih =>
      intro i hi
      have hbit := congrArg (fun word : BitVec w => word.getLsbD i) heq
      simp only [BitVec.getLsbD_xor, BitVec.getLsbD_ushiftRight] at hbit
      rw [ih (k + i) (by omega)] at hbit
      exact Bool.xor_left_inj.1 hbit
  exact BitVec.eq_of_getLsbD_eq fun i hi => hbits (w - i) i (by omega)

/-- An exclusive or with what is shifted to the right can be undone. -/
lemma injective_xor_shiftRight {k : UInt64} (hk : 0 < (k.toBitVec % 64).toNat) :
    Injective fun x : UInt64 => x ^^^ (x >>> k) := by
  intro x y heq
  have hwords := congrArg UInt64.toBitVec heq
  simp only [UInt64.toBitVec_xor, UInt64.toBitVec_shiftRight, BitVec.ushiftRight_eq'] at hwords
  exact UInt64.toBitVec_inj.1 (injective_xor_ushiftRight hk hwords)

/-- A multiplication can be undone if its factor has an inverse. -/
lemma injective_mul (factor inverse : UInt64) (h : factor * inverse = 1) :
    Injective fun x : UInt64 => x * factor := by
  intro x y heq
  have hback := congrArg (· * inverse) heq
  simpa only [UInt64.mul_assoc, h, UInt64.mul_one] using hback

/-- Mixing can be undone. -/
lemma injective_avalanche : Injective avalanche := by
  have hfirst := injective_xor_shiftRight (k := 16) (by decide)
  have hmul := injective_mul 0x517cc1b727220a95 0x2040003d780970bd (by decide)
  have hlast := injective_xor_shiftRight (k := 32) (by decide)
  exact hlast.comp (hmul.comp hfirst)

/-! ## Steps of the hash -/

/-- A step gives the same where the hash and the byte together do. -/
lemma step_eq_iff {hash hash' : UInt64} {byte byte' : UInt8} :
    step hash byte = step hash' byte' ↔ hash ^^^ byte.toUInt64 = hash' ^^^ byte'.toUInt64 :=
  (injective_mul 0x100000001b3 0xce965057aff6957b (by decide)).eq_iff

/-- The same bytes keep different hashes apart. -/
lemma injective_foldl_step (bytes : List UInt8) : Injective fun hash => bytes.foldl step hash := by
  induction bytes with
  | nil => exact injective_id
  | cons byte bytes ih =>
    intro hash hash' heq
    exact (UInt64.xor_left_inj _).1 (step_eq_iff.1 (ih heq))

/-- Strings that differ in one byte have different hashes. -/
lemma fnv1a_append_cons_ne (before after : List UInt8) {a b : UInt8} (h : a ≠ b) :
    fnv1a (before ++ a :: after) ≠ fnv1a (before ++ b :: after) := by
  unfold fnv1a
  rw [List.foldl_append, List.foldl_append, List.foldl_cons, List.foldl_cons]
  intro heq
  have hstep := injective_foldl_step after heq
  exact h (UInt8.toUInt64_inj.1 ((UInt64.xor_right_inj _).1 (step_eq_iff.1 hstep)))

/-- Lists of one length that differ at one position have the same elements before and behind it. -/
lemma exists_append_cons {α : Type} {first second : List α} (hlength : first.length = second.length)
    (h : ∃! i : ℕ, first[i]? ≠ second[i]?) :
    ∃ before a b after, a ≠ b ∧ first = before ++ a :: after ∧ second = before ++ b :: after := by
  obtain ⟨i, hne, honly⟩ := h
  have hsame : ∀ j, j ≠ i → first[j]? = second[j]? := fun j hj =>
    not_not.1 fun hdiffers => hj (honly j hdiffers)
  have hi : i < first.length := by
    by_contra hend
    have hend := Nat.not_lt.1 hend
    exact hne (by rw [List.getElem?_eq_none hend, List.getElem?_eq_none (hlength ▸ hend)])
  have hi' : i < second.length := hlength ▸ hi
  have hbefore : first.take i = second.take i := by
    apply List.ext_getElem?
    intro j
    rw [List.getElem?_take, List.getElem?_take]
    split
    · rename_i hj
      exact hsame j (Nat.ne_of_lt hj)
    · rfl
  have hafter : first.drop (i + 1) = second.drop (i + 1) := by
    apply List.ext_getElem?
    intro j
    rw [List.getElem?_drop, List.getElem?_drop]
    exact hsame _ (by omega)
  refine ⟨first.take i, first[i], second[i], first.drop (i + 1), ?_, ?_, ?_⟩
  · rw [List.getElem?_eq_getElem hi, List.getElem?_eq_getElem hi'] at hne
    exact fun heq => hne (congrArg some heq)
  · rw [List.getElem_cons_drop, List.take_append_drop]
  · rw [hbefore, hafter, List.getElem_cons_drop, List.take_append_drop]

/-! ## The theorem -/

/-- Mixing takes the 64-bit words to one another one to one.  Bytes of which there are equally many,
and which differ at exactly one position, have different hashes, before and after mixing. -/
theorem bijective_avalanche_and_separates :
    Bijective avalanche ∧
      ∀ first second : List UInt8, first.length = second.length →
        (∃! i : ℕ, first[i]? ≠ second[i]?) →
        fnv1a first ≠ fnv1a second ∧ avalanche (fnv1a first) ≠ avalanche (fnv1a second) := by
  refine ⟨Finite.injective_iff_bijective.1 injective_avalanche, fun first second hlength h => ?_⟩
  obtain ⟨before, a, b, after, hne, rfl, rfl⟩ := exists_append_cons hlength h
  have hhash := fnv1a_append_cons_ne before after hne
  exact ⟨hhash, injective_avalanche.ne hhash⟩

/-- Names that differ in a byte in the middle have different hashes. -/
theorem avalanche_fnv1a_ne_of_middle_byte :
    let first := bytes "alpha_x_1"
    let second := bytes "alpha_y_1"
    first.length = second.length ∧ (∃! i : ℕ, first[i]? ≠ second[i]?) ∧
      avalanche (fnv1a first) ≠ avalanche (fnv1a second) := by
  intro first second
  have hlength : first.length = second.length := by decide +kernel
  have hone : ∃! i : ℕ, first[i]? ≠ second[i]? := by
    refine ⟨6, by decide +kernel, fun i hi => ?_⟩
    have hlt : i < 9 := by
      by_contra hge
      have hfirst : first.length = 9 := by decide +kernel
      have hsecond : second.length = 9 := hlength ▸ hfirst
      exact hi (by rw [List.getElem?_eq_none (by omega), List.getElem?_eq_none (by omega)])
    have hall : ∀ i < 9, first[i]? ≠ second[i]? → i = 6 := by decide +kernel
    exact hall i hlt hi
  exact ⟨hlength, hone, (bijective_avalanche_and_separates.2 first second hlength hone).2⟩

end Reckon.Hash
