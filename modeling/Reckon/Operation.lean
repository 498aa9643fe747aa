import Reckon.Binary64.Word
import Reckon.Binary64.Remainder

/-!
# Operations

The operations that expressions are built from, sorted by the number of their operands, and what
they compute.  Every operation is defined for all operands: where mathematics has no answer
(division by zero, the logarithm of a negative number, the order of what is not a number) a value is
fixed here.  Truth values are the numbers one and zero, and every number other than zero is true.
-/

namespace Reckon

/-- The named constants. -/
inductive Constant
  | pi | e | nan
  deriving DecidableEq, Repr

/-- The operations on one number. -/
inductive UnaryOp
  | neg | not | bitNot
  | abs | acos | asin | atan | ceil | cos | cosh | exp | floor | log | log10 | round
  | sin | sinh | sqrt | tan | tanh
  deriving DecidableEq, Repr

/-- The operations on two numbers. -/
inductive BinaryOp
  | add | sub | mul | div | mod
  | shl | shr | bitAnd | bitXor | bitOr
  | lt | gt | le | ge | eq | ne | and | or
  | atan2 | max | min | pow
  deriving DecidableEq, Repr

/-- A truth value as a number. -/
def truth (b : Bool) : Float := if b then 1 else 0

/-- Whether a number counts as true. -/
def isTrue (x : Float) : Bool := x != 0

/-- A truth value is read back from its number. -/
@[simp] theorem isTrue_truth (b : Bool) : isTrue (truth b) = b := by
  cases b with
  | false | true => decide

/-- What a number divided by zero is, unless it is zero itself: the largest single-precision
number. -/
def quotientByZero : Float := Float.ofBits 0x47efffffe0000000

/-- Equality of numbers, in which what is not a number equals itself. -/
def sameNumber (a b : Float) : Bool :=
  if a.isNaN || b.isNaN then a.isNaN && b.isNaN else a == b

/-- What is not a number equals just what is not a number either. -/
theorem sameNumber_of_isNaN {a : Float} (h : a.isNaN = true) (b : Float) :
    sameNumber a b = b.isNaN := by
  rw [sameNumber, h, Bool.true_or, if_pos rfl, Bool.true_and]

/-- Numbers are compared as such. -/
theorem sameNumber_eq_beq {a b : Float} (ha : a.isNaN = false) (hb : b.isNaN = false) :
    sameNumber a b = (a == b) := by
  rw [sameNumber, ha, hb, Bool.or_self, if_neg Bool.false_ne_true]

/-- Division, with a finite result for a zero divisor. -/
def divide (a b : Float) : Float :=
  if a.isNaN || b.isNaN then Binary64.nan
  else if b == 0 then (if a == 0 then 0 else quotientByZero)
  else a / b

/-- Division by what is not a number, or of it, has no result. -/
theorem divide_of_isNaN {a b : Float} (h : a.isNaN = true ∨ b.isNaN = true) :
    divide a b = Binary64.nan :=
  if_pos (Bool.or_eq_true_iff.2 h)

/-- The quotients of numbers by zero are finite. -/
theorem divide_by_zero {a b : Float} (ha : a.isNaN = false) (hb : b.isNaN = false)
    (hzero : (b == 0) = true) : divide a b = if a == 0 then 0 else quotientByZero := by
  rw [divide, ha, hb, Bool.or_self, if_neg Bool.false_ne_true, if_pos hzero]

/-- Other quotients are as usual. -/
theorem divide_eq_div {a b : Float} (ha : a.isNaN = false) (hb : b.isNaN = false)
    (hzero : (b == 0) = false) : divide a b = a / b := by
  rw [divide, ha, hb, Bool.or_self, if_neg Bool.false_ne_true, hzero, if_neg Bool.false_ne_true]

/-- The remainder of the division cut toward zero; zero for a zero divisor. -/
def modulo (a b : Float) : Float :=
  if b == 0 && !a.isNaN then 0 else Binary64.remainder a b

/-- The remainders of numbers by zero are zero. -/
theorem modulo_by_zero {a b : Float} (ha : a.isNaN = false) (hzero : (b == 0) = true) :
    modulo a b = 0 := by
  rw [modulo, ha, hzero, Bool.not_false, Bool.and_self, if_pos rfl]

/-- The larger of two numbers; a number is preferred to what is not one. -/
def larger (a b : Float) : Float :=
  if a.isNaN then b else if b.isNaN then a else if a < b then b else a

/-- What is not a number is never the larger one. -/
theorem larger_of_isNaN {a b : Float} (h : a.isNaN = true) :
    larger a b = b ∧ (b.isNaN = false → larger b a = b) := by
  refine ⟨if_pos h, fun hb => ?_⟩
  rw [larger, hb, if_neg Bool.false_ne_true, if_pos h]

/-- The smaller of two numbers; a number is preferred to what is not one. -/
def smaller (a b : Float) : Float :=
  if a.isNaN then b else if b.isNaN then a else if b < a then b else a

/-- What is not a number is never the smaller one. -/
theorem smaller_of_isNaN {a b : Float} (h : a.isNaN = true) :
    smaller a b = b ∧ (b.isNaN = false → smaller b a = b) := by
  refine ⟨if_pos h, fun hb => ?_⟩
  rw [smaller, hb, if_neg Bool.false_ne_true, if_pos h]

namespace Constant

/-- The value of a named constant. -/
def value : Constant → Float
  | pi => Float.ofBits 0x400921fb54442d18
  | e => Float.ofBits 0x4005bf0a8b145769
  | nan => Binary64.nan

end Constant

namespace UnaryOp

/-- What an operation makes of its operand.  Logarithms and roots of numbers that are not positive
are zero. -/
def apply (f : UnaryOp) (x : Float) : Float :=
  match f with
  | neg => -x
  | not => truth (x == 0)
  | bitNot => (~~~ Binary64.word x).toFloat
  | abs => x.abs
  | acos => x.acos
  | asin => x.asin
  | atan => x.atan
  | ceil => x.ceil
  | cos => x.cos
  | cosh => x.cosh
  | exp => x.exp
  | floor => x.floor
  | log => if x ≤ 0 then 0 else x.log
  | log10 => if x ≤ 0 then 0 else x.log10
  | round => x.round
  | sin => x.sin
  | sinh => x.sinh
  | sqrt => if x ≤ 0 then 0 else x.sqrt
  | tan => x.tan
  | tanh => x.tanh

/-- Negation turns truth around. -/
theorem isTrue_apply_not (x : Float) : isTrue (not.apply x) = !isTrue x := by
  rw [apply, isTrue_truth, isTrue, bne, Bool.not_not]

/-- Logarithms and roots of numbers that are not positive are zero. -/
theorem apply_of_le_zero {f : UnaryOp} {x : Float} (hf : f ∈ [log, log10, sqrt]) (hx : x ≤ 0) :
    f.apply x = 0 := by
  simp only [List.mem_cons, List.not_mem_nil, or_false] at hf
  obtain rfl | rfl | rfl := hf
  · exact if_pos hx
  · exact if_pos hx
  · exact if_pos hx

end UnaryOp

namespace BinaryOp

/-- What an operation makes of its operands.  The bitwise operations work on the words of their
operands, and shift by the word of the second modulo 32. -/
def apply (f : BinaryOp) (a b : Float) : Float :=
  match f with
  | add => a + b
  | sub => a - b
  | mul => a * b
  | div => divide a b
  | mod => modulo a b
  | shl => (Binary64.word a <<< Binary64.word b).toFloat
  | shr => (Binary64.word a >>> Binary64.word b).toFloat
  | bitAnd => (Binary64.word a &&& Binary64.word b).toFloat
  | bitXor => (Binary64.word a ^^^ Binary64.word b).toFloat
  | bitOr => (Binary64.word a ||| Binary64.word b).toFloat
  | lt => truth (a < b)
  | gt => truth (b < a)
  | le => truth (a ≤ b)
  | ge => truth (b ≤ a)
  | eq => truth (sameNumber a b)
  | ne => truth (!sameNumber a b)
  | and => truth (isTrue a && isTrue b)
  | or => truth (isTrue a || isTrue b)
  | atan2 => Float.atan2 a b
  | max => larger a b
  | min => smaller a b
  | pow => Float.pow a b

/-- A conjunction holds if both operands do. -/
theorem isTrue_apply_and (a b : Float) : isTrue (and.apply a b) = (isTrue a && isTrue b) :=
  isTrue_truth _

/-- A disjunction holds if one of the operands does. -/
theorem isTrue_apply_or (a b : Float) : isTrue (or.apply a b) = (isTrue a || isTrue b) :=
  isTrue_truth _

/-- Numbers differ if they are not the same. -/
theorem isTrue_apply_ne (a b : Float) : isTrue (ne.apply a b) = !isTrue (eq.apply a b) := by
  rw [apply, apply, isTrue_truth, isTrue_truth]

end BinaryOp

/-- The choice between two numbers by the truth of a third. -/
def choose (test yes no : Float) : Float := if isTrue test then yes else no

end Reckon
