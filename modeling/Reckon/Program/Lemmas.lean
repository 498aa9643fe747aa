import Reckon.Program.Run

/-!
# Programs as lists

What the operations on programs do to the list of instructions and to the width.
-/

namespace Reckon.Program

/-- The width of code is that of its parts. -/
@[simp] theorem totalWidth_append (a b : List Instruction) :
    totalWidth (a ++ b) = totalWidth a + totalWidth b := by
  induction a with
  | nil => simp [totalWidth]
  | cons i a ih => simp [totalWidth, ih, Nat.add_assoc]

@[simp] theorem codeFrom_eq_drop (p : Program) (position : Nat) :
    p.codeFrom position = p.code.toList.drop position := by
  simp [codeFrom, List.take_of_length_le]

@[simp] theorem toList_truncate (p : Program) (position : Nat) :
    (p.truncate position).code.toList = p.code.toList.take position := by
  simp [truncate]

@[simp] theorem capacity_truncate (p : Program) (position : Nat) :
    (p.truncate position).capacity = p.capacity := rfl

/-- The width is that of what is kept and of the new instruction. -/
@[simp] theorem widthAfterReplace_eq (p : Program) (position : Nat) (i : Instruction) :
    p.widthAfterReplace position i = totalWidth (p.code.toList.take position) + i.width := by
  simp [widthAfterReplace]

/-- An instruction is appended if there is room for it. -/
theorem emit_eq_ok_iff {p q : Program} {i : Instruction} :
    p.emit i = .ok q ↔ p.width + i.width ≤ p.capacity ∧
      q = { p with code := p.code.push i, width := p.width + i.width } := by
  unfold emit
  split <;> simp only [reduceCtorEq, Except.ok.injEq, eq_comm, false_iff] <;> grind

/-- An instruction is refused if there is no room for it. -/
theorem emit_eq_error_iff {p : Program} {i : Instruction} {e : Error} :
    p.emit i = .error e ↔ p.capacity < p.width + i.width ∧ e = .programTooLarge p.capacity := by
  unfold emit
  split <;> simp only [reduceCtorEq, Except.error.injEq, eq_comm, false_iff] <;> grind

/-- Code runs in sequence: the second part works on the stack that the first one leaves. -/
theorem steps_append (values : Nat → Float) (capacity : Nat) (a b : List Instruction)
    (stack : List Float) :
    Instruction.steps values capacity (a ++ b) stack =
      Instruction.steps values capacity a stack >>= Instruction.steps values capacity b := by
  simp [Instruction.steps, List.foldlM_append]
  rfl

end Reckon.Program
