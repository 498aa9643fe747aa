import Reckon.Expr.Code
import Reckon.Proofs.Program.Depth

/-!
# The room that code needs on the stack

The plain code of an expression never lacks an operand and leaves one value more than there was.  So
whether it runs is a matter of room alone: it needs `Expr.room` places on the stack, runs where
there are as many (`Expr.steps_code_of_room_le`), and overflows the stack where there are fewer
(`Expr.steps_code_of_lt_room`).  Short code does not need much room (`Expr.room_le`).
-/

namespace Reckon

namespace Instruction

variable {values : ℕ → Float} {capacity : ℕ} {a b : List Instruction} {stack s : List Float}

/-- A single instruction is a single step. -/
lemma steps_singleton (values : ℕ → Float) (capacity : ℕ) (i : Instruction) (stack : List Float) :
    steps values capacity [i] stack = i.step values capacity stack := by
  change i.step values capacity stack >>= pure = _
  cases i.step values capacity stack <;> rfl

/-- What succeeds is followed by the instructions behind it. -/
lemma steps_append_of_ok (h : steps values capacity a stack = .ok s) :
    steps values capacity (a ++ b) stack = steps values capacity b s := by
  rw [Program.steps_append, h]
  rfl

/-- What fails is not followed by the instructions behind it. -/
lemma steps_append_of_error {e : Error} (h : steps values capacity a stack = .error e) :
    steps values capacity (a ++ b) stack = .error e := by
  rw [Program.steps_append, h]
  rfl

/-- Below the capacity a number is pushed. -/
lemma push_of_lt (x : Float) (h : stack.length < capacity) :
    push capacity x stack = .ok (x :: stack) :=
  if_neg (Nat.not_le_of_lt h)

/-- At the capacity no number can be pushed. -/
lemma push_of_le (x : Float) (h : capacity ≤ stack.length) :
    push capacity x stack = .error (.stackOverflow capacity) :=
  if_pos h

end Instruction

namespace Expr

open Instruction

/-- The plain code of an expression adds one value to the stack. -/
lemma depthAfter_code (indexOf : String → ℕ) (e : Expr) (depth : ℕ) :
    depthAfter (e.code indexOf) depth = some (depth + 1) := by
  induction e generalizing depth with
  | number x | constant c | var name position => rfl
  | unary f operand ih =>
    rw [code, depthAfter_append, ih]
    rfl
  | binary f left right ihleft ihright =>
    rw [code, depthAfter_append, depthAfter_append, ihleft, Option.bind_some, ihright]
    rfl
  | choice test yes no ihtest ihyes ihno =>
    rw [code, depthAfter_append, depthAfter_append, depthAfter_append, ihtest, Option.bind_some,
      ihyes, Option.bind_some, ihno]
    rfl

/-- The code of an expression is complete. -/
lemma isComplete_code (indexOf : String → ℕ) (e : Expr) : IsComplete (e.code indexOf) :=
  depthAfter_code indexOf e 0

/-- How many places of the stack the plain code of an expression takes at once. -/
def room : Expr → ℕ
  | number _ | constant _ | var _ _ => 1
  | unary _ operand => operand.room
  | binary _ left right => max left.room (right.room + 1)
  | choice test yes no => max test.room (max (yes.room + 1) (no.room + 2))

variable {values : ℕ → Float} {capacity : ℕ} {indexOf : String → ℕ} {e : Expr} {stack : List Float}

/-- Where there is room, the plain code of an expression leaves the value of the expression on the
stack. -/
theorem steps_code_of_room_le (h : stack.length + e.room ≤ capacity) :
    steps values capacity (e.code indexOf) stack =
      .ok (e.eval (fun name => values (indexOf name)) :: stack) := by
  induction e generalizing stack with
  | number x | constant c | var name position =>
    rw [code, steps_singleton]
    exact push_of_lt _ h
  | unary f operand ih =>
    rw [code, steps_append_of_ok (ih h), steps_singleton]
    rfl
  | binary f left right ihleft ihright =>
    rw [room] at h
    have hleft : stack.length + left.room ≤ capacity := by omega
    have hright : stack.length + 1 + right.room ≤ capacity := by omega
    rw [code, List.append_assoc, steps_append_of_ok (ihleft hleft),
      steps_append_of_ok (ihright (by rw [List.length_cons]; exact hright)), steps_singleton]
    rfl
  | choice test yes no ihtest ihyes ihno =>
    rw [room] at h
    have htest : stack.length + test.room ≤ capacity := by omega
    have hyes : stack.length + 1 + yes.room ≤ capacity := by omega
    have hno : stack.length + 1 + 1 + no.room ≤ capacity := by omega
    rw [code, List.append_assoc, List.append_assoc, steps_append_of_ok (ihtest htest),
      steps_append_of_ok (ihyes (by rw [List.length_cons]; exact hyes)),
      steps_append_of_ok (ihno (by rw [List.length_cons, List.length_cons]; exact hno)),
      steps_singleton]
    rfl

/-- Where there is not, it overflows the stack. -/
theorem steps_code_of_lt_room (h : capacity < stack.length + e.room) :
    steps values capacity (e.code indexOf) stack = .error (.stackOverflow capacity) := by
  induction e generalizing stack with
  | number x | constant c | var name position =>
    rw [code, steps_singleton]
    exact push_of_le _ (Nat.le_of_lt_succ h)
  | unary f operand ih =>
    rw [code, steps_append_of_error (ih h)]
  | binary f left right ihleft ihright =>
    rw [code, List.append_assoc]
    by_cases hleft : stack.length + left.room ≤ capacity
    · rw [room] at h
      have hright : capacity < stack.length + 1 + right.room := by omega
      rw [steps_append_of_ok (steps_code_of_room_le hleft)]
      exact steps_append_of_error (ihright (by rw [List.length_cons]; exact hright))
    · exact steps_append_of_error (ihleft (Nat.lt_of_not_le hleft))
  | choice test yes no ihtest ihyes ihno =>
    rw [code, List.append_assoc, List.append_assoc]
    by_cases htest : stack.length + test.room ≤ capacity
    · rw [steps_append_of_ok (steps_code_of_room_le htest)]
      by_cases hyes : stack.length + 1 + yes.room ≤ capacity
      · rw [room] at h
        have hno : capacity < stack.length + 1 + 1 + no.room := by omega
        rw [steps_append_of_ok (steps_code_of_room_le (by rw [List.length_cons]; exact hyes))]
        exact steps_append_of_error
          (ihno (by rw [List.length_cons, List.length_cons]; exact hno))
      · exact steps_append_of_error
          (ihyes (by rw [List.length_cons]; exact Nat.lt_of_not_le hyes))
    · exact steps_append_of_error (ihtest (Nat.lt_of_not_le htest))

/-- The plain code of an expression runs by itself as soon as the stack has room for it. -/
theorem run_code_of_room_le (h : e.room ≤ capacity) :
    run values capacity (e.code indexOf) =
      .ok (e.eval fun name => values (indexOf name)) := by
  have hroom : ([] : List Float).length + e.room ≤ capacity := by
    rw [List.length_nil, Nat.zero_add]
    exact h
  exact run_eq_ok_iff.2 (steps_code_of_room_le hroom)

/-- By itself the plain code of an expression does nothing but run or overflow the stack. -/
theorem run_code_of_lt_room (h : capacity < e.room) :
    run values capacity (e.code indexOf) = .error (.stackOverflow capacity) := by
  have hroom : capacity < ([] : List Float).length + e.room := by
    rw [List.length_nil, Nat.zero_add]
    exact h
  rw [run, steps_code_of_lt_room hroom]
  rfl

/-- What the plain code of an expression computes is the value of the expression. -/
lemma eq_eval_of_run_code {x : Float} (h : run values capacity (e.code indexOf) = .ok x) :
    x = e.eval fun name => values (indexOf name) := by
  by_cases hroom : e.room ≤ capacity
  · rw [run_code_of_room_le hroom] at h
    exact (Except.ok.inj h).symm
  · rw [run_code_of_lt_room (Nat.lt_of_not_le hroom)] at h
    exact nomatch h

/-- Every place but the first is paid for by one and a half instructions. -/
lemma room_le (indexOf : String → ℕ) (e : Expr) :
    3 * e.room ≤ 2 * (e.code indexOf).length + 1 ∧ 1 ≤ (e.code indexOf).length := by
  induction e with
  | number x | constant c | var name position => exact ⟨Nat.le_refl 3, Nat.le_refl 1⟩
  | unary f operand ih =>
    rw [room, code, List.length_append, List.length_singleton]
    omega
  | binary f left right ihleft ihright =>
    rw [room, code, List.length_append, List.length_append, List.length_singleton]
    omega
  | choice test yes no ihtest ihyes ihno =>
    rw [room, code, List.length_append, List.length_append, List.length_append,
      List.length_singleton]
    omega

end Expr

end Reckon
