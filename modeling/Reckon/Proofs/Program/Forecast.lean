import Mathlib.Algebra.BigOperators.Group.List.Basic
import Mathlib.Algebra.Ring.Int.Defs
import Reckon.Program.Lemmas
import Reckon.Proofs.Program.Machine

/-!
# How runs end

Whether a run succeeds, and with which error it fails, is decided before it begins: by adding up
what the instructions do to the depth of the stack (`Instruction.depthAt`).  The first instruction
that finds fewer values than it takes, or the stack full, ends the run; if there is none, the run
fails unless one value is left (`Instruction.forecast`, `Instruction.run_eq_forecast`).

The induction is on the code.  It is carried by the depth with which the code begins, which grows by
the effect of every instruction that passes.
-/

namespace Reckon

open Outcome

namespace Instruction

/-- By how much the first `i` instructions change the depth of the stack. -/
def depthAt (code : List Instruction) (i : ℕ) : ℤ := ((code.take i).map stackEffect).sum

/-- Whether instruction `i` finds fewer values on the stack than it takes, if there were `start` at
the beginning. -/
def LacksOperand (start : ℤ) (code : List Instruction) (i : ℕ) : Prop :=
  ∃ h : i < code.length, start + depthAt code i < code[i].arity

/-- Whether instruction `i` pushes a value and finds the stack full. -/
def LacksRoom (capacity : ℕ) (start : ℤ) (code : List Instruction) (i : ℕ) : Prop :=
  ∃ h : i < code.length, code[i].arity = 0 ∧ capacity ≤ start + depthAt code i

instance (start : ℤ) (code : List Instruction) (i : ℕ) : Decidable (LacksOperand start code i) :=
  inferInstanceAs (Decidable (∃ _, _))

instance (capacity : ℕ) (start : ℤ) (code : List Instruction) (i : ℕ) :
    Decidable (LacksRoom capacity start code i) :=
  inferInstanceAs (Decidable (∃ _, _))

/-- Whether some instruction lacks an operand and none before it has found the stack full. -/
def Underflows (capacity : ℕ) (start : ℤ) (code : List Instruction) : Prop :=
  ∃ i < code.length, LacksOperand start code i ∧ ∀ j < i, ¬LacksRoom capacity start code j

/-- Whether some instruction finds the stack full. -/
def Overflows (capacity : ℕ) (start : ℤ) (code : List Instruction) : Prop :=
  ∃ i < code.length, LacksRoom capacity start code i

instance (capacity : ℕ) (start : ℤ) (code : List Instruction) :
    Decidable (Underflows capacity start code) :=
  inferInstanceAs (Decidable (∃ i < code.length, _))

instance (capacity : ℕ) (start : ℤ) (code : List Instruction) :
    Decidable (Overflows capacity start code) :=
  inferInstanceAs (Decidable (∃ i < code.length, _))

/-- How a run ends, by counting. -/
def forecast (capacity : ℕ) (code : List Instruction) : Except Error Unit :=
  if Underflows capacity 0 code then .error (.stackImbalance 0)
  else if Overflows capacity 0 code then .error (.stackOverflow capacity)
  else if depthAt code code.length = 1 then .ok ()
  else .error (.stackImbalance (depthAt code code.length).toNat)

variable {values : ℕ → Float} {capacity : ℕ} {start : ℤ} {code code' : List Instruction}
  {i : Instruction} {n : ℕ} {stack : List Float}

/-! ## Counting -/

@[simp] lemma depthAt_zero (code : List Instruction) : depthAt code 0 = 0 := rfl

/-- The first instruction adds its effect to that of the others. -/
@[simp] lemma depthAt_cons_succ (i : Instruction) (code : List Instruction) (n : ℕ) :
    depthAt (i :: code) (n + 1) = i.stackEffect + depthAt code n := by
  simp [depthAt]

/-- An instruction changes the depth by at most two, so that in less than 2³⁰ instructions it stays
within signed words of 32 bits. -/
lemma natAbs_depthAt_le (code : List Instruction) (n : ℕ) : (depthAt code n).natAbs ≤ 2 * n := by
  induction n generalizing code with
  | zero => exact Nat.le_refl 0
  | succ n ih =>
    cases code with
    | nil => exact Nat.zero_le _
    | cons i code =>
      have heffect : i.stackEffect.natAbs ≤ 2 := by
        cases i with
        | const | load | named | unary | binary | choice => simp [stackEffect, arity]
      have hrest := ih code
      rw [depthAt_cons_succ]
      omega

/-- The first instruction lacks an operand if there are too few at the beginning. -/
lemma lacksOperand_cons_zero : LacksOperand start (i :: code) 0 ↔ start < i.arity := by
  simp [LacksOperand]

/-- Later instructions begin with the depth that the first one leaves. -/
lemma lacksOperand_cons_succ :
    LacksOperand start (i :: code) (n + 1) ↔ LacksOperand (start + i.stackEffect) code n := by
  simp [LacksOperand, add_assoc]

/-- The first instruction lacks room if the stack is full at the beginning. -/
lemma lacksRoom_cons_zero :
    LacksRoom capacity start (i :: code) 0 ↔ i.arity = 0 ∧ capacity ≤ start := by
  simp [LacksRoom]

/-- Later instructions begin with the depth that the first one leaves, and find room by it. -/
lemma lacksRoom_cons_succ : LacksRoom capacity start (i :: code) (n + 1) ↔
    LacksRoom capacity (start + i.stackEffect) code n := by
  simp [LacksRoom, add_assoc]

/-- An instruction that finds the stack full is the first one or comes later. -/
lemma overflows_cons : Overflows capacity start (i :: code) ↔
    (i.arity = 0 ∧ capacity ≤ start) ∨ Overflows capacity (start + i.stackEffect) code := by
  constructor
  · rintro ⟨_ | n, hn, hroom⟩
    · exact .inl (lacksRoom_cons_zero.1 hroom)
    · exact .inr ⟨n, Nat.lt_of_succ_lt_succ hn, lacksRoom_cons_succ.1 hroom⟩
  · rintro (hroom | ⟨n, hn, hroom⟩)
    · exact ⟨0, Nat.zero_lt_succ _, lacksRoom_cons_zero.2 hroom⟩
    · exact ⟨n + 1, Nat.succ_lt_succ hn, lacksRoom_cons_succ.2 hroom⟩

/-- An instruction that lacks an operand is the first one, or comes later and the first one has
found room. -/
lemma underflows_cons : Underflows capacity start (i :: code) ↔
    start < i.arity ∨
      (¬(i.arity = 0 ∧ capacity ≤ start) ∧ Underflows capacity (start + i.stackEffect) code) := by
  constructor
  · rintro ⟨_ | n, hn, hoperand, hrooms⟩
    · exact .inl (lacksOperand_cons_zero.1 hoperand)
    · refine .inr ⟨?_, n, Nat.lt_of_succ_lt_succ hn, lacksOperand_cons_succ.1 hoperand, ?_⟩
      · intro hfull
        exact hrooms 0 (Nat.zero_lt_succ n) (lacksRoom_cons_zero.2 hfull)
      · intro j hj
        rw [← lacksRoom_cons_succ]
        exact hrooms (j + 1) (Nat.succ_lt_succ hj)
  · rintro (hoperand | ⟨hroom, n, hn, hoperand, hrooms⟩)
    · exact ⟨0, Nat.zero_lt_succ _, lacksOperand_cons_zero.2 hoperand, nofun⟩
    · refine ⟨n + 1, Nat.succ_lt_succ hn, lacksOperand_cons_succ.2 hoperand, ?_⟩
      rintro (_ | j) hj
      · rw [lacksRoom_cons_zero]
        exact hroom
      · rw [lacksRoom_cons_succ]
        exact hrooms j (Nat.lt_of_succ_lt_succ hj)

/-! ## Steps -/

/-- An instruction that lacks an operand fails. -/
lemma step_of_lt_arity (values : ℕ → Float) (capacity : ℕ) (h : stack.length < i.arity) :
    i.step values capacity stack = .error (.stackImbalance 0) := by
  cases i with
  | const x | load index | named c => exact absurd h (Nat.not_lt_zero _)
  | unary f =>
    match stack, h with
    | [], _ => rfl
  | binary f =>
    match stack, h with
    | [], _ | [_], _ => rfl
  | choice =>
    match stack, h with
    | [], _ | [_], _ | [_, _], _ => rfl

/-- An instruction that pushes a value fails on a full stack. -/
lemma step_of_full (values : ℕ → Float) (harity : i.arity = 0) (h : capacity ≤ stack.length) :
    i.step values capacity stack = .error (.stackOverflow capacity) := by
  cases i with
  | const x | load index | named c => exact if_pos h
  | unary f | binary f | choice => contradiction

/-- Any other instruction passes, and changes the depth by its effect. -/
lemma exists_step_eq_ok (values : ℕ → Float) (harity : i.arity ≤ stack.length)
    (hroom : ¬(i.arity = 0 ∧ capacity ≤ stack.length)) :
    ∃ s, i.step values capacity stack = .ok s ∧
      (s.length : ℤ) = stack.length + i.stackEffect := by
  cases i with
  | const x | load index | named c =>
    exact ⟨_, if_neg fun hfull => hroom ⟨rfl, hfull⟩, rfl⟩
  | unary f =>
    match stack, harity with
    | x :: rest, _ => exact ⟨_, rfl, by simp [stackEffect, arity]⟩
  | binary f =>
    match stack, harity with
    | y :: x :: rest, _ => exact ⟨_, rfl, by simp [stackEffect, arity]⟩
  | choice =>
    match stack, harity with
    | no :: yes :: test :: rest, _ => exact ⟨_, rfl, by simp [stackEffect, arity]; omega⟩

/-! ## Runs -/

/-- The first instruction that lacks an operand or room ends a run.  If there is none, all pass and
the depth is what counting says. -/
theorem steps_eq_forecast (values : ℕ → Float) (capacity : ℕ) (code : List Instruction)
    (stack : List Float) :
    (Underflows capacity stack.length code →
      steps values capacity code stack = .error (.stackImbalance 0)) ∧
    (¬Underflows capacity stack.length code → Overflows capacity stack.length code →
      steps values capacity code stack = .error (.stackOverflow capacity)) ∧
    (¬Underflows capacity stack.length code → ¬Overflows capacity stack.length code →
      ∃ s, steps values capacity code stack = .ok s ∧
        (s.length : ℤ) = stack.length + depthAt code code.length) := by
  induction code generalizing stack with
  | nil =>
    refine ⟨?_, ?_, fun _ _ => ⟨stack, rfl, by simp⟩⟩
    · rintro ⟨n, hn, -⟩
      exact absurd hn (Nat.not_lt_zero n)
    · rintro - ⟨n, hn, -⟩
      exact absurd hn (Nat.not_lt_zero n)
  | cons i code ih =>
    have hcons : steps values capacity (i :: code) stack =
        i.step values capacity stack >>= steps values capacity code := rfl
    rw [underflows_cons, overflows_cons, hcons]
    by_cases harity : stack.length < i.arity
    · rw [step_of_lt_arity values capacity harity]
      have hunder : (stack.length : ℤ) < i.arity := by omega
      exact ⟨fun _ => rfl, fun h => absurd (.inl hunder) h, fun h => absurd (.inl hunder) h⟩
    · by_cases hroom : i.arity = 0 ∧ capacity ≤ stack.length
      · have hfull : i.arity = 0 ∧ (capacity : ℤ) ≤ stack.length := by omega
        rw [step_of_full values hroom.1 hroom.2]
        refine ⟨?_, fun _ _ => rfl, fun _ h => absurd (.inl hfull) h⟩
        rintro (hunder | ⟨hfree, -⟩)
        · omega
        · exact absurd hfull hfree
      · obtain ⟨s, hstep, hlength⟩ := exists_step_eq_ok values (Nat.le_of_not_lt harity) hroom
        have hunder : ¬(stack.length : ℤ) < i.arity := by omega
        have hfree : ¬(i.arity = 0 ∧ (capacity : ℤ) ≤ stack.length) := by omega
        rw [hstep, ← hlength]
        simp only [hunder, hfree, false_or, not_false_eq_true, true_and, List.length_cons,
          depthAt_cons_succ]
        rw [← add_assoc, ← hlength]
        exact ih s

/-- A run fails as the count says, or leaves as many values as it says. -/
lemma map_run_eq_forecast (values : ℕ → Float) (capacity : ℕ) (code : List Instruction) :
    (run values capacity code).map (fun _ => ()) = forecast capacity code := by
  obtain ⟨hunder, hover, hpasses⟩ := steps_eq_forecast values capacity code []
  rw [List.length_nil, Int.natCast_zero] at hunder hover hpasses
  unfold run forecast
  split
  · rename_i h
    rw [hunder h]
    rfl
  · rename_i hoperands
    split
    · rename_i h
      rw [hover hoperands h]
      rfl
    · rename_i hrooms
      obtain ⟨s, hsteps, hlength⟩ := hpasses hoperands hrooms
      rw [zero_add] at hlength
      rw [hsteps, ← hlength]
      match s with
      | [] => rfl
      | [x] => rfl
      | x :: y :: s =>
        rw [if_neg (by simp only [List.length_cons]; omega)]
        rfl

/-- Counting depends on the numbers of operands alone. -/
lemma counts_congr (h : code'.map arity = code.map arity) (capacity : ℕ) (start : ℤ) :
    (Underflows capacity start code' ↔ Underflows capacity start code) ∧
    (Overflows capacity start code' ↔ Overflows capacity start code) ∧
    depthAt code' code'.length = depthAt code code.length := by
  induction code generalizing code' start with
  | nil =>
    obtain rfl := List.map_eq_nil_iff.1 h
    exact ⟨.rfl, .rfl, rfl⟩
  | cons i code ih =>
    obtain ⟨i', rest, rfl, harity, hrest⟩ := List.map_eq_cons_iff.1 h
    have heffect : i'.stackEffect = i.stackEffect := by rw [stackEffect, stackEffect, harity]
    obtain ⟨hunder, hover, hdepth⟩ := ih hrest (start + i.stackEffect)
    rw [underflows_cons, underflows_cons, overflows_cons, overflows_cons, heffect, harity, hunder,
      hover, List.length_cons, List.length_cons, depthAt_cons_succ, depthAt_cons_succ, heffect,
      hdepth]
    exact ⟨.rfl, .rfl, rfl⟩

/-- Code with the same numbers of operands ends alike. -/
lemma forecast_congr (h : code'.map arity = code.map arity) (capacity : ℕ) :
    forecast capacity code' = forecast capacity code := by
  obtain ⟨hunder, hover, hdepth⟩ := counts_congr h capacity 0
  simp only [forecast, hunder, hover, hdepth]

/-! ## The greatest depth -/

/-- The greatest depth, counted on from some depth, exceeds the capacity if it did so before or some
instruction finds the stack full. -/
lemma lt_foldl_depth_iff (capacity : ℕ) (code : List Instruction) {depth greatest : ℤ}
    (h : depth ≤ greatest) :
    (capacity : ℤ) < (code.foldl (fun (depth, greatest) (i : Instruction) =>
      (depth + i.stackEffect, max greatest (depth + i.stackEffect))) (depth, greatest)).2 ↔
        capacity < greatest ∨ Overflows capacity depth code := by
  induction code generalizing depth greatest with
  | nil =>
    have hnone : ¬Overflows capacity depth [] := by
      rintro ⟨n, hn, -⟩
      exact absurd hn (Nat.not_lt_zero n)
    simp [hnone]
  | cons i code ih =>
    -- The depth passes the capacity exactly where an instruction pushes on a full stack.
    have hfull : capacity < max greatest (depth + i.stackEffect) ↔
        capacity < greatest ∨ (i.arity = 0 ∧ capacity ≤ depth) := by
      rw [stackEffect]
      omega
    rw [List.foldl_cons, ih (Int.le_max_right _ _), hfull, overflows_cons, or_assoc]

/-- Some instruction finds the stack full exactly if the greatest depth exceeds the capacity. -/
theorem overflows_iff_lt_maxStackDepth (capacity : ℕ) (code : List Instruction) :
    Overflows capacity 0 code ↔ capacity < (Program.ofInstructions code).maxStackDepth := by
  have hfold := lt_foldl_depth_iff capacity code (Int.le_refl 0)
  have hzero : ¬(capacity : ℤ) < 0 := by omega
  rw [or_iff_right hzero] at hfold
  rw [← hfold, Program.maxStackDepth, Program.ofInstructions, List.foldl_toArray, Int.lt_toNat]

/-! ## The outcome -/

/-- How a run ends is decided by counting.  It fails for lack of an operand if some instruction
finds fewer values than it takes and none before it has found the stack full; otherwise it overflows
the stack if some instruction finds it full, which is when the greatest depth exceeds the capacity;
otherwise it succeeds exactly if one value is left, and says how many there are if not.  So it ends
alike for all values of variables and all constants, and on a machine whatever was run there
before. -/
theorem run_eq_forecast (values : ℕ → Float) (capacity : ℕ) (code : List Instruction) :
    (run values capacity code).map (fun _ => ()) = forecast capacity code ∧
    (Overflows capacity 0 code ↔ capacity < (Program.ofInstructions code).maxStackDepth) ∧
    (¬Underflows capacity 0 code → ¬Overflows capacity 0 code → 0 ≤ depthAt code code.length) ∧
    (∀ values' code', code'.map arity = code.map arity →
      (run values' capacity code').map (fun _ => ()) = (run values capacity code).map fun _ => ()) ∧
    ∀ stack runs, answer (Machine.run values code (Machine.after ⟨capacity, stack⟩ runs)) =
      run values capacity code := by
  refine ⟨map_run_eq_forecast values capacity code, overflows_iff_lt_maxStackDepth capacity code,
    ?_, ?_, ?_⟩
  · intro hunder hover
    obtain ⟨s, -, hlength⟩ := (steps_eq_forecast values capacity code []).2.2 hunder hover
    rw [List.length_nil, Int.natCast_zero, zero_add] at hlength
    omega
  · intro values' code' harity
    rw [map_run_eq_forecast, map_run_eq_forecast, forecast_congr harity]
  · intro stack runs
    rw [(Machine.answer_run values code _).1, Machine.capacity_after]

/-- A program that takes a value too many, after it would have overflowed the stack. -/
example : forecast 1 [.const 1, .const 2, .binary .add, .binary .add] =
    .error (.stackOverflow 1) := by decide +kernel

end Instruction

end Reckon
