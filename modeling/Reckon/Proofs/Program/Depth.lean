import Reckon.Proofs.Program.Refinement

/-!
# The depth of the stack

Every instruction takes its operands from the stack and leaves one value, so that the depth of the
stack after some code is a matter of counting (`Instruction.depthAfter`).  Code is complete if by
this count it never takes what it has not put there, and leaves one value
(`Instruction.IsComplete`). Complete code leaves what lies below alone and ends with one value more,
unless it overflows the stack (`Instruction.IsComplete.steps_eq`).
-/

namespace Reckon.Instruction

variable {values : ℕ → Float} {capacity depth depth' : ℕ} {a b code : List Instruction}
  {i : Instruction} {base : List Float}

/-- The depth of the stack after some code, if the values for all operands are there. -/
def depthAfter : List Instruction → ℕ → Option ℕ
  | [], depth => some depth
  | i :: code, depth =>
    if i.arity ≤ depth then depthAfter code (depth - i.arity + 1) else none

/-- Whether code takes nothing from the stack that it has not put there, and leaves one value. -/
def IsComplete (code : List Instruction) : Prop := depthAfter code 0 = some 1

instance (code : List Instruction) : Decidable (IsComplete code) :=
  inferInstanceAs (Decidable (_ = _))

/-- The depth behind code is found part by part. -/
lemma depthAfter_append (a b : List Instruction) (depth : ℕ) :
    depthAfter (a ++ b) depth = (depthAfter a depth).bind (depthAfter b) := by
  induction a generalizing depth with
  | nil => rfl
  | cons i a ih =>
    rw [List.cons_append, depthAfter, depthAfter]
    split
    · exact ih _
    · rfl

/-- An instruction whose operands are there leaves one value in their place, or there is no room for
it. -/
lemma step_append_of_arity_le (values : ℕ → Float) (capacity : ℕ) (base : List Float)
    {top : List Float} (h : i.arity ≤ top.length) :
    i.step values capacity (top ++ base) = .error (.stackOverflow capacity) ∨
      ∃ top' : List Float, top'.length = top.length - i.arity + 1 ∧
        i.step values capacity (top ++ base) = .ok (top' ++ base) := by
  have hpush : ∀ x : Float,
      push capacity x (top ++ base) = .error (.stackOverflow capacity) ∨
        ∃ top' : List Float, top'.length = top.length + 1 ∧
          push capacity x (top ++ base) = .ok (top' ++ base) := by
    intro x
    unfold push
    split
    · exact .inl rfl
    · exact .inr ⟨x :: top, rfl, rfl⟩
  cases i with
  | const x => exact hpush x
  | load index => exact hpush (values index)
  | named c => exact hpush c.value
  | unary f =>
    match top, h with
    | x :: rest, _ => exact .inr ⟨f.apply x :: rest, rfl, rfl⟩
  | binary f =>
    match top, h with
    | y :: x :: rest, _ => exact .inr ⟨f.apply x y :: rest, rfl, rfl⟩
  | choice =>
    match top, h with
    | no :: yes :: test :: rest, _ => exact .inr ⟨choose test yes no :: rest, rfl, rfl⟩

/-- Counting tells what a run does to the stack, unless there is no room. -/
lemma steps_append_of_depthAfter (values : ℕ → Float) (capacity : ℕ) (base : List Float)
    {top : List Float} (h : depthAfter code top.length = some depth) :
    steps values capacity code (top ++ base) = .error (.stackOverflow capacity) ∨
      ∃ top' : List Float, top'.length = depth ∧
        steps values capacity code (top ++ base) = .ok (top' ++ base) := by
  induction code generalizing top with
  | nil => exact .inr ⟨top, Option.some.inj h, rfl⟩
  | cons i code ih =>
    rw [depthAfter] at h
    split at h
    · rename_i harity
      have hcons : steps values capacity (i :: code) (top ++ base) =
          i.step values capacity (top ++ base) >>= steps values capacity code := rfl
      rw [hcons]
      rcases step_append_of_arity_le values capacity base harity with hstep | ⟨top', hlength, hstep⟩
      · rw [hstep]
        exact .inl rfl
      · rw [hstep]
        rw [← hlength] at h
        exact ih h
    · exact nomatch h

namespace IsComplete

/-- Complete code leaves one value above what was there, or overflows the stack. -/
theorem steps_eq (h : IsComplete code) (values : ℕ → Float) (capacity : ℕ) (base : List Float) :
    steps values capacity code base = .error (.stackOverflow capacity) ∨
      ∃ x, steps values capacity code base = .ok (x :: base) := by
  have hdepth : depthAfter code ([] : List Float).length = some 1 := h
  rcases steps_append_of_depthAfter values capacity base hdepth with
    herror | ⟨top, hlength, hsteps⟩
  · exact .inl herror
  · obtain ⟨x, rfl⟩ := List.length_eq_one_iff.1 hlength
    exact .inr ⟨x, hsteps⟩

/-- Complete code computes a value, or overflows the stack. -/
theorem run_eq (h : IsComplete code) (values : ℕ → Float) (capacity : ℕ) :
    run values capacity code = .error (.stackOverflow capacity) ∨
      ∃ x, run values capacity code = .ok x := by
  rcases h.steps_eq values capacity [] with herror | ⟨x, hsteps⟩
  · refine .inl ?_
    rw [run, herror]
    rfl
  · exact .inr ⟨x, run_eq_ok_iff.2 hsteps⟩

end IsComplete

end Reckon.Instruction
