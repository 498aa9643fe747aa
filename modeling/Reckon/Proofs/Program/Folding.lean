import Reckon.Expr.Compilation
import Reckon.Program.Lemmas
import Reckon.Proofs.Program.Refinement

/-!
# Folding programs

Folding either leaves a program alone or replaces the code from a position on by the one constant
that this code computes (`Program.fold_cases`).  It does replace code that reads no variable and
runs, if the constant fits (`Program.toList_fold_of_run`).  Neither folding nor anything else a
program can go through breaks the account of its width (`Program.IsValid`).
-/

namespace Reckon.Program

open Instruction

variable {p q : Program} {i : Instruction} {values : ℕ → Float} {stackCapacity start : ℕ}
  {before code : List Instruction} {x : Float}

/-- Whether the width that is kept beside the instructions is theirs. -/
def IsConsistent (p : Program) : Prop := p.width = totalWidth p.code.toList

/-- Whether it is also within the capacity. -/
structure IsValid (p : Program) : Prop where
  isConsistent : p.IsConsistent
  width_le : p.width ≤ p.capacity

lemma isConsistent_clear (p : Program) : p.clear.IsConsistent := rfl

lemma isValid_clear (p : Program) : p.clear.IsValid := ⟨rfl, Nat.zero_le _⟩

/-- An emitted instruction stands at the end and is accounted for. -/
lemma IsConsistent.emit (hp : p.IsConsistent) (h : p.emit i = .ok q) :
    q.IsConsistent ∧ q.code.toList = p.code.toList ++ [i] ∧ q.capacity = p.capacity := by
  obtain ⟨-, rfl⟩ := emit_eq_ok_iff.1 h
  refine ⟨?_, Array.toList_push, rfl⟩
  rw [IsConsistent, Array.toList_push, totalWidth_append, hp]
  simp [totalWidth]

/-- A program stays within its capacity when an instruction is emitted. -/
lemma IsValid.emit (hp : p.IsValid) (h : p.emit i = .ok q) : q.IsValid := by
  refine ⟨(hp.isConsistent.emit h).1, ?_⟩
  obtain ⟨hwidth, rfl⟩ := emit_eq_ok_iff.1 h
  exact hwidth

/-- What stood behind a place is replaced by one instruction. -/
lemma toList_replaceFrom (h : p.code.toList = before ++ code) (i : Instruction) :
    (p.replaceFrom before.length i).code.toList = before ++ [i] := by
  simp [replaceFrom, h]

/-- A replacement is accounted for. -/
lemma isConsistent_replaceFrom (p : Program) (start : ℕ) (i : Instruction) :
    (p.replaceFrom start i).IsConsistent := by
  rw [IsConsistent, replaceFrom, Array.toList_push, totalWidth_append]
  rfl

/-- What folding can do. -/
lemma fold_cases (p : Program) (values : ℕ → Float) (stackCapacity start : ℕ) :
    p.fold values stackCapacity start = p ∨
      ∃ x, (p.codeFrom start).any readsVariable = false ∧
        Instruction.run values stackCapacity (p.codeFrom start) = .ok x ∧
        p.widthAfterReplace start (.const x) ≤ p.capacity ∧
        p.fold values stackCapacity start = p.replaceFrom start (.const x) := by
  unfold fold
  split
  · exact .inl rfl
  · exact .inl rfl
  · exact .inl rfl
  · split
    · exact .inl rfl
    · rename_i hvariables
      split
      · exact .inl rfl
      · rename_i x hrun
        split
        · exact .inl rfl
        · rename_i hwidth
          exact .inr ⟨x, by simpa using hvariables, hrun, Nat.not_lt.1 hwidth, rfl⟩

@[simp] lemma capacity_fold (p : Program) (values : ℕ → Float) (stackCapacity start : ℕ) :
    (p.fold values stackCapacity start).capacity = p.capacity := by
  rcases p.fold_cases values stackCapacity start with hsame | ⟨x, -, -, -, hfold⟩
  · rw [hsame]
  · rw [hfold]
    rfl

/-- A program that is folded accounts for its code. -/
lemma IsConsistent.fold (hp : p.IsConsistent) :
    (p.fold values stackCapacity start).IsConsistent := by
  rcases p.fold_cases values stackCapacity start with hsame | ⟨x, -, -, -, hfold⟩
  · rw [hsame]
    exact hp
  · rw [hfold]
    exact isConsistent_replaceFrom p start (.const x)

/-- A program that is folded stays within its capacity. -/
lemma IsValid.fold (hp : p.IsValid) : (p.fold values stackCapacity start).IsValid := by
  refine ⟨hp.isConsistent.fold, ?_⟩
  rcases p.fold_cases values stackCapacity start with hsame | ⟨x, -, -, hwidth, hfold⟩
  · rw [hsame]
    exact hp.width_le
  · rw [hfold]
    exact hwidth

/-- Code that reads no variable and runs becomes the constant that it computes, if this fits. -/
lemma toList_fold_of_run (h : p.code.toList = before ++ code)
    (hvariables : code.any readsVariable = false)
    (hrun : Instruction.run values stackCapacity code = .ok x)
    (hwidth : totalWidth before + 9 ≤ p.capacity) :
    (p.fold values stackCapacity before.length).code.toList = before ++ [.const x] := by
  have hfrom : p.codeFrom before.length = code := by
    rw [codeFrom_eq_drop, h, List.drop_left]
  have hbefore : p.widthAfterReplace before.length (.const x) ≤ p.capacity := by
    rw [widthAfterReplace_eq, h, List.take_left]
    exact hwidth
  unfold fold
  rw [hfrom]
  split
  · exact nomatch hrun
  · -- A constant is what it computes already.
    obtain ⟨s, hstep, hrest⟩ := steps_cons_eq_ok_iff.1 (run_eq_ok_iff.1 hrun)
    obtain ⟨-, rfl⟩ := push_eq_ok_iff.1 hstep
    rw [(List.cons.inj (steps_nil_eq_ok_iff.1 hrest)).1]
    exact h
  · exact nomatch hvariables
  · rw [hvariables, if_neg Bool.false_ne_true, hrun]
    dsimp only
    rw [if_neg (Nat.not_lt.2 hbefore)]
    exact toList_replaceFrom h (.const x)

/-- Whether the code from a position on is folded to a number: it reads no variable, computes the
number, and the number fits. -/
structure IsFoldable (p : Program) (values : ℕ → Float) (stackCapacity start : ℕ) (x : Float) :
    Prop where
  any_readsVariable : (p.codeFrom start).any readsVariable = false
  run_eq : Instruction.run values stackCapacity (p.codeFrom start) = .ok x
  width_le : totalWidth (p.code.toList.take start) + 9 ≤ p.capacity

/-- What can be folded is folded. -/
lemma IsFoldable.toList_fold (h : p.IsFoldable values stackCapacity start x) :
    (p.fold values stackCapacity start).code.toList = p.code.toList.take start ++ [.const x] := by
  have hrun := h.run_eq
  have hvariables := h.any_readsVariable
  rw [codeFrom_eq_drop] at hrun hvariables
  -- Code that runs is not empty, so the position is one in the program.
  have hstart : start < p.code.toList.length := by
    by_contra hend
    rw [List.drop_eq_nil_of_le (Nat.not_lt.1 hend)] at hrun
    exact nomatch hrun
  have hlength : (p.code.toList.take start).length = start :=
    List.length_take_of_le (Nat.le_of_lt hstart)
  have hfold := toList_fold_of_run (List.take_append_drop start p.code.toList).symm hvariables hrun
    h.width_le
  rwa [hlength] at hfold

/-- What cannot be folded is left alone. -/
lemma fold_of_not_isFoldable (h : ¬∃ x, p.IsFoldable values stackCapacity start x) :
    p.fold values stackCapacity start = p := by
  rcases p.fold_cases values stackCapacity start with hsame | ⟨x, hvariables, hrun, hwidth, -⟩
  · exact hsame
  · rw [widthAfterReplace_eq] at hwidth
    exact absurd ⟨x, hvariables, hrun, hwidth⟩ h

/-- Code that reads a variable is left alone. -/
lemma fold_of_any_readsVariable (h : (p.codeFrom start).any readsVariable = true)
    (values : ℕ → Float) (stackCapacity : ℕ) : p.fold values stackCapacity start = p := by
  apply fold_of_not_isFoldable
  rintro ⟨x, hclosed, -⟩
  rw [h] at hclosed
  contradiction

end Reckon.Program
