import Mathlib.Tactic.Common
import Reckon.Program.Lemmas

/-!
# Code that can stand for other code

Code refines other code if it does the same wherever the other succeeds: for all values of
variables, on every stack and with every capacity (`Instruction.Refines`).  A constant refines the
code that computes it, as soon as one run of that code on an empty stack of some capacity succeeds
and no variable is read (`Instruction.refines_const`): the run on another stack computes the same
number above what was there before, and wherever it succeeds there was room for one number.
-/

namespace Reckon.Instruction

variable {values values' : ℕ → Float} {capacity capacity' : ℕ} {a b code plain : List Instruction}
  {stack base s t : List Float} {i : Instruction} {x : Float}

lemma steps_nil_eq_ok_iff : steps values capacity [] stack = .ok s ↔ s = stack := by
  constructor
  · rintro ⟨⟩
    rfl
  · rintro rfl
    rfl

/-- Code succeeds if its first instruction does and the others do after it. -/
lemma steps_cons_eq_ok_iff : steps values capacity (i :: code) stack = .ok s ↔
    ∃ t, i.step values capacity stack = .ok t ∧ steps values capacity code t = .ok s := by
  unfold steps
  rw [List.foldlM_cons]
  cases hstep : i.step values capacity stack with
  | ok t => simp [bind, Except.bind]
  | error e => simp [bind, Except.bind]

/-- Code succeeds if its first part does and the second does after it. -/
lemma steps_append_eq_ok_iff : steps values capacity (a ++ b) stack = .ok s ↔
    ∃ t, steps values capacity a stack = .ok t ∧ steps values capacity b t = .ok s := by
  rw [Program.steps_append]
  cases hsteps : steps values capacity a stack with
  | ok t => simp [bind, Except.bind]
  | error e => simp [bind, Except.bind]

/-- A run succeeds if one value is left. -/
lemma run_eq_ok_iff :
    run values capacity code = .ok x ↔ steps values capacity code [] = .ok [x] := by
  unfold run
  cases hsteps : steps values capacity code [] with
  | error e => simp [bind, Except.bind]
  | ok s =>
    match s with
    | [] => simp [bind, Except.bind, throw, throwThe, MonadExceptOf.throw]
    | [y] => simp [bind, Except.bind, pure, Except.pure]
    | y :: z :: s => simp [bind, Except.bind, throw, throwThe, MonadExceptOf.throw]

/-- Whether code does the same as plain code wherever that succeeds. -/
def Refines (code plain : List Instruction) : Prop :=
  ∀ values capacity stack s, steps values capacity plain stack = .ok s →
    steps values capacity code stack = .ok s

namespace Refines

lemma refl (code : List Instruction) : Refines code code := fun _ _ _ _ h => h

lemma trans {middle : List Instruction} (h : Refines code middle) (h' : Refines middle plain) :
    Refines code plain :=
  fun values capacity stack s hplain =>
    h values capacity stack s (h' values capacity stack s hplain)

/-- Parts of a program can be refined one by one. -/
lemma append {a' b' : List Instruction} (ha : Refines a a') (hb : Refines b b') :
    Refines (a ++ b) (a' ++ b') := by
  intro values capacity stack s hplain
  obtain ⟨t, ha', hb'⟩ := steps_append_eq_ok_iff.1 hplain
  exact steps_append_eq_ok_iff.2
    ⟨t, ha values capacity stack t ha', hb values capacity t s hb'⟩

/-- A program computes what the plain program computes. -/
lemma run (h : Refines code plain) (hrun : Instruction.run values capacity plain = .ok x) :
    Instruction.run values capacity code = .ok x :=
  run_eq_ok_iff.2 (h values capacity [] [x] (run_eq_ok_iff.1 hrun))

end Refines

/-! ## Runs on another stack -/

/-- A value is pushed if there is room for it. -/
lemma push_eq_ok_iff :
    push capacity x stack = .ok s ↔ stack.length < capacity ∧ s = x :: stack := by
  unfold push
  split
  · rename_i hfull
    simp only [reduceCtorEq, false_iff, not_and]
    intro hroom
    omega
  · rename_i hroom
    rw [Except.ok.injEq]
    constructor
    · rintro rfl
      exact ⟨by omega, rfl⟩
    · rintro ⟨-, rfl⟩
      rfl

/-- An instruction that reads no variable does on top of a stack what it does alone. -/
lemma step_append_eq (hi : i.readsVariable = false) (hs : i.step values capacity stack = .ok s)
    (ht : i.step values' capacity' (stack ++ base) = .ok t) : t = s ++ base := by
  cases i with
  | load index => simp [readsVariable] at hi
  | const y | named c =>
    obtain ⟨-, rfl⟩ := push_eq_ok_iff.1 hs
    exact (push_eq_ok_iff.1 ht).2
  | unary f =>
    match stack, hs, ht with
    | y :: rest, hs, ht =>
      cases hs
      cases ht
      rfl
  | binary f =>
    match stack, hs, ht with
    | y :: z :: rest, hs, ht =>
      cases hs
      cases ht
      rfl
  | choice =>
    match stack, hs, ht with
    | y :: z :: w :: rest, hs, ht =>
      cases hs
      cases ht
      rfl

/-- Code that reads no variable does on top of a stack what it does alone. -/
lemma steps_append_eq (hcode : code.any readsVariable = false)
    (hs : steps values capacity code stack = .ok s)
    (ht : steps values' capacity' code (stack ++ base) = .ok t) : t = s ++ base := by
  induction code generalizing stack with
  | nil =>
    rw [steps_nil_eq_ok_iff] at hs ht
    rw [hs, ht]
  | cons i code ih =>
    rw [List.any_cons, Bool.or_eq_false_iff] at hcode
    obtain ⟨s₁, hs₁, hs⟩ := steps_cons_eq_ok_iff.1 hs
    obtain ⟨t₁, ht₁, ht⟩ := steps_cons_eq_ok_iff.1 ht
    rw [step_append_eq hcode.1 hs₁ ht₁] at ht
    exact ih hcode.2 hs ht

/-- An instruction leaves no more on the stack than was there or than there is room for. -/
lemma length_step_le (h : i.step values capacity stack = .ok s) :
    s.length ≤ max stack.length capacity := by
  cases i with
  | const y | load index | named c =>
    obtain ⟨hroom, rfl⟩ := push_eq_ok_iff.1 h
    rw [List.length_cons]
    omega
  | unary f =>
    match stack, h with
    | y :: rest, h =>
      cases h
      exact Nat.le_max_left _ _
  | binary f =>
    match stack, h with
    | y :: z :: rest, h =>
      cases h
      simp only [List.length_cons]
      omega
  | choice =>
    match stack, h with
    | y :: z :: w :: rest, h =>
      cases h
      simp only [List.length_cons]
      omega

/-- No stack grows past the capacity. -/
lemma length_steps_le (h : steps values capacity code stack = .ok s) :
    s.length ≤ max stack.length capacity := by
  induction code generalizing stack with
  | nil =>
    rw [steps_nil_eq_ok_iff] at h
    rw [h]
    exact Nat.le_max_left _ _
  | cons i code ih =>
    obtain ⟨t, hstep, hrest⟩ := steps_cons_eq_ok_iff.1 h
    have hfirst := length_step_le hstep
    have hlast := ih hrest
    omega

/-- A constant refines the code that computes it. -/
lemma refines_const (hcode : code.any readsVariable = false)
    (hrun : run values capacity code = .ok x) : Refines [const x] code := by
  intro values' capacity' stack s hsteps
  have hs : s = x :: stack :=
    steps_append_eq hcode (run_eq_ok_iff.1 hrun) (by simpa using hsteps)
  have hlength := length_steps_le hsteps
  rw [hs, List.length_cons] at hlength
  refine steps_cons_eq_ok_iff.2 ⟨x :: stack, push_eq_ok_iff.2 ⟨by omega, rfl⟩, ?_⟩
  rw [hs]
  rfl

/-! ## Runs with other values -/

/-- Code reads no variable if none is loaded. -/
lemma any_readsVariable_eq_false_iff :
    code.any readsVariable = false ↔ code.filterMap loaded? = [] := by
  rw [List.any_eq_false, List.filterMap_eq_nil_iff]
  refine forall₂_congr fun i _ => ?_
  cases i with
  | load index => exact ⟨fun h => absurd rfl h, nofun⟩
  | const | named | unary | binary | choice => exact ⟨fun _ => rfl, fun _ => Bool.false_ne_true⟩

/-- An instruction does the same where the variable it reads has the same value. -/
lemma step_congr (h : ∀ index, i.loaded? = some index → values index = values' index)
    (capacity : ℕ) (stack : List Float) :
    i.step values capacity stack = i.step values' capacity stack := by
  cases i with
  | load index => exact congrArg (push capacity · stack) (h index rfl)
  | const | named => rfl
  | unary f =>
    match stack with
    | [] | _ :: _ => rfl
  | binary f =>
    match stack with
    | [] | [_] | _ :: _ :: _ => rfl
  | choice =>
    match stack with
    | [] | [_] | [_, _] | _ :: _ :: _ :: _ => rfl

/-- Code does the same where the variables it reads have the same values. -/
lemma steps_congr (h : ∀ index ∈ code.filterMap loaded?, values index = values' index)
    (capacity : ℕ) (stack : List Float) :
    steps values capacity code stack = steps values' capacity code stack := by
  induction code generalizing stack with
  | nil => rfl
  | cons i code ih =>
    have hstep : i.step values capacity stack = i.step values' capacity stack :=
      step_congr (fun index hloaded =>
        h index (List.mem_filterMap.2 ⟨i, List.mem_cons_self, hloaded⟩)) capacity stack
    have hrest : ∀ index ∈ code.filterMap loaded?, values index = values' index := by
      intro index hmem
      obtain ⟨j, hj, hloaded⟩ := List.mem_filterMap.1 hmem
      exact h index (List.mem_filterMap.2 ⟨j, List.mem_cons_of_mem i hj, hloaded⟩)
    have hcons : ∀ u, steps u capacity (i :: code) stack =
        i.step u capacity stack >>= steps u capacity code := fun _ => rfl
    rw [hcons, hcons, hstep]
    exact bind_congr fun t => ih hrest t

/-- A run depends on the values of the variables that are loaded, and on no others. -/
lemma run_congr (h : ∀ index ∈ code.filterMap loaded?, values index = values' index)
    (capacity : ℕ) : run values capacity code = run values' capacity code := by
  rw [run, run, steps_congr h]

end Reckon.Instruction
