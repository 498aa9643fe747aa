import Reckon.Program.Machine
import Reckon.Proofs.Outcome

/-!
# Runs on machines

A machine keeps the stack of its latest run, and its instructions take their operands one by one.
None of this shows: whatever was run before, a run on a machine gives what the run of the same code
gives on an empty stack (`Machine.answer_run`).  Step by step, what happens on a machine is what
happens to its stack (`Machine.Follows`), except that a failure leaves some of it behind.
-/

namespace Reckon

open Outcome

namespace Machine

/-- Whether what happens on a machine is what happens to its stack. -/
inductive Follows (capacity : ℕ) :
    Except Error (List Float) → EStateM.Result Error Machine Unit → Prop
  | ok (stack : List Float) : Follows capacity (.ok stack) (.ok () ⟨capacity, stack⟩)
  | error (e : Error) (stack : List Float) :
      Follows capacity (.error e) (.error e ⟨capacity, stack⟩)

/-- A machine pushes as the stack does. -/
lemma follows_push (capacity : ℕ) (x : Float) (stack : List Float) :
    Follows capacity (Instruction.push capacity x stack) (push x ⟨capacity, stack⟩) := by
  unfold Instruction.push push
  dsimp only
  split
  · exact .error _ stack
  · exact .ok (x :: stack)

/-- An instruction does to the stack of a machine what it does to a stack. -/
lemma follows_perform (values : ℕ → Float) (capacity : ℕ) (i : Instruction) (stack : List Float) :
    Follows capacity (i.step values capacity stack) (perform values i ⟨capacity, stack⟩) := by
  cases i with
  | const x => exact follows_push capacity x stack
  | load index => exact follows_push capacity (values index) stack
  | named c => exact follows_push capacity c.value stack
  | unary f =>
    match stack with
    | [] => exact .error _ []
    | x :: rest => exact .ok (f.apply x :: rest)
  | binary f =>
    match stack with
    | [] | [_] => exact .error _ []
    | b :: a :: rest => exact .ok (f.apply a b :: rest)
  | choice =>
    match stack with
    | [] | [_] | [_, _] => exact .error _ []
    | no :: yes :: test :: rest => exact .ok (choose test yes no :: rest)

/-- A machine performs code as it is run on a stack. -/
lemma follows_forM (values : ℕ → Float) (capacity : ℕ) (code : List Instruction)
    (stack : List Float) :
    Follows capacity (Instruction.steps values capacity code stack)
      (code.forM (perform values) ⟨capacity, stack⟩) := by
  induction code generalizing stack with
  | nil => exact .ok stack
  | cons i code ih =>
    have hcons : Instruction.steps values capacity (i :: code) stack =
        i.step values capacity stack >>= Instruction.steps values capacity code := rfl
    have hforM : (i :: code).forM (perform values) =
        perform values i >>= fun _ => code.forM (perform values) := rfl
    have hfirst := follows_perform values capacity i stack
    rw [hcons, hforM, bind_apply]
    generalize i.step values capacity stack = r at hfirst ⊢
    generalize perform values i ⟨capacity, stack⟩ = r' at hfirst ⊢
    rcases hfirst with s | ⟨e, s⟩
    · exact ih s
    · exact .error e s

/-- Whatever is on the stack of a machine, a run gives what it gives on an empty stack. -/
lemma answer_run (values : ℕ → Float) (code : List Instruction) (m : Machine) :
    answer (run values code m) = Instruction.run values m.capacity code ∧
      (final (run values code m)).capacity = m.capacity := by
  have hrun : run values code m =
      (code.forM (perform values) >>= fun _ => result) ⟨m.capacity, []⟩ := rfl
  have hcode := follows_forM values m.capacity code []
  rw [hrun, bind_apply, Instruction.run]
  generalize Instruction.steps values m.capacity code [] = r at hcode ⊢
  generalize code.forM (perform values) ⟨m.capacity, []⟩ = r' at hcode ⊢
  rcases hcode with s | ⟨e, s⟩
  · rcases s with _ | ⟨x, _ | ⟨y, s⟩⟩
    · exact ⟨rfl, rfl⟩
    · exact ⟨rfl, rfl⟩
    · exact ⟨rfl, rfl⟩
  · exact ⟨rfl, rfl⟩

/-- A machine after some runs, each with its own values of the variables. -/
def after (m : Machine) (runs : List ((ℕ → Float) × List Instruction)) : Machine :=
  runs.foldl (fun m r => final (run r.1 r.2 m)) m

/-- Runs do not change the capacity. -/
lemma capacity_after (m : Machine) (runs : List ((ℕ → Float) × List Instruction)) :
    (m.after runs).capacity = m.capacity := by
  induction runs generalizing m with
  | nil => rfl
  | cons r runs ih => exact (ih _).trans (answer_run r.1 r.2 m).2

end Machine

end Reckon
