import Reckon.Proofs.Outcome
import Reckon.Proofs.Program.Folding

/-!
# The account of the width

A program keeps the width of its instructions beside them, and three edits change both: an
instruction is appended, the end is dropped, everything is dropped.  Whatever edits a new program
has been through, the width that is kept is that of the instructions and within the capacity, an
instruction is refused just when it does not fit, and the width that is foretold for a replacement
is the one that the replacement has (`Compilation.account_after_edits`).  So a constant that folding
has found to fit can be appended.
-/

namespace Reckon

namespace Program

variable {p : Program}

/-- The width of what is kept is counted anew. -/
lemma width_truncate (hp : p.IsConsistent) (position : ℕ) :
    (p.truncate position).width = totalWidth (p.code.toList.take position) := by
  have hsplit : p.width = totalWidth (p.code.toList.take position) +
      totalWidth (p.code.toList.drop position) := by
    rw [← totalWidth_append, List.take_append_drop]
    exact hp
  have hkept : (p.truncate position).width =
      p.width - totalWidth (p.code.toList.drop position) :=
    congrArg (p.width - totalWidth ·) (p.codeFrom_eq_drop position)
  rw [hkept, hsplit, Nat.add_sub_cancel]

/-- A program that is cut off accounts for its code. -/
lemma IsConsistent.truncate (hp : p.IsConsistent) (position : ℕ) :
    (p.truncate position).IsConsistent := by
  rw [IsConsistent, width_truncate hp, toList_truncate]

/-- A program that is cut off stays within its capacity. -/
lemma IsValid.truncate (hp : p.IsValid) (position : ℕ) : (p.truncate position).IsValid :=
  ⟨hp.isConsistent.truncate position, Nat.le_trans (Nat.sub_le _ _) hp.width_le⟩

/-- Appending at the end that is left after a truncation succeeds just when the replacement is
foretold to fit, and it is the replacement. -/
lemma emit_truncate (hp : p.IsConsistent) (position : ℕ) (i : Instruction) :
    (p.truncate position).emit i =
      if p.widthAfterReplace position i ≤ p.capacity then .ok (p.replaceFrom position i)
      else .error (.programTooLarge p.capacity) := by
  have hwidth : (p.truncate position).width + i.width = p.widthAfterReplace position i := by
    rw [width_truncate hp, widthAfterReplace_eq]
  have hreplace : p.replaceFrom position i =
      ⟨(p.truncate position).code.push i, (p.truncate position).width + i.width, p.capacity⟩ := by
    rw [hwidth]
    rfl
  split
  · rename_i hfits
    rw [hreplace, emit_eq_ok_iff]
    exact ⟨hwidth ▸ hfits, rfl⟩
  · rename_i hlarge
    rw [emit_eq_error_iff]
    exact ⟨hwidth ▸ Nat.not_le.1 hlarge, rfl⟩

/-- Folding leaves a program alone, or it drops the end and appends a constant, which succeeds. -/
lemma fold_eq_or_emit_truncate (hp : p.IsConsistent) (values : ℕ → Float)
    (stackCapacity start : ℕ) :
    p.fold values stackCapacity start = p ∨
      ∃ x, (p.truncate start).emit (.const x) = .ok (p.fold values stackCapacity start) := by
  rcases p.fold_cases values stackCapacity start with hsame | ⟨x, -, -, hwidth, hfold⟩
  · exact .inl hsame
  · exact .inr ⟨x, by rw [emit_truncate hp, if_pos hwidth, hfold]⟩

end Program

namespace Compilation

/-- What a program can go through on its own. -/
inductive Edit
  /-- An instruction is appended, if it fits. -/
  | emit (i : Instruction)
  /-- The instructions from a position on are dropped. -/
  | truncate (position : ℕ)
  /-- All instructions are dropped. -/
  | clear

/-- What an edit does to the workplace. -/
def Edit.perform : Edit → Compilation Unit
  | emit i => Compilation.emit i
  | truncate position => modify fun w => { w with program := w.program.truncate position }
  | clear => modify fun w => { w with program := w.program.clear }

/-- The workplace after one edit after the other, whether they succeed or fail. -/
def edited (edits : List Edit) (w : Workplace) : Workplace :=
  edits.foldl (fun w edit => Outcome.final (edit.perform w)) w

variable {w : Workplace}

/-- An instruction is emitted if its width and that of the code have room. -/
lemma emit_apply (hw : w.program.IsConsistent) (i : Instruction) :
    emit i w =
      let total := Program.totalWidth w.program.code.toList
      if w.program.capacity < total + i.width then .error (.programTooLarge w.program.capacity) w
      else .ok () { w with
        program := ⟨w.program.code.push i, total + i.width, w.program.capacity⟩ } := by
  rw [← hw, emit, Program.emit]
  by_cases hlarge : w.program.width + i.width > w.program.capacity
  · rw [if_pos hlarge]
    exact (if_pos hlarge).symm
  · rw [if_neg hlarge]
    exact (if_neg hlarge).symm

/-- No edit breaks the account or changes the capacity. -/
lemma perform_spec (hw : w.program.IsValid) (edit : Edit) :
    (Outcome.final (edit.perform w)).program.IsValid ∧
      (Outcome.final (edit.perform w)).program.capacity = w.program.capacity := by
  cases edit with
  | emit i =>
    rw [Edit.perform, emit]
    cases hemit : w.program.emit i with
    | ok p => exact ⟨hw.emit hemit, (hw.isConsistent.emit hemit).2.2⟩
    | error e => exact ⟨hw, rfl⟩
  | truncate position => exact ⟨hw.truncate position, rfl⟩
  | clear => exact ⟨w.program.isValid_clear, rfl⟩

/-- All edits keep the width right and within the capacity. -/
lemma edited_spec (hw : w.program.IsValid) (edits : List Edit) :
    (edited edits w).program.IsValid ∧
      (edited edits w).program.capacity = w.program.capacity := by
  induction edits generalizing w with
  | nil => exact ⟨hw, rfl⟩
  | cons edit edits ih =>
    obtain ⟨hvalid, hcapacity⟩ := perform_spec hw edit
    obtain ⟨hvalid', hcapacity'⟩ := ih hvalid
    exact ⟨hvalid', hcapacity'.trans hcapacity⟩

/-- A new program has been through whatever edits.  Then the width that is kept is the total width
of the instructions, and within the capacity.  A further instruction is refused just when the total
with it exceeds the capacity, and then nothing changes.  For every position and instruction,
dropping what is behind the position and appending the instruction succeeds just when the width that
is foretold for this is within the capacity, and then it is the width of the result.  So folding, if
it changes the program at all, drops what it has run and appends the constant without failing. -/
theorem account_after_edits (symbols : SymbolTable) (capacity : ℕ) (edits : List Edit) :
    let w := edited edits ⟨symbols, .empty capacity⟩
    let p := w.program
    let total := Program.totalWidth p.code.toList
    p.width = total ∧ total ≤ capacity ∧
      (∀ i, emit i w =
        if capacity < total + i.width then .error (.programTooLarge capacity) w
        else .ok () { w with program := ⟨p.code.push i, total + i.width, capacity⟩ }) ∧
      (∀ position i,
        (p.widthAfterReplace position i ≤ capacity ↔ ∃ q, (p.truncate position).emit i = .ok q) ∧
        ∀ q, (p.truncate position).emit i = .ok q →
          q.width = p.widthAfterReplace position i ∧
            q.code.toList = p.code.toList.take position ++ [i]) ∧
      ∀ values stackCapacity start, p.fold values stackCapacity start = p ∨
        ∃ x, (p.truncate start).emit (.const x) = .ok (p.fold values stackCapacity start) := by
  intro w p total
  have hempty : (Program.empty capacity).IsValid := ⟨rfl, Nat.zero_le capacity⟩
  obtain ⟨hvalid, hcapacity⟩ : p.IsValid ∧ p.capacity = capacity :=
    edited_spec (w := ⟨symbols, .empty capacity⟩) hempty edits
  have hwidth : p.width = total := hvalid.isConsistent
  refine ⟨hwidth, ?_, fun i => ?_, fun position i => ?_, ?_⟩
  · rw [← hwidth, ← hcapacity]
    exact hvalid.width_le
  · have hemit := emit_apply hvalid.isConsistent i
    rwa [hcapacity] at hemit
  · have hemit := Program.emit_truncate hvalid.isConsistent position i
    rw [hcapacity] at hemit
    by_cases hfits : p.widthAfterReplace position i ≤ capacity
    · rw [if_pos hfits] at hemit
      refine ⟨⟨fun _ => ⟨_, hemit⟩, fun _ => hfits⟩, fun q hq => ?_⟩
      obtain rfl : p.replaceFrom position i = q := Except.ok.inj (hemit.symm.trans hq)
      refine ⟨rfl, ?_⟩
      rw [Program.replaceFrom, Array.toList_push]
      exact congrArg (· ++ [i]) (p.toList_truncate position)
    · rw [if_neg hfits] at hemit
      have hfails : ∀ q, (p.truncate position).emit i ≠ .ok q := by
        intro q hq
        rw [hemit] at hq
        contradiction
      exact ⟨⟨fun h => absurd h hfits, fun h => absurd h (not_exists.2 hfails)⟩,
        fun q hq => absurd hq (hfails q)⟩
  · exact Program.fold_eq_or_emit_truncate hvalid.isConsistent

end Compilation

end Reckon
