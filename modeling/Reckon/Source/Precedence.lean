import Reckon.Source.Progress
import Reckon.Source.Operator

/-!
# Operator precedence

How a phrase of operands and binary operators is read, for any table of operators.  A level is read
as an operand of the next tighter level, followed by as many pairs of an operator of this level and
another such operand as there are; every pair is reduced at once, so that operators of one level
associate to the left.  Inside the tightest level stands the grammar's own operand.
-/

namespace Reckon

/-- A grammar of binary operators. -/
structure Grammar (α Op : Type) where
  table : OperatorTable Op
  /-- Reads one operand. -/
  operand : Reader α Unit
  /-- Joins the two newest results by an operator; the results since the given mark are the left
  and the right operand. -/
  reduce : Op → Nat → Reader α Unit

namespace Grammar

variable {α Op : Type}

/-- The pairs of an operator of one level and an operand of the tighter ones, of which at most
`turns` are read. -/
def pairs (g : Grammar α Op) (operators : List (Spelling × Op)) (tighter : Reader α Unit)
    (start : Nat) : Nat → Reader α Unit
  | 0 => pure ()
  | turns + 1 => do
    match ← Reader.scan (Cursor.operator g.table.vocabulary operators) with
    | none => pure ()
    | some op =>
      tighter
      g.reduce op start
      pairs g operators tighter start turns

/-- Reads these levels, from the first to the tightest. -/
def climb (g : Grammar α Op) (turns : Nat) : List (List (Spelling × Op)) → Reader α Unit
  | [] => g.operand
  | operators :: tighterLevels => do
    let start ← Reader.mark
    climb g turns tighterLevels
    g.pairs operators (climb g turns tighterLevels) start turns

/-- Reads one phrase, as far as the operators of the table carry it.  Every operator takes at least
one character, so that the length of the remaining text is turns enough. -/
def phrase (g : Grammar α Op) : Reader α Unit := do
  g.climb (← get).cursor.rest.length g.table.levels

end Grammar

end Reckon
