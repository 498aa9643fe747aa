import Reckon.Source.Precedence

/-!
# Precedence climbing

In which order operands are read and operators are reduced does not depend on what is made of them.
It is all that a `Climber` knows: somewhere in its state there are a cursor and an output position,
and it can read an operand and reduce an operator, whatever these do otherwise.  Every grammar is
one, with its progress as the state (`Grammar.climber`).
-/

namespace Reckon

/-- What reads operands and reduces the operators between them, working on a state with a cursor in
it. -/
structure Climber (σ Op : Type) where
  table : OperatorTable Op
  cursor : σ → Cursor
  moveTo : Cursor → σ → σ
  /-- The output position. -/
  mark : σ → Nat
  /-- Reads one operand. -/
  operand : EStateM Error σ Unit
  /-- Joins the two newest results by an operator; the left one begins at the given output
  position. -/
  reduce : Op → Nat → EStateM Error σ Unit
  cursor_moveTo : ∀ c s, cursor (moveTo c s) = c
  moveTo_cursor : ∀ s, moveTo (cursor s) s = s
  moveTo_moveTo : ∀ c d s, moveTo c (moveTo d s) = moveTo c s

namespace Climber

variable {σ Op : Type}

/-- A step of the cursor. -/
def scan {β : Type} (g : Climber σ Op) (step : Cursor → β × Cursor) : EStateM Error σ β := fun s =>
  .ok (step (g.cursor s)).1 (g.moveTo (step (g.cursor s)).2 s)

/-- The present output position. -/
def marked (g : Climber σ Op) : EStateM Error σ Nat := fun s => .ok (g.mark s) s

/-- The pairs of an operator of one level and an operand of the tighter ones, of which at most
`turns` are read. -/
def pairs (g : Climber σ Op) (operators : List (Spelling × Op)) (tighter : EStateM Error σ Unit)
    (start : Nat) : Nat → EStateM Error σ Unit
  | 0 => pure ()
  | turns + 1 => do
    match ← g.scan (Cursor.operator g.table.vocabulary operators) with
    | none => pure ()
    | some op =>
      tighter
      g.reduce op start
      pairs g operators tighter start turns

/-- Reads these levels, from the first to the tightest. -/
def climb (g : Climber σ Op) (turns : Nat) : List (List (Spelling × Op)) → EStateM Error σ Unit
  | [] => g.operand
  | operators :: tighterLevels => do
    let start ← g.marked
    climb g turns tighterLevels
    g.pairs operators (climb g turns tighterLevels) start turns

/-- Reads one phrase, as far as the operators of the table carry it.  Every operator takes at least
one character, so that the length of the remaining text is turns enough. -/
def phrase (g : Climber σ Op) : EStateM Error σ Unit := do
  g.climb (g.cursor (← get)).rest.length g.table.levels

end Climber

namespace Grammar

variable {α Op : Type}

/-- A grammar climbs through its source, and its output position is the number of its results. -/
def climber (g : Grammar α Op) : Climber (Progress α) Op where
  table := g.table
  cursor s := s.cursor
  moveTo c s := { s with cursor := c }
  mark s := s.done.length
  operand := g.operand
  reduce := g.reduce
  cursor_moveTo _ _ := rfl
  moveTo_cursor _ := rfl
  moveTo_moveTo _ _ _ := rfl

end Grammar

end Reckon
