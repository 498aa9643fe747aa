import Reckon.Program.Instruction
import Reckon.Error

/-!
# Programs

A program is a buffer of instructions whose total width is bounded.  It only changes at its end:
an instruction is appended if it fits, and everything from some position on is dropped.  The total
width is kept beside the instructions.
-/

namespace Reckon

/-- A bounded buffer of instructions. -/
structure Program where
  code : Array Instruction
  /-- The total width of the instructions. -/
  width : Nat
  /-- The width that is available. -/
  capacity : Nat

namespace Program

/-- The capacity unless told otherwise. -/
def defaultCapacity : Nat := 1000

/-- The capacity of a program that is built by hand. -/
def unbounded : Nat := 18446744073709551615

/-- The total width of instructions. -/
def totalWidth : List Instruction → Nat
  | [] => 0
  | i :: code => i.width + totalWidth code

/-- A program without instructions. -/
def empty (capacity : Nat) : Program := ⟨#[], 0, capacity⟩

/-- The program of these instructions, without a bound. -/
def ofInstructions (code : List Instruction) : Program := ⟨code.toArray, totalWidth code, unbounded⟩

/-- The program that pushes one number. -/
def constant (x : Float) : Program := ofInstructions [.const x]

/-- The number of instructions. -/
def size (p : Program) : Nat := p.code.size

/-- Whether there are no instructions. -/
def isEmpty (p : Program) : Bool := p.code.isEmpty

/-- Appends an instruction if it fits. -/
def emit (p : Program) (i : Instruction) : Except Error Program :=
  if p.width + i.width > p.capacity then .error (.programTooLarge p.capacity)
  else .ok { p with code := p.code.push i, width := p.width + i.width }

/-- The instructions from a position on. -/
def codeFrom (p : Program) (position : Nat) : List Instruction :=
  (p.code.extract position p.code.size).toList

/-- Drops the instructions from a position on. -/
def truncate (p : Program) (position : Nat) : Program :=
  { p with
    code := p.code.extract 0 position
    width := p.width - totalWidth (p.codeFrom position) }

/-- The width after the instructions from a position on are replaced by this one. -/
def widthAfterReplace (p : Program) (position : Nat) (i : Instruction) : Nat :=
  totalWidth (p.code.extract 0 position).toList + i.width

/-- Drops all instructions. -/
def clear (p : Program) : Program := empty p.capacity

/-- The number that a program of a single constant pushes. -/
def asConstant? (p : Program) : Option Float :=
  match p.code.toList with
  | [.const x] => some x
  | _ => none

/-- Whether some instruction reads a variable. -/
def usesVariables (p : Program) : Bool := p.code.any Instruction.readsVariable

/-- The number of different variables that are read. -/
def variableCount (p : Program) : Nat :=
  (p.code.toList.filterMap Instruction.loaded?).eraseDups.length

/-- The greatest depth of the stack during a run, by counting what every instruction takes and
leaves.  It is counted in unbounded integers; no count in signed words of 32 bits would overflow
before a program of 2³⁰ instructions (`Instruction.natAbs_depthAt_le`). -/
def maxStackDepth (p : Program) : Nat :=
  let track := fun (depth, greatest) (i : Instruction) =>
    (depth + i.stackEffect, max greatest (depth + i.stackEffect))
  (p.code.foldl track ((0 : Int), (0 : Int))).2.toNat

/-- What a compilation reports about its program. -/
structure Summary where
  size : Nat
  width : Nat
  /-- The number of different variables. -/
  variableCount : Nat
  deriving DecidableEq, Repr

/-- The figures of a program. -/
def summary (p : Program) : Summary := ⟨p.size, p.width, p.variableCount⟩

end Program

end Reckon
