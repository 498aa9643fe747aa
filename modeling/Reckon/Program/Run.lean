import Reckon.Program.Basic

/-!
# Running programs

A run works through the instructions with a stack of bounded depth.  It needs the values of the
variables, fails when an operand is missing or the stack is full, and succeeds with the one value
that is left on the stack.
-/

namespace Reckon

namespace Instruction

/-- Puts a number on the stack if there is room. -/
def push (capacity : Nat) (x : Float) (stack : List Float) : Except Error (List Float) :=
  if stack.length ≥ capacity then .error (.stackOverflow capacity) else .ok (x :: stack)

/-- The stack after an instruction, the newest value first.  Only instructions without operands need
room. -/
def step (values : Nat → Float) (capacity : Nat) (i : Instruction) (stack : List Float) :
    Except Error (List Float) :=
  match i, stack with
  | const x, _ => push capacity x stack
  | load index, _ => push capacity (values index) stack
  | named c, _ => push capacity c.value stack
  | unary f, x :: rest => .ok (f.apply x :: rest)
  | binary f, b :: a :: rest => .ok (f.apply a b :: rest)
  | choice, no :: yes :: test :: rest => .ok (choose test yes no :: rest)
  | _, _ => .error (.stackImbalance 0)

/-- The stack after a list of instructions. -/
def steps (values : Nat → Float) (capacity : Nat) (code : List Instruction)
    (stack : List Float) : Except Error (List Float) :=
  code.foldlM (fun stack i => i.step values capacity stack) stack

/-- The value that a list of instructions computes, starting with an empty stack. -/
def run (values : Nat → Float) (capacity : Nat) (code : List Instruction) : Except Error Float := do
  match ← steps values capacity code [] with
  | [x] => pure x
  | stack => throw (.stackImbalance stack.length)

end Instruction

namespace Program

/-- The depth of the stack unless told otherwise. -/
def defaultStackCapacity : Nat := 30

/-- The value that a program computes. -/
def run (p : Program) (values : Nat → Float) (capacity : Nat) : Except Error Float :=
  Instruction.run values capacity p.code.toList

/-- The value that a program computes when it is started at a position. -/
def runFrom (p : Program) (position : Nat) (values : Nat → Float) (capacity : Nat) :
    Except Error Float :=
  Instruction.run values capacity (p.codeFrom position)

/-- Whether an instruction from a position on reads a variable. -/
def usesVariablesFrom (p : Program) (position : Nat) : Bool :=
  (p.codeFrom position).any Instruction.readsVariable

end Program

end Reckon
