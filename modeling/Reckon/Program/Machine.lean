import Reckon.Program.Run

/-!
# Machines

A machine runs one list of instructions after another on the same stack.  A run that fails leaves on
the stack whatever was there at that moment, and an operation that lacks an operand has taken the
others already; so every run begins by clearing the stack.
-/

namespace Reckon

/-- A stack of bounded depth, which is kept between runs. -/
structure Machine where
  capacity : Nat
  /-- What the latest run has left, the newest value first. -/
  stack : List Float

namespace Machine

/-- Puts a number on the stack if there is room. -/
def push (x : Float) : EStateM Error Machine Unit := fun m =>
  if m.stack.length ≥ m.capacity then .error (.stackOverflow m.capacity) m
  else .ok () { m with stack := x :: m.stack }

/-- Takes the newest value from the stack. -/
def pop : EStateM Error Machine Float := fun m =>
  match m.stack with
  | [] => .error (.stackImbalance 0) m
  | x :: rest => .ok x { m with stack := rest }

/-- Puts a result on the stack, in the place of an operand that was taken. -/
def replace (x : Float) : EStateM Error Machine Unit :=
  modify fun m => { m with stack := x :: m.stack }

/-- Does what an instruction says. -/
def perform (values : Nat → Float) : Instruction → EStateM Error Machine Unit
  | .const x => push x
  | .load index => push (values index)
  | .named c => push c.value
  | .unary f => do
    let x ← pop
    replace (f.apply x)
  | .binary f => do
    let b ← pop
    let a ← pop
    replace (f.apply a b)
  | .choice => do
    let no ← pop
    let yes ← pop
    let test ← pop
    replace (choose test yes no)

/-- The value on the stack, if there is exactly one. -/
def result : EStateM Error Machine Float := fun m =>
  match m.stack with
  | [x] => .ok x m
  | stack => .error (.stackImbalance stack.length) m

/-- Runs a list of instructions on the cleared stack. -/
def run (values : Nat → Float) (code : List Instruction) : EStateM Error Machine Float := do
  modify fun m => { m with stack := [] }
  code.forM (perform values)
  result

end Machine

end Reckon
