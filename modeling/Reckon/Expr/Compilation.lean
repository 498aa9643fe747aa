import Reckon.Expr.Reading
import Reckon.Program.Run
import Reckon.Symbol.Table

/-!
# Compiling expressions

An expression becomes a program in postfix order.  Every operation is folded as soon as it is
emitted: the code of the expression it closes is run, and if that needs no variable and succeeds,
the code is replaced by the one constant it computes, provided that this fits.

A source that breaks off in an error has still been read up to there.  The expressions finished
before the error are compiled first: a failure to do so is the earlier error, and the variables they
introduce stay.
-/

namespace Reckon

namespace Program

/-- The program in which the instructions from `start` on are replaced by this one. -/
def replaceFrom (p : Program) (start : Nat) (i : Instruction) : Program :=
  { p with code := (p.code.extract 0 start).push i, width := p.widthAfterReplace start i }

/-- The program in which the instructions from `start` on are replaced by the constant they compute,
or the program itself if they are a single operand already, read a variable, fail on a stack of this
capacity, or the constant does not fit. -/
def fold (p : Program) (values : Nat → Float) (stackCapacity start : Nat) : Program :=
  match p.codeFrom start with
  | [] | [.const _] | [.load _] => p
  | code =>
    if code.any Instruction.readsVariable then p
    else
      match Instruction.run values stackCapacity code with
      | .error _ => p
      | .ok x =>
        if p.widthAfterReplace start (.const x) > p.capacity then p
        else p.replaceFrom start (.const x)

end Program

/-- What a compilation is told. -/
structure CompileOptions where
  /-- Whether unknown names become variables. -/
  autoInstall : Bool
  /-- How deep expressions may be nested. -/
  nestingLimit : Nat
  /-- The depth of the stack on which constants are computed. -/
  stackCapacity : Nat

/-- What a compilation changes: the variables and the program. -/
structure Workplace where
  symbols : SymbolTable
  program : Program

/-- A part of a compilation. -/
abbrev Compilation := EStateM Error Workplace

namespace Compilation

/-- Appends an instruction to the program. -/
def emit (i : Instruction) : Compilation Unit := fun w =>
  match w.program.emit i with
  | .ok p => .ok () { w with program := p }
  | .error e => .error e w

/-- The index of the variable with this name, which was read at `position`. -/
def resolve (o : CompileOptions) (name : String) (position : Nat) : Compilation Nat := fun w =>
  match w.symbols.lookup name with
  | some index => .ok index w
  | none =>
    if o.autoInstall then
      match w.symbols.install name with
      | .ok (index, symbols) => .ok index { w with symbols := symbols }
      | .error e => .error e w
    else .error (.unknownIdentifier name position) w

/-- Folds the instructions from `start` on. -/
def fold (o : CompileOptions) (start : Nat) : Compilation Unit :=
  modify fun w => { w with program := w.program.fold w.symbols.value o.stackCapacity start }

/-- Folds what `body` emits. -/
def folding (o : CompileOptions) (body : Compilation Unit) : Compilation Unit := do
  let start := (← get).program.size
  body
  fold o start

/-- Leaves an empty program behind if `body` fails. -/
def clearingOnError {α : Type} (body : Compilation α) : Compilation α := fun w =>
  match body w with
  | .ok a w' => .ok a w'
  | .error e w' => .error e { w' with program := w'.program.clear }

end Compilation

namespace Expr

open Compilation in
/-- Appends the code of an expression. -/
def emit (o : CompileOptions) : Expr → Compilation Unit
  | number x => Compilation.emit (.const x)
  | var name position => do
    let index ← resolve o name position
    Compilation.emit (.load index)
  | constant c => folding o (Compilation.emit (.named c))
  | unary f operand => folding o do
    operand.emit o
    Compilation.emit (.unary f)
  | binary f left right => folding o do
    left.emit o
    right.emit o
    Compilation.emit (.binary f)
  | choice test yes no => folding o do
    test.emit o
    yes.emit o
    no.emit o
    Compilation.emit .choice

/-- Appends the code of expressions, the newest of which comes first in the list. -/
def emitAll (o : CompileOptions) (done : List Expr) : Compilation Unit :=
  done.reverse.forM fun e => e.emit o

/-- Replaces the program by that of the expression at a cursor, and answers with the cursor behind
the expression. -/
def compileAt (o : CompileOptions) (c : Cursor) : Compilation Cursor :=
  Compilation.clearingOnError do
    modify fun w => { w with program := w.program.clear }
    match read o.nestingLimit ⟨c, []⟩ with
    | .ok _ s =>
      emitAll o s.done
      Compilation.fold o 0
      pure s.cursor
    | .error e s =>
      emitAll o s.done
      throw e

/-- Replaces the program by that of a source, which must hold one expression and nothing else. -/
def compile (o : CompileOptions) (source : String) : Compilation Program.Summary :=
  Compilation.clearingOnError do
    let c ← compileAt o (Cursor.ofString source)
    unless c.atEnd do throw (.trailingInput c.skipBlanks.offset)
    return (← get).program.summary

end Expr

end Reckon
