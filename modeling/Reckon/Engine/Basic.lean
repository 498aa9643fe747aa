import Reckon.Engine.Assignment
import Reckon.Program.Listing

/-!
# Engines

An engine keeps variables and the latest program.  A program is compiled once and executed as often
as wanted, each time with the present values of the variables.  The engine also remembers whether
its latest task succeeded.
-/

namespace Reckon

/-- Variables, the latest program, and how the latest task went. -/
structure Engine where
  settings : Settings
  symbols : SymbolTable
  program : Program
  /-- Whether the program comes from a compilation that succeeded. -/
  isCompiled : Bool
  /-- Whether the latest compilation, execution or assignment succeeded. -/
  isOk : Bool

namespace Engine

/-- An engine without variables and without a program. -/
def new (settings : Settings) : Engine where
  settings := settings
  symbols := SymbolTable.withBuckets settings.symbolBuckets
  program := Program.empty settings.programCapacity
  isCompiled := false
  isOk := true

/-- Compiles an expression in place of the program. -/
def compile (source : String) : EStateM Error Engine Program.Summary := fun e =>
  match Expr.compile e.settings.compileOptions source ⟨e.symbols, e.program⟩ with
  | .ok summary w =>
    .ok summary
      { e with symbols := w.symbols, program := w.program, isCompiled := true, isOk := true }
  | .error err w =>
    .error err
      { e with symbols := w.symbols, program := w.program, isCompiled := false, isOk := false }

/-- The value of the program. -/
def execute : EStateM Error Engine Float := fun e =>
  if e.isCompiled then
    match e.program.run e.symbols.value e.settings.stackCapacity with
    | .ok x => .ok x { e with isOk := true }
    | .error err => .error err { e with isOk := false }
  else .error .noProgram { e with isOk := false }

/-- The value of the program, or zero if it has none. -/
def executeValue : StateM Engine Float := fun e =>
  match execute e with
  | .ok x e' => (x, e')
  | .error _ e' => (0, e')

/-- Compiles an expression and computes its value. -/
def evaluate (source : String) : EStateM Error Engine Float := do
  let _ ← compile source
  execute

/-- Does the assignments of a source.  The program stays as it is. -/
def assign (source : String) : EStateM Error Engine (List Assignment) := fun e =>
  match Assignment.runAll e.settings source e.symbols with
  | .ok done symbols => .ok done { e with symbols := symbols, isOk := true }
  | .error err symbols => .error err { e with symbols := symbols, isOk := false }

/-- The index of a name. -/
def lookup (e : Engine) (name : String) : Option Nat := e.symbols.lookup name

/-- The value of a name. -/
def valueOf? (e : Engine) (name : String) : Option Float := e.symbols.valueOf? name

/-- The index of a name, which is added if it is new. -/
def install (name : String) : EStateM Error Engine Nat := fun e =>
  match e.symbols.install name with
  | .ok (index, symbols) => .ok index { e with symbols := symbols }
  | .error err => .error err e

/-- Gives a name a value, and answers with its index. -/
def set (name : String) (x : Float) : EStateM Error Engine Nat := do
  let index ← install name
  modify fun e => { e with symbols := e.symbols.set index x }
  return index

/-- The listing of the program. -/
def listing (e : Engine) : String := e.program.listing e.symbols.name?

/-- A filter with the limits of the engine. -/
def rowFilter (e : Engine) (expression : String) : RowFilter :=
  RowFilter.new expression e.settings.filterLimits

end Engine

end Reckon
