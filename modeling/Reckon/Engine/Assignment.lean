import Reckon.Engine.Settings

/-!
# Assignments

An assignment gives a variable the value of an expression.  Assignments are joined by semicolons and
done one after the other, so that each sees the effects of those before it; the first failure ends
the list, and what was done before it stays done.  The variable exists from the moment its name was
read, with the value zero until its expression is computed.
-/

namespace Reckon

/-- An assignment that was done. -/
structure Assignment where
  /-- The index of the variable. -/
  index : Nat
  value : Float

namespace Assignment

/-- The index of a name, which is added if it is new. -/
def install (name : String) : EStateM Error SymbolTable Nat := fun t =>
  match t.install name with
  | .ok (index, t') => .ok index t'
  | .error e => .error e t

/-- The value of the expression at a cursor, and the cursor behind it. -/
def valueAt (s : Settings) (c : Cursor) : EStateM Error SymbolTable (Float × Cursor) := fun t =>
  match Expr.compileAt s.compileOptions c ⟨t, Program.empty s.programCapacity⟩ with
  | .error e w => .error e w.symbols
  | .ok c' w =>
    match w.program.run w.symbols.value s.stackCapacity with
    | .error e => .error e w.symbols
    | .ok x => .ok (x, c') w.symbols

/-- The variable that is assigned to, and the cursor behind the equals sign.  Two equals signs are a
comparison. -/
def targetAt (c : Cursor) : Except Error (String × Cursor) := do
  let (name?, behind) := c.name
  match name? with
  | none => throw (.expectedIdentifier c.skipBlanks.offset)
  | some name =>
    if Builtin.isReserved name then throw (.reservedName name c.skipBlanks.offset)
    let sign := behind.skipBlanks
    match sign.rest with
    | '=' :: '=' :: _ => throw (.expectedAssignment sign.offset)
    | '=' :: _ => return (name, sign.skip 1)
    | _ => throw (.expectedAssignment sign.offset)

/-- Does the assignment at a cursor, and answers with the cursor behind it. -/
def statementAt (s : Settings) (c : Cursor) :
    EStateM Error SymbolTable (Assignment × Cursor) := do
  match targetAt c with
  | .error e => throw e
  | .ok (name, behind) =>
    let index ← install name
    let (x, rest) ← valueAt s behind
    modify fun t => t.set index x
    return (⟨index, x⟩, rest)

/-- Does the assignments from a cursor on, of which there are at most `turns`. -/
def statementsAt (s : Settings) : Nat → Cursor → EStateM Error SymbolTable (List Assignment)
  | 0, _ => return []
  | turns + 1, c => do
    if c.atEnd then return []
    let (done, rest) ← statementAt s c
    match rest.eat ';' with
    | (true, behind) => return done :: (← statementsAt s turns behind)
    | (false, behind) =>
      if behind.atEnd then return [done]
      throw (.trailingInput behind.offset)

/-- Does the assignments of a source.  Each takes at least one character, so that the length of the
source is turns enough. -/
def runAll (s : Settings) (source : String) : EStateM Error SymbolTable (List Assignment) :=
  statementsAt s (source.toList.length + 1) (Cursor.ofString source)

end Assignment

end Reckon
