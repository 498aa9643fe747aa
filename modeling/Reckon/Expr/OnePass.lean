import Reckon.Expr.Compilation

/-!
# Compiling in one pass

An expression can be compiled while it is read, without a tree: the code of a part is emitted as
soon as the part has been read, and what joins the parts is emitted behind them.  A phrase notes
where the program ends before it reads its first part, so that it can fold what it has emitted
since.

The readers call one another as the grammar has it, and nothing else bounds how often they do:
neither the nesting is counted down nor are the turns of the loops.  A translation that went on
without end would have no outcome.

A log tells what happened when.  No reader looks at it.
-/

namespace Reckon

/-- Where a translation calls itself: the readers of phrases, and the turns of their loops. -/
inductive Station
  /-- A turn of the loop over the arguments of a function. -/
  | argument
  | expression
  /-- So many levels of binary operators. -/
  | levels (count : Nat)
  /-- A turn of the loop over the operators of a level. -/
  | operator
  | operand
  deriving DecidableEq, Repr

/-- An entry into a call: what has been called, and where the cursor stood. -/
structure Entry where
  station : Station
  cursor : Cursor
  deriving DecidableEq, Repr

/-- What happens during a translation. -/
inductive Event
  /-- The first of these calls is entered, while the others have not come to their end. -/
  | entering (calls : List Entry)
  /-- An instruction has been emitted. -/
  | emitted (i : Instruction)
  /-- The operator of two operands is about to be emitted; the left one began at the end of a
  program. -/
  | reducing (before : Program)
  /-- What was emitted behind a program is about to be folded. -/
  | folding (before : Program)

/-- An event, and how far the translation had come. -/
structure Moment where
  event : Event
  cursor : Cursor
  program : Program

/-- How far a translation has come. -/
structure Translation where
  cursor : Cursor
  workplace : Workplace
  /-- What has happened so far, the latest first. -/
  log : List Moment

/-- A part of a translation, which has no outcome if it does not come to an end. -/
abbrev Translating (β : Type) := ExceptT Error (StateT Translation Option) β

namespace Translation

variable {β : Type}

/-! ## Steps -/

/-- A step that has to do with the source only. -/
def reading (x : Reader Empty β) : Translating β := fun t =>
  match x ⟨t.cursor, []⟩ with
  | .ok b s => some (.ok b, { t with cursor := s.cursor })
  | .error e s => some (.error e, { t with cursor := s.cursor })

/-- A step that has to do with the variables and the program only. -/
def compiling (x : Compilation β) : Translating β := fun t =>
  match x t.workplace with
  | .ok b w => some (.ok b, { t with workplace := w })
  | .error e w => some (.error e, { t with workplace := w })

/-- Adds an event to the log. -/
def note (event : Event) : Translating Unit := fun t =>
  some (.ok (), { t with log := ⟨event, t.cursor, t.workplace.program⟩ :: t.log })

/-- The program so far. -/
def mark : Translating Program := fun t => some (.ok t.workplace.program, t)

/-- Enters a call inside of others. -/
def enter (station : Station) (calls : List Entry) : Translating (List Entry) := fun t =>
  let entered := ⟨station, t.cursor⟩ :: calls
  some (.ok entered,
    { t with log := ⟨.entering entered, t.cursor, t.workplace.program⟩ :: t.log })

/-- The depth of a phrase inside of phrases of this depth. -/
def nest (o : CompileOptions) (depth : Nat) : Translating Nat :=
  if depth < o.nestingLimit then pure (depth + 1) else throw (.nestingTooDeep o.nestingLimit)

/-- Appends an instruction to the program. -/
def emit (i : Instruction) : Translating Unit := do
  compiling (Compilation.emit i)
  note (.emitted i)

/-- Folds what was emitted behind a program. -/
def fold (o : CompileOptions) (before : Program) : Translating Unit := do
  note (.folding before)
  compiling (Compilation.fold o before.size)

/-- Appends an instruction behind its operands, which were emitted behind a program, and folds
them. -/
def emitFolding (o : CompileOptions) (i : Instruction) (before : Program) : Translating Unit := do
  emit i
  fold o before

end Translation

/-! ## Phrases -/

namespace CompileOptions

open Translation

mutual

/-- An expression, or a choice between two. -/
def expression (o : CompileOptions) (depth : Nat) (calls : List Entry) : Translating Unit := do
  let calls ← enter .expression calls
  let depth ← nest o depth
  let before ← mark
  o |>.climb depth calls Expr.binaryOperators.levels
  if ← reading (Reader.eat '?') then
    o |>.expression depth calls
    reading (Reader.expect ':')
    o |>.expression depth calls
    emitFolding o .choice before
partial_fixpoint

/-- These levels of binary operators, from the first to the tightest. -/
def climb (o : CompileOptions) (depth : Nat) (calls : List Entry) :
    List (List (Spelling × BinaryOp)) → Translating Unit
  | [] => o |>.operand depth calls
  | operators :: tighter => do
    let calls ← enter (.levels (tighter.length + 1)) calls
    let before ← mark
    o |>.climb depth calls tighter
    o |>.operations depth calls operators tighter before
partial_fixpoint

/-- The operators of one level, each with its right operand.  The left operand of the first one
began where a program ended. -/
def operations (o : CompileOptions) (depth : Nat) (calls : List Entry)
    (operators : List (Spelling × BinaryOp)) (tighter : List (List (Spelling × BinaryOp)))
    (before : Program) : Translating Unit := do
  let calls ← enter .operator calls
  match ← reading (Reader.scan (Cursor.operator Expr.binaryOperators.vocabulary operators)) with
  | none => pure ()
  | some f =>
    o |>.climb depth calls tighter
    note (.reducing before)
    emitFolding o (.binary f) before
    o |>.operations depth calls operators tighter before
partial_fixpoint

/-- An operand, which is a primary behind any number of signs. -/
def operand (o : CompileOptions) (depth : Nat) (calls : List Entry) : Translating Unit := do
  let calls ← enter .operand calls
  match (← reading Reader.peek).bind fun c => Expr.signs.lookup c with
  | none => o |>.primary depth calls
  | some sign =>
    let _ ← reading (Reader.scan Cursor.bump)
    let depth ← nest o depth
    let before ← mark
    o |>.operand depth calls
    match sign with
    | none => pure ()
    | some f =>
      emitFolding o (.unary f) before
partial_fixpoint

/-- A numeral, an expression in parentheses, or what a name stands for. -/
def primary (o : CompileOptions) (depth : Nat) (calls : List Entry) : Translating Unit := do
  let position ← reading Reader.tokenPosition
  match ← reading (Reader.scanExcept Cursor.number) with
  | some x => emit (.const x)
  | none =>
    if ← reading (Reader.eat '(') then
      o |>.expression depth calls
      reading (Reader.closeGroup position)
    else
      match ← reading (Reader.scan Cursor.name) with
      | some name => o |>.named depth calls name position
      | none => reading Reader.unexpected
partial_fixpoint

/-- What a name read at `position` stands for. -/
def named (o : CompileOptions) (depth : Nat) (calls : List Entry) (name : String)
    (position : Nat) : Translating Unit :=
  match Builtin.lookup name with
  | none => do
    let index ← compiling (Compilation.resolve o name position)
    emit (.load index)
  | some ⟨_, .constant c⟩ => do
    let before ← mark
    emitFolding o (.named c) before
  | some function => o |>.application depth calls function position
partial_fixpoint

/-- The argument list of a function whose name was read at `position`, and the function. -/
def application (o : CompileOptions) (depth : Nat) (calls : List Entry) (function : Builtin)
    (position : Nat) : Translating Unit := do
  let opening ← reading Reader.tokenPosition
  unless ← reading (Reader.eat '(') do throw (.missingArguments function.name position)
  let before ← mark
  let found ←
    if ← reading (Reader.eat ')') then pure 0 else o |>.arguments depth calls opening 0
  unless found = function.meaning.arity do
    throw (.argumentCount function.name function.meaning.arity found)
  emitFolding o function.meaning.instruction before
partial_fixpoint

/-- The arguments of a function up to the closing parenthesis, behind so many others.  The answer is
how many there are. -/
def arguments (o : CompileOptions) (depth : Nat) (calls : List Entry) (opening found : Nat) :
    Translating Nat := do
  let calls ← enter .argument calls
  o |>.expression depth calls
  if ← reading (Reader.eat ',') then o |>.arguments depth calls opening (found + 1)
  else
    reading (Reader.closeGroup opening)
    pure (found + 1)
partial_fixpoint

end

end CompileOptions

/-! ## Sources -/

namespace Translation

/-- A whole source, which must hold one expression and nothing else. -/
def whole (o : CompileOptions) : Translating Program.Summary := do
  let before ← mark
  o.expression 0 []
  fold o before
  unless ← reading Reader.atEnd do reading (do throw (.trailingInput (← Reader.tokenPosition)))
  return (← mark).summary

/-- Replaces the program of a workplace by that of a source.  The outcome comes with the log. -/
def compile (o : CompileOptions) (source : String) (w : Workplace) :
    Option (EStateM.Result Error Workplace Program.Summary × List Moment) :=
  match whole o ⟨Cursor.ofString source, { w with program := w.program.clear }, []⟩ with
  | none => none
  | some (.ok summary, t) => some (.ok summary t.workplace, t.log)
  | some (.error e, t) =>
    some (.error e { t.workplace with program := t.workplace.program.clear }, t.log)

end Translation

end Reckon
