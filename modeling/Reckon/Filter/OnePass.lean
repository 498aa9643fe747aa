import Reckon.Filter.RowFilter

/-!
# Deciding rows in one pass

A row can be decided without building a formula: the outcome of a test is put on a list as soon as
the test has been read, and a connective joins the two newest outcomes.  Literals are read into a
buffer, character by character.  The buffer and the cache of patterns are handed on from row to row;
a pass that fails, perhaps in the middle of a literal, hands them on as they are then.
-/

namespace Reckon

/-- How far a pass has come. -/
structure Pass where
  /-- Where it stands in the text, and the outcomes that are not joined yet. -/
  progress : Progress Bool
  /-- The latest literal, as far as it has been read. -/
  literal : String
  patterns : PatternCache

namespace Connective

/-- What a connective makes of two outcomes. -/
def holds : Connective → Bool → Bool → Bool
  | and, a, b => a && b
  | or, a, b => a || b

end Connective

namespace Pass

variable {β : Type}

/-- A step that has to do with the text only. -/
def reading (x : Reader Bool β) : EStateM Error Pass β := fun p =>
  match x p.progress with
  | .ok b s => .ok b { p with progress := s }
  | .error e s => .error e { p with progress := s }

/-- The pass with other outcomes. -/
def withOutcomes (p : Pass) (outcomes : List Bool) : Pass :=
  { p with progress := { p.progress with done := outcomes } }

/-! ## Tests -/

/-- Adds a character to the literal if there is room. -/
def push (capacity : Nat) (c : Char) : EStateM Error Pass Unit := fun p =>
  if p.literal.utf8ByteSize + c.utf8Size > capacity then .error (.literalTooLong capacity) p
  else .ok () { p with literal := p.literal.push c }

/-- Adds the characters of a literal up to its closing quote, of which there are fewer than `turns`.
The opening quote stands at `opening`. -/
def fill (capacity opening : Nat) : Nat → EStateM Error Pass Unit
  | 0 => throw (.unterminatedString opening)
  | turns + 1 => do
    match ← reading (Reader.scan Cursor.bump) with
    | none => throw (.unterminatedString opening)
    | some c =>
      if c = '"' then
        if (← get).progress.cursor.rest.head? = some '"' then
          let _ ← reading (Reader.scan Cursor.bump)
          push capacity '"'
          fill capacity opening turns
      else
        push capacity c
        fill capacity opening turns

/-- Reads a literal into the buffer. -/
def readLiteral (capacity : Nat) : EStateM Error Pass String := do
  let opening ← reading Reader.tokenPosition
  unless ← reading (Reader.eat '"') do throw (.filter "expected string literal" opening)
  modify fun p => { p with literal := "" }
  fill capacity opening ((← get).progress.cursor.rest.length + 1)
  return (← get).literal

/-- Adds the outcome of a test of a row. -/
def ask (row : Array String) (t : FieldTest) : EStateM Error Pass Unit := fun p =>
  let (outcome, patterns) := (t.holds row).run p.patterns
  .ok () ({ p with patterns := patterns }.withOutcomes (outcome :: p.progress.done))

/-- Reads a test and asks it of a row. -/
def test (literalCapacity : Nat) (row : Array String) : EStateM Error Pass Unit := do
  let dollar ← reading Reader.tokenPosition
  unless ← reading (Reader.eat '$') do reading Reader.unexpected
  let field ← reading (Reader.scanExcept (Cursor.fieldNumber dollar))
  if field = 0 || row.size < field then throw (.fieldOutOfRange field row.size)
  let position ← reading Reader.tokenPosition
  match ← reading (Reader.scan
      (Cursor.operator (Formula.comparisons.map Prod.fst) Formula.comparisons)) with
  | none => throw (.filter "expected '==', '!=', '~' or '!~'" position)
  | some comparison =>
    let literal ← readLiteral literalCapacity
    ask row ⟨field, comparison, literal⟩

/-! ## Connectives -/

/-- Negates the newest outcome, if there is one. -/
def negate : EStateM Error Pass Unit :=
  modify fun p => p.withOutcomes (p.progress.done.modifyHead Bool.not)

/-- Joins the two newest outcomes. -/
def reduce (connective : Connective) : EStateM Error Pass Unit := fun p =>
  match p.progress.done with
  | b :: a :: outcomes => .ok () (p.withOutcomes (connective.holds a b :: outcomes))
  | _ => .error (.filter "missing operand" p.progress.cursor.offset) p

/-- The pairs of a connective and what it joins, of which at most `turns` are read. -/
def pairs (operators : List (Spelling × Connective)) (tighter : EStateM Error Pass Unit) :
    Nat → EStateM Error Pass Unit
  | 0 => pure ()
  | turns + 1 => do
    match ← reading (Reader.scan (Cursor.operator Formula.connectives.vocabulary operators)) with
    | none => pure ()
    | some connective =>
      tighter
      reduce connective
      pairs operators tighter turns

/-- Decides these levels, from the first to the tightest. -/
def climb (operand : EStateM Error Pass Unit) (turns : Nat) :
    List (List (Spelling × Connective)) → EStateM Error Pass Unit
  | [] => operand
  | operators :: tighterLevels => do
    climb operand turns tighterLevels
    pairs operators (climb operand turns tighterLevels) turns

/-- Decides what these operands make, as far as connectives carry it. -/
def phrase (operand : EStateM Error Pass Unit) : EStateM Error Pass Unit := do
  climb operand (← get).progress.cursor.rest.length Formula.connectives.levels

/-- Decides an operand: what `inner` decides behind a negation, what `group` decides in parentheses,
or a test. -/
def operandWith (test inner group : EStateM Error Pass Unit) : EStateM Error Pass Unit := do
  let opening ← reading Reader.tokenPosition
  if ← reading (Reader.eat '!') then
    inner
    negate
  else if ← reading (Reader.eat '(') then
    group
    reading (Reader.closeGroup opening)
  else test

/-- Decides an operand inside which at most `allowance` parentheses and negations may be opened. -/
def operand (limit : Nat) (test : EStateM Error Pass Unit) : Nat → EStateM Error Pass Unit
  | 0 => fun p => operandWith test (throw (.nestingTooDeep limit)) (throw (.nestingTooDeep limit)) p
  | n + 1 => fun p =>
    operandWith test (fun q => operand limit test n q) (phrase fun q => operand limit test n q) p

/-- Decides a whole text. -/
def whole (limits : Formula.Limits) (row : Array String) : EStateM Error Pass Bool := do
  phrase (operand limits.nestingLimit (test limits.literalCapacity row) limits.nestingLimit)
  unless ← reading Reader.atEnd do throw (.trailingInput (← get).progress.cursor.offset)
  return (← get).progress.done.head?.getD false

end Pass

/-- A filter that decides each row in one pass, and what it keeps from row to row. -/
structure OnePassFilter extends RowFilter where
  /-- The latest literal, as far as it was read. -/
  literal : String

namespace OnePassFilter

/-- A filter that has not seen a row. -/
def new (expression : String) (limits : Formula.Limits) : OnePassFilter :=
  ⟨RowFilter.new expression limits, ""⟩

/-- The filter behind a pass, with the buffer and the patterns of the pass. -/
def after (f : OnePassFilter) (p : Pass) (isValid : Bool) : OnePassFilter :=
  { f with literal := p.literal, patterns := p.patterns, isValid := isValid }

/-- Whether a row satisfies the text of the filter.  A filter without a text accepts nothing. -/
def tryMatch (row : Array String) : EStateM Error OnePassFilter Bool := fun f =>
  let start := Cursor.ofString f.expression
  if start.atEnd then .ok false { f with isValid := true }
  else
    match Pass.whole f.limits row ⟨⟨start, []⟩, f.literal, f.patterns.trim⟩ with
    | .ok answer p => .ok answer (f.after p true)
    | .error e p => .error e (f.after p false)

/-- Whether a row satisfies the text of the filter, where a text that is no formula accepts
nothing. -/
def accepts (row : Array String) : StateM OnePassFilter Bool := fun f =>
  match tryMatch row f with
  | .ok answer f' => (answer, f')
  | .error _ f' => (false, f')

end OnePassFilter

end Reckon
