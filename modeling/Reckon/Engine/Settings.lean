import Reckon.Expr.Compilation
import Reckon.Filter.RowFilter
import Reckon.Text.Space
import Reckon.Text.Split

/-!
# Settings

The capacities and switches of an engine, and the notation in which they are given as parameters:
`key=value` items joined by `&`.  Of several items for one setting the last one counts.
-/

namespace Reckon

/-- The capacities and switches of an engine. -/
structure Settings where
  /-- The width of programs. -/
  programCapacity : Nat := Program.defaultCapacity
  /-- The depth of the operand stack. -/
  stackCapacity : Nat := Program.defaultStackCapacity
  /-- The number of buckets of the symbol table. -/
  symbolBuckets : Nat := SymbolTable.defaultBuckets
  /-- How many bytes a literal in a filter may have. -/
  literalCapacity : Nat := RowFilter.defaultLiteralCapacity
  /-- How deep expressions and formulas may be nested. -/
  nestingLimit : Nat := RowFilter.defaultNestingLimit
  /-- Whether unknown names become variables. -/
  autoInstall : Bool := false
  deriving DecidableEq, Repr

namespace Settings

/-- What the settings tell a compilation. -/
def compileOptions (s : Settings) : CompileOptions :=
  ⟨s.autoInstall, s.nestingLimit, s.stackCapacity⟩

/-- What the settings tell a filter. -/
def filterLimits (s : Settings) : Formula.Limits := ⟨s.literalCapacity, s.nestingLimit⟩

end Settings

/-- A value for one of the settings. -/
inductive Setting
  | programCapacity (n : Nat)
  | stackCapacity (n : Nat)
  | symbolBuckets (n : Nat)
  | literalCapacity (n : Nat)
  | nestingLimit (n : Nat)
  | autoInstall (b : Bool)
  deriving DecidableEq, Repr

namespace Setting

/-- The settings with one of them changed. -/
def apply (s : Settings) : Setting → Settings
  | programCapacity n => { s with programCapacity := n }
  | stackCapacity n => { s with stackCapacity := n }
  | symbolBuckets n => { s with symbolBuckets := n }
  | literalCapacity n => { s with literalCapacity := n }
  | nestingLimit n => { s with nestingLimit := n }
  | autoInstall b => { s with autoInstall := b }

/-- The keys of the capacities. -/
def capacityKeys : List (String × (Nat → Setting)) :=
  [("program_capacity", programCapacity), ("stack_capacity", stackCapacity),
    ("symbol_buckets", symbolBuckets), ("buckets", symbolBuckets),
    ("literal_capacity", literalCapacity), ("nesting_limit", nestingLimit)]

/-- The largest capacity. -/
def largestCapacity : Nat := 18446744073709551615

/-- The positive number that a text writes: decimal digits, perhaps behind a plus sign. -/
def positive? (value : List Char) : Option Nat :=
  let digits := if value.head? = some '+' then value.drop 1 else value
  if digits.isEmpty || !digits.all Char.isDigit then none
  else
    let n := digitsValue 10 digits
    if 0 < n ∧ n ≤ largestCapacity then some n else none

/-- The words for the two positions of a switch. -/
def switchWords : List (String × Bool) :=
  [("on", true), ("true", true), ("yes", true), ("1", true),
    ("off", false), ("false", false), ("no", false), ("0", false)]

/-- The position of a switch that a text writes, in any case.  The letters of these words are the
lower-case forms of ASCII letters only. -/
def switch? (value : List Char) : Option Bool :=
  switchWords.lookup (String.ofList (value.map Char.toLower))

/-- The setting that a key and a value make. -/
def ofPair (key value : List Char) : Except Error Setting :=
  let key := String.ofList key
  let shown := String.ofList value
  match capacityKeys.lookup key with
  | some setting =>
    match positive? value with
    | some n => .ok (setting n)
    | none =>
      .error (.invalidConfiguration s!"'{key}' must be a positive integer, got '{shown}'")
  | none =>
    if key = "auto_install" then
      match switch? value with
      | some b => .ok (autoInstall b)
      | none => .error (.invalidConfiguration s!"invalid boolean '{shown}' for '{key}'")
    else .error (.invalidConfiguration s!"unknown parameter '{key}'")

/-- The setting that an item of a parameter list stands for. -/
def ofItem (item : List Char) : Except Error Setting :=
  let key := trim (item.takeWhile (· ≠ '='))
  let shown := String.ofList key
  match item.dropWhile (· ≠ '=') with
  | [] => .error (.invalidConfiguration s!"missing value for '{shown}'")
  | _ :: value => ofPair key (trim value)

end Setting

namespace Settings

/-- The items of a parameter list; blank ones are left out. -/
def items (parameters : String) : List (List Char) :=
  (splitOn '&' parameters.toList).filter fun item => !(trim item).isEmpty

/-- The settings that a parameter list stands for.  The first bad item is the error. -/
def ofParameters (parameters : String) : Except Error Settings := do
  let changes ← (items parameters).mapM Setting.ofItem
  return changes.foldl Setting.apply {}

end Settings

end Reckon
