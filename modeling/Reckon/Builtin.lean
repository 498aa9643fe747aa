import Reckon.Program.Instruction

/-!
# Built-in names

The functions and constants that expressions can name.  The table is sorted by name, so that a name
is found by halving.  No variable can have one of these names.
-/

namespace Reckon

/-- What a built-in name stands for. -/
inductive Meaning
  | constant (c : Constant)
  | unary (f : UnaryOp)
  | binary (f : BinaryOp)
  deriving DecidableEq, Repr

namespace Meaning

/-- The instruction that computes a built-in. -/
def instruction : Meaning → Instruction
  | constant c => .named c
  | unary f => .unary f
  | binary f => .binary f

/-- The number of arguments of a built-in. -/
def arity (m : Meaning) : Nat := m.instruction.arity

end Meaning

/-- A name and what it stands for. -/
structure Builtin where
  name : String
  meaning : Meaning
  deriving DecidableEq, Repr

namespace Builtin

/-- All built-in names, in ascending order. -/
def table : Array Builtin := #[
  ⟨"abs", .unary .abs⟩,
  ⟨"acos", .unary .acos⟩,
  ⟨"asin", .unary .asin⟩,
  ⟨"atan", .unary .atan⟩,
  ⟨"atan2", .binary .atan2⟩,
  ⟨"ceil", .unary .ceil⟩,
  ⟨"cos", .unary .cos⟩,
  ⟨"cosh", .unary .cosh⟩,
  ⟨"e", .constant .e⟩,
  ⟨"exp", .unary .exp⟩,
  ⟨"floor", .unary .floor⟩,
  ⟨"log", .unary .log⟩,
  ⟨"log10", .unary .log10⟩,
  ⟨"max", .binary .max⟩,
  ⟨"min", .binary .min⟩,
  ⟨"nan", .constant .nan⟩,
  ⟨"pi", .constant .pi⟩,
  ⟨"pow", .binary .pow⟩,
  ⟨"round", .unary .round⟩,
  ⟨"sin", .unary .sin⟩,
  ⟨"sinh", .unary .sinh⟩,
  ⟨"sqrt", .unary .sqrt⟩,
  ⟨"tan", .unary .tan⟩,
  ⟨"tanh", .unary .tanh⟩]

/-- Whether a built-in is written without an argument list. -/
def isConstant (b : Builtin) : Bool := b.meaning.arity = 0

/-- Searches a name among the entries of a sorted table from `low` up to, but not including,
`high`.  Every step at least halves the range. -/
def searchBetween (entries : Array Builtin) (name : String) (low high : Nat) : Option Builtin :=
  if low < high then
    let middle := (low + high) / 2
    match entries[middle]? with
    | none => none
    | some entry =>
      if entry.name = name then some entry
      else if entry.name < name then searchBetween entries name (middle + 1) high
      else searchBetween entries name low middle
  else none
  termination_by high - low

/-- The built-in with this name. -/
def lookup (name : String) : Option Builtin := searchBetween table name 0 table.size

/-- Whether a name is taken by a built-in. -/
def isReserved (name : String) : Bool := (lookup name).isSome

end Builtin

end Reckon
