import Reckon.CommandLine.Options

/-!
# Invocations

What the words of a command line ask for: expressions to evaluate, rows to filter, or statements to
do, after parameters and assignments that hold for all of them.
-/

namespace Reckon

/-- The tasks of the command line. -/
inductive Task
  /-- Evaluates expressions, or lists their programs. -/
  | evaluate (expressions : List String) (listing : Bool)
  /-- Prints the rows that satisfy a filter, from a file or the standard input. -/
  | filter (expression : String) (delimiter : Char) (byWords : Bool) (file : Option String)
  /-- Does the statements on the standard input. -/
  | statements
  deriving DecidableEq, Repr

/-- What a command line asks for. -/
inductive Invocation
  | version
  | run (parameters : String) (assignments : Option String) (task : Task)
  /-- A command line that does not follow the rules. -/
  | misuse
  deriving DecidableEq, Repr

namespace Invocation

/-- The options before the command.  Quietness concerns greetings only, of which there are none. -/
def generalOptions : List OptionSpec :=
  [⟨'p', "params", .valued⟩, ⟨'a', "assign", .valued⟩, ⟨'q', "quiet", .switch⟩,
    ⟨'V', "version", .decisive⟩]

/-- The options of the command that evaluates. -/
def evaluateOptions : List OptionSpec := [⟨'d', "disassemble", .switch⟩]

/-- The options of the command that filters. -/
def filterOptions : List OptionSpec :=
  [⟨'d', "delimiter", .valued⟩, ⟨'w', "whitespace", .switch⟩]

/-- The task of the command that evaluates, from the words behind it. -/
def evaluate? (words : List String) : Option Task := do
  let (ws, _) ← CommandWord.read? evaluateOptions false words.length words
  let expressions := CommandWord.texts ws
  if expressions.isEmpty then none
  else some (.evaluate expressions (CommandWord.value? 'd' ws).isSome)

/-- The task of the command that filters, from the words behind it. -/
def filter? (words : List String) : Option Task := do
  let (ws, _) ← CommandWord.read? filterOptions false words.length words
  let delimiter ←
    match ((CommandWord.value? 'd' ws).getD ",").toList with
    | [c] => some c
    | _ => none
  let byWords := (CommandWord.value? 'w' ws).isSome
  match CommandWord.texts ws with
  | [expression] => some (.filter expression delimiter byWords none)
  | [expression, file] => some (.filter expression delimiter byWords (some file))
  | _ => none

/-- The task that a command and the words behind it ask for. -/
def task? (command : Option String) (words : List String) : Option Task :=
  match command with
  | none => some .statements
  | some "eval" => evaluate? words
  | some "filter" => filter? words
  | some _ => none

/-- What the words of a command line ask for. -/
def ofWords (words : List String) : Invocation :=
  match CommandWord.read? generalOptions true words.length words with
  | none => .misuse
  | some (ws, rest) =>
    if (CommandWord.value? 'V' ws).isSome then .version
    else
      match task? (CommandWord.texts ws).head? rest with
      | none => .misuse
      | some task =>
        .run ((CommandWord.value? 'p' ws).getD "") (CommandWord.value? 'a' ws) task

end Invocation

end Reckon
