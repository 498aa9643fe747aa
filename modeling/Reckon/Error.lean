/-!
# Errors

Everything that can go wrong while an expression is read, compiled, run or assigned, while a row
filter is read, and while configuration parameters are read.  An `Error` is a cause together with
the data its wording needs.  `Error.message` is the wording, `Error.kind` the broad class, and
`Error.position?` the byte offset in the source that the error points at, for the errors that point
at one.
-/

namespace Reckon

/-- The broad classes of errors. -/
inductive ErrorKind
  /-- The text does not follow its grammar, or names something that does not exist. -/
  | badText
  /-- A fixed capacity does not hold what was asked of it. -/
  | capacity
  /-- No room is left for a new symbol. -/
  | allocation
  /-- The request does not fit the present state. -/
  | state
  /-- The configuration parameters are wrong. -/
  | configuration
  deriving DecidableEq, Repr

/-- The causes of failure.  Positions are UTF-8 byte offsets into the source. -/
inductive Error
  /-- A name that is neither a built-in nor a known variable. -/
  | unknownIdentifier (name : String) (position : Nat)
  /-- A character that cannot stand at this place. -/
  | unexpectedCharacter (found : Char) (position : Nat)
  /-- The source ends where more was needed. -/
  | unexpectedEnd (position : Nat)
  /-- An opening parenthesis that is never closed. -/
  | unterminatedGroup (position : Nat)
  /-- A function applied to the wrong number of arguments. -/
  | argumentCount (function : String) (expected found : Nat)
  /-- A function name without an argument list. -/
  | missingArguments (function : String) (position : Nat)
  /-- Text is left over after a complete expression. -/
  | trailingInput (position : Nat)
  /-- A numeral without a value. -/
  | invalidNumber (literal : String) (position : Nat)
  /-- An assignment that does not begin with a name. -/
  | expectedIdentifier (position : Nat)
  /-- An assignment whose name is not followed by `=`. -/
  | expectedAssignment (position : Nat)
  /-- A filter that names a field the row does not have. -/
  | fieldOutOfRange (index count : Nat)
  /-- A string literal that is never closed. -/
  | unterminatedString (position : Nat)
  /-- An assignment to a built-in name. -/
  | reservedName (name : String) (position : Nat)
  /-- Any other departure from the filter grammar. -/
  | filter (message : String) (position : Nat)
  /-- The program does not fit its buffer. -/
  | programTooLarge (capacity : Nat)
  /-- The operand stack does not hold another value. -/
  | stackOverflow (capacity : Nat)
  /-- A filter literal does not fit its buffer. -/
  | literalTooLong (capacity : Nat)
  /-- Groups, calls, branches and sign operators are nested too deeply. -/
  | nestingTooDeep (limit : Nat)
  /-- A run ended with a number of values other than one, or lacked an operand. -/
  | stackImbalance (depth : Nat)
  /-- There is nothing to execute. -/
  | noProgram
  /-- The symbol table has no index left. -/
  | symbolAllocation (name : String)
  /-- An unknown parameter, or a parameter with a bad value. -/
  | invalidConfiguration (message : String)
  deriving DecidableEq, Repr

namespace Error

/-- The wording of an error. -/
def message : Error → String
  | unknownIdentifier name position => s!"unknown identifier '{name}' at position {position}"
  | unexpectedCharacter found position => s!"unexpected character '{found}' at position {position}"
  | unexpectedEnd position => s!"unexpected end of input at position {position}"
  | unterminatedGroup position => s!"unterminated group opened at position {position}"
  | argumentCount function expected found =>
      s!"function '{function}' expects {expected} argument(s), found {found}"
  | missingArguments function position =>
      s!"function '{function}' requires an argument list at position {position}"
  | trailingInput position => s!"unexpected trailing input at position {position}"
  | invalidNumber literal position => s!"invalid number '{literal}' at position {position}"
  | expectedIdentifier position => s!"expected identifier at position {position}"
  | expectedAssignment position => s!"expected '=' at position {position}"
  | fieldOutOfRange index count => s!"field ${index} out of range, row has {count} field(s)"
  | unterminatedString position =>
      s!"unterminated string literal starting at position {position}"
  | reservedName name position => s!"'{name}' is a reserved name at position {position}"
  | filter message position => s!"invalid filter expression: {message} at position {position}"
  | programTooLarge capacity =>
      s!"expression too complex: program exceeds {capacity} units"
  | stackOverflow capacity =>
      s!"expression too complex: operand stack exceeds {capacity} entries"
  | literalTooLong capacity => s!"string literal exceeds {capacity} bytes"
  | nestingTooDeep limit => s!"expression too complex: nesting exceeds {limit} levels"
  | stackImbalance depth => s!"malformed program: {depth} value(s) left on the stack"
  | noProgram => "no successfully compiled program to execute"
  | symbolAllocation name => s!"cannot allocate storage for symbol '{name}'"
  | invalidConfiguration message => s!"invalid configuration: {message}"

/-- The class of an error. -/
def kind : Error → ErrorKind
  | programTooLarge _ | stackOverflow _ | literalTooLong _ | nestingTooDeep _ => .capacity
  | stackImbalance _ | noProgram => .state
  | symbolAllocation _ => .allocation
  | invalidConfiguration _ => .configuration
  | _ => .badText

/-- The byte offset an error points at; errors about counts, capacities and states have none. -/
def position? : Error → Option Nat
  | unknownIdentifier _ position | unexpectedCharacter _ position | unexpectedEnd position
  | unterminatedGroup position | missingArguments _ position | trailingInput position
  | invalidNumber _ position | expectedIdentifier position | expectedAssignment position
  | unterminatedString position | reservedName _ position | filter _ position => some position
  | _ => none

end Error

end Reckon
