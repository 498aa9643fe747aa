/-!
# Command-line options

The usual conventions for the words of a command line: short options can be bundled (`-wq`), the
value of an option is the rest of its bundle or the next word, long options can have their value
behind an equals sign, and after `--` no word is an option or a command.
-/

namespace Reckon

/-- What an option means for the words behind it. -/
inductive OptionKind
  /-- It stands for itself. -/
  | switch
  /-- It has a value. -/
  | valued
  /-- It decides alone what is done: what stands behind it is not looked at. -/
  | decisive
  deriving DecidableEq, Repr

/-- An option that a command knows. -/
structure OptionSpec where
  short : Char
  long : String
  kind : OptionKind
  deriving DecidableEq, Repr

/-- A command line, understood word by word. -/
inductive CommandWord
  /-- An option, by its short name, with its value or the empty text. -/
  | option (short : Char) (value : String)
  | plain (text : String)
  deriving DecidableEq, Repr

namespace CommandWord

/-- A word that can be the value of the option before it. -/
def isValue (word : String) : Bool := word = "-" || word.toList.head? ≠ some '-'

/-- The option with this short name whose value is the next word, and the words behind it. -/
def valueAfter? (short : Char) : List String → Option (List CommandWord × List String)
  | [] => none
  | value :: more => if isValue value then some ([option short value], more) else none

/-- The options of a bundle, and the words behind it; the last option may take the next word as its
value. -/
def bundle? (specs : List OptionSpec) (next : List String) :
    List Char → Option (List CommandWord × List String)
  | [] => some ([], next)
  | c :: rest =>
    match specs.find? fun spec => spec.short = c with
    | none => none
    | some spec =>
      match spec.kind with
      | .switch => (bundle? specs next rest).map fun r => (option c "" :: r.1, r.2)
      | .decisive => some ([option c ""], [])
      | .valued =>
        if rest.isEmpty then valueAfter? c next
        else
          some ([option c (String.ofList (if rest.head? = some '=' then rest.drop 1 else rest))],
            next)

/-- The long option with this text behind the two dashes, and the words behind it. -/
def long? (specs : List OptionSpec) (next : List String) (text : List Char) :
    Option (List CommandWord × List String) :=
  let name := String.ofList (text.takeWhile (· ≠ '='))
  match specs.find? fun spec => spec.long = name, text.dropWhile (· ≠ '=') with
  | none, _ => none
  | some spec, _ :: value =>
    match spec.kind with
    | .valued => some ([option spec.short (String.ofList value)], next)
    | _ => none
  | some spec, [] =>
    match spec.kind with
    | .switch => some ([option spec.short ""], next)
    | .decisive => some ([option spec.short ""], [])
    | .valued => valueAfter? spec.short next

/-- What the first word of a command line stands for, and the words behind it. -/
def first? (specs : List OptionSpec) (word : String) (next : List String) :
    Option (List CommandWord × List String) :=
  match word.toList with
  | '-' :: '-' :: text => long? specs next text
  | '-' :: c :: bundle => bundle? specs next (c :: bundle)
  | _ => some ([plain word], next)

/-- The words of a command line with these options, at most `turns` of them.  If `untilPlain`, they
go up to the first plain word, which is the command: behind `--` there can be none. -/
def read? (specs : List OptionSpec) (untilPlain : Bool) :
    Nat → List String → Option (List CommandWord × List String)
  | 0, words => some ([], words)
  | _, [] => some ([], [])
  | _, "--" :: rest =>
    if untilPlain && !rest.isEmpty then none else some (rest.map plain, [])
  | turns + 1, word :: rest =>
    match first? specs word rest with
    | none => none
    | some (read, next) =>
      if untilPlain && read = [plain word] then some (read, next)
      else (read? specs untilPlain turns next).map fun r => (read ++ r.1, r.2)

/-- The value of the last option with this short name. -/
def value? (short : Char) (ws : List CommandWord) : Option String :=
  ws.reverse.findSome? fun
    | option s v => if s = short then some v else none
    | plain _ => none

/-- The plain words. -/
def texts (ws : List CommandWord) : List String :=
  ws.filterMap fun
    | plain text => some text
    | option _ _ => none

end CommandWord

end Reckon
