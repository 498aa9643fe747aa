import Reckon.CommandLine.Invocation
import Reckon.Engine.Basic

/-!
# Sessions

A session does what a command line asks for.  It is a function from the words of the command line
and the lines of the input to what is printed and the exit code.
-/

namespace Reckon

/-- Lines of an input, and the reason why it breaks off after them, if it does. -/
structure Input where
  lines : List String
  failure : Option String := none

namespace Input

/-- The lines of a text. -/
def ofText (text : String) : Input := ⟨(Reckon.lines text.toList).map String.ofList, none⟩

/-- The lines of bytes.  The first line that is not UTF-8 is where the input breaks off. -/
def ofBytes (bytes : ByteArray) : Input :=
  match String.fromUTF8? bytes with
  | some text => ofText text
  | none =>
    let decoded := (splitOn 10 bytes.toList).map fun line => String.fromUTF8? ⟨line.toArray⟩
    let complete := (decoded.takeWhile Option.isSome).filterMap id
    ⟨complete.map fun line => String.ofList (dropReturn line.toList),
      some "stream did not contain valid UTF-8"⟩

end Input

/-- What a session prints, and its exit code. -/
structure Output where
  stdout : String := ""
  stderr : String := ""
  code : Nat := 0
  deriving DecidableEq, Repr

namespace Output

/-- Prints a text. -/
def print (o : Output) (text : String) : Output := { o with stdout := o.stdout ++ text }

/-- Prints a text among the errors. -/
def printError (o : Output) (text : String) : Output := { o with stderr := o.stderr ++ text }

/-- Reports an error that does not end the session. -/
def complain (o : Output) (text : String) : Output := o.printError ("Error: " ++ text ++ "\n")

/-- Reports an error that ends the session. -/
def fail (o : Output) (text : String) : Output := { o.complain text with code := 1 }

end Output

namespace Session

/-- The name and version that the command line reports. -/
def versionText : String := "rpncalc 0.3.0\n"

/-- What is printed for an expression: its value, or the listing of its program. -/
def expressionText (listing : Bool) (expression : String) : EStateM Error Engine String := do
  if listing then
    let _ ← Engine.compile expression
    return (← get).listing
  else
    let x ← Engine.evaluate expression
    return Binary64.text x ++ "\n"

/-- The message for an expression that failed. -/
def expressionFailure (expression : String) (e : Error) : String :=
  "\x1b[1;31mError:\x1b[0m " ++ expression ++ ": " ++ e.message ++ "\n"

/-- Evaluates expressions one after the other, or lists their programs. -/
def evaluateAll (listing : Bool) (failed : Bool) : List String → Engine → Output → Output
  | [], _, o => if failed then o.fail "one or more expressions failed" else o
  | expression :: rest, engine, o =>
    match expressionText listing expression engine with
    | .ok text engine' => evaluateAll listing failed rest engine' (o.print text)
    | .error e engine' =>
      evaluateAll listing true rest engine' (o.printError (expressionFailure expression e))

/-- The fields of a line, between the delimiters or between white space. -/
def fieldsOf (delimiter : Char) (byWords : Bool) (line : String) : Array String :=
  let parts := if byWords then words line.toList else splitOn delimiter line.toList
  (parts.map String.ofList).toArray

/-- Prints the lines that satisfy a filter, up to the first one for which it is not valid. -/
def filterLines (delimiter : Char) (byWords : Bool) (failure : Option String) :
    List String → RowFilter → Output → Output
  | [], _, o => failure.elim o o.fail
  | line :: rest, rowFilter, o =>
    match RowFilter.tryMatch (fieldsOf delimiter byWords line) rowFilter with
    | .ok accepted rowFilter' =>
      filterLines delimiter byWords failure rest rowFilter'
        (if accepted then o.print (line ++ "\n") else o)
    | .error e _ => o.fail ("invalid filter: " ++ e.message)

/-- Whether a line holds an equals sign that is not part of a comparison; `previous` is the
character before it. -/
def assignsAfter (previous : Option Char) : List Char → Bool
  | [] => false
  | c :: rest =>
    (c = '=' && rest.head? ≠ some '=' &&
      !(previous.any fun p => p = '=' || p = '!' || p = '<' || p = '>')) ||
    assignsAfter (some c) rest

/-- Whether a line is taken for assignments rather than an expression. -/
def isAssignment (line : String) : Bool := assignsAfter none line.toList

/-- What is printed for an assignment. -/
def assignmentText (symbols : SymbolTable) (done : Assignment) : String :=
  (symbols.name? done.index).getD "" ++ " = " ++ Binary64.text done.value ++ "\n"

/-- What is printed for a statement. -/
def statementText (line : String) : EStateM Error Engine String := do
  if isAssignment line then
    let done ← Engine.assign line
    let symbols := (← get).symbols
    return String.join (done.map (assignmentText symbols))
  else
    let x ← Engine.evaluate line
    return Binary64.text x ++ "\n"

/-- Does the statements on these lines.  Blank lines and lines that begin with `#` are skipped, and
an error does not keep the later lines from being done. -/
def statements (failure : Option String) : List String → Engine → Output → Output
  | [], _, o => failure.elim o o.fail
  | line :: rest, engine, o =>
    let statement := trim line.toList
    if statement.isEmpty || statement.head? = some '#' then statements failure rest engine o
    else
      match statementText (String.ofList statement) engine with
      | .ok text engine' => statements failure rest engine' (o.print text)
      | .error e engine' => statements failure rest engine' (o.complain e.message)

/-- Does a task.  `file` gives the lines of a file, or the reason why it cannot be opened. -/
def perform (stdin : Input) (file : String → Except String Input) (engine : Engine) :
    Task → Output
  | .evaluate expressions listing => evaluateAll listing false expressions engine {}
  | .filter expression delimiter byWords path =>
    match path.elim (.ok stdin) file with
    | .ok input =>
      filterLines delimiter byWords input.failure input.lines (engine.rowFilter expression) {}
    | .error reason =>
      Output.fail {} ("Error opening file " ++ path.getD "" ++ ": " ++ reason)
  | .statements => statements stdin.failure stdin.lines engine {}

/-- Does what the words of a command line ask for. -/
def run (words : List String) (stdin : Input) (file : String → Except String Input) : Output :=
  match Invocation.ofWords words with
  | .version => Output.print {} versionText
  | .misuse => { Output.complain {} "invalid command line" with code := 2 }
  | .run parameters assignments task =>
    match Settings.ofParameters parameters with
    | .error e => Output.fail {} e.message
    | .ok settings =>
      match assignments with
      | none => perform stdin file (Engine.new settings) task
      | some source =>
        match Engine.assign source (Engine.new settings) with
        | .error e _ => Output.fail {} e.message
        | .ok _ engine => perform stdin file engine task

end Session

end Reckon
