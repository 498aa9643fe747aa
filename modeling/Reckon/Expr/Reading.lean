import Reckon.Expr.Basic
import Reckon.Builtin
import Reckon.Source.Precedence

/-!
# Reading expressions

The grammar of expressions, from the loosest phrase to the tightest:

* an expression is a phrase of binary operators, or a choice `test ? yes : no` between two
  expressions;
* the binary operators have ten levels and associate to the left;
* an operand is a primary behind any number of signs `-`, `+`, `!` and `~`;
* a primary is a numeral, an expression in parentheses, a named constant, a function with its
  arguments in parentheses, or a variable.

How deep expressions and signs may be nested is limited.  The limit is used up on the way in: the
reader of an inner phrase is made with an allowance that is smaller by one.
-/

namespace Reckon

namespace Meaning

/-- The expression that a built-in makes of its arguments, if they have the right number. -/
def build? : Meaning → List Expr → Option Expr
  | constant c, [] => some (.constant c)
  | unary f, [operand] => some (.unary f operand)
  | binary f, [left, right] => some (.binary f left right)
  | _, _ => none

end Meaning

namespace Expr

/-- The binary operators, the loosest first. -/
def binaryOperators : OperatorTable BinaryOp := .ofLevels [
  [("||".toList, .or)],
  [("&&".toList, .and)],
  [("|".toList, .bitOr)],
  [("^".toList, .bitXor)],
  [("&".toList, .bitAnd)],
  [("==".toList, .eq), ("!=".toList, .ne)],
  [("<".toList, .lt), (">".toList, .gt), ("<=".toList, .le), (">=".toList, .ge)],
  [("<<".toList, .shl), (">>".toList, .shr)],
  [("+".toList, .add), ("-".toList, .sub)],
  [("*".toList, .mul), ("/".toList, .div), ("%".toList, .mod)]]

/-- The signs that can stand before an operand.  A plus sign does nothing. -/
def signs : List (Char × Option UnaryOp) :=
  [('-', some .neg), ('+', none), ('!', some .not), ('~', some .bitNot)]

/-- Replaces the expressions since `start`, the arguments, by the application of a built-in. -/
def apply (name : String) (m : Meaning) (start : Nat) : Reader Expr Unit :=
  Reader.reduceSince start m.build? fun found => .argumentCount name m.arity found.length

/-- The choice that three expressions make. -/
def choice? : List Expr → Option Expr
  | [test, yes, no] => some (choice test yes no)
  | _ => none

/-- The arguments of a function up to the closing parenthesis, of which there are at most
`turns`. -/
def arguments (group : Reader Expr Unit) (opening : Nat) : Nat → Reader Expr Unit
  | 0 => pure ()
  | turns + 1 => do
    group
    if ← Reader.eat ',' then arguments group opening turns else Reader.closeGroup opening

/-- The argument list of a function whose name was read at `position`.  Every argument but the last
takes a comma, so that the length of the remaining text bounds their number. -/
def call (group : Reader Expr Unit) (function : Builtin) (position : Nat) : Reader Expr Unit := do
  let opening ← Reader.tokenPosition
  unless ← Reader.eat '(' do throw (.missingArguments function.name position)
  let start ← Reader.mark
  unless ← Reader.eat ')' do
    arguments group opening ((← get).cursor.rest.length + 1)
  apply function.name function.meaning start

/-- What a name read at `position` stands for. -/
def named (group : Reader Expr Unit) (name : String) (position : Nat) : Reader Expr Unit :=
  match Builtin.lookup name with
  | none => Reader.push (var name position)
  | some ⟨_, .constant c⟩ => Reader.push (constant c)
  | some function => call group function position

/-- A primary; `group` reads the expressions inside parentheses. -/
def primary (group : Reader Expr Unit) : Reader Expr Unit := do
  let position ← Reader.tokenPosition
  match ← Reader.scanExcept Cursor.number with
  | some x => Reader.push (number x)
  | none =>
    if ← Reader.eat '(' then
      group
      Reader.closeGroup position
    else
      match ← Reader.scan Cursor.name with
      | some name => named group name position
      | none => Reader.unexpected

/-- An operand; `inner` reads the operand behind a sign. -/
def operandWith (inner group : Reader Expr Unit) : Reader Expr Unit := do
  match (← Reader.peek).bind fun c => signs.lookup c with
  | none => primary group
  | some sign =>
    let start ← Reader.mark
    let _ ← Reader.scan Cursor.bump
    inner
    match sign with
    | none => pure ()
    | some f => apply f.mnemonic (.unary f) start

/-- The binary operators around these operands. -/
def grammar (operand : Reader Expr Unit) : Grammar Expr BinaryOp where
  table := binaryOperators
  operand := operand
  reduce f start := apply f.mnemonic (.binary f) start

/-- An expression; `branch` reads the two branches of a choice. -/
def expressionWith (operand branch : Reader Expr Unit) : Reader Expr Unit := do
  let start ← Reader.mark
  (grammar operand).phrase
  if ← Reader.eat '?' then
    branch
    Reader.expect ':'
    branch
    Reader.reduceSince start choice? fun found => .argumentCount "?:" 3 found.length

/-- The two kinds of phrases whose nesting is limited. -/
inductive Phrase
  | expression
  | operand

/-- The reader of a phrase inside which at most `allowance` more may be opened.  An expression opens
one itself; `limit` is only for the error. -/
def reader (limit : Nat) : Nat → Phrase → Reader Expr Unit
  | 0, .expression => fun s => .error (.nestingTooDeep limit) s
  | 0, .operand => fun s =>
    operandWith (throw (.nestingTooDeep limit)) (throw (.nestingTooDeep limit)) s
  | n + 1, .expression => fun s =>
    expressionWith (fun t => reader limit n .operand t) (fun t => reader limit n .expression t) s
  | n + 1, .operand => fun s =>
    operandWith (fun t => reader limit n .operand t)
      (fun u => expressionWith (fun t => reader limit n .operand t)
        (fun t => reader limit n .expression t) u) s

/-- The reader of a whole expression with this limit on the nesting. -/
def read (limit : Nat) : Reader Expr Unit := reader limit limit .expression

end Expr

end Reckon
