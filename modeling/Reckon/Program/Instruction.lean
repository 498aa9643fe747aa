import Reckon.Operation

/-!
# Instructions

Programs are in postfix order: operands are pushed on a stack, and an operation replaces its
operands by its result.  An instruction takes a fixed width in a program: constants and variables
carry their operand with them, all others are a single tag.
-/

namespace Reckon

/-- One step of a program. -/
inductive Instruction
  /-- Pushes a number. -/
  | const (x : Float)
  /-- Pushes the value of the variable with this index. -/
  | load (index : Nat)
  /-- Pushes the value of a named constant. -/
  | named (c : Constant)
  | unary (f : UnaryOp)
  | binary (f : BinaryOp)
  /-- Chooses between two values by the truth of a third. -/
  | choice

namespace Constant

/-- The word for a named constant in a listing. -/
def mnemonic : Constant → String
  | pi => "PI"
  | e => "E"
  | nan => "NAN"

end Constant

namespace UnaryOp

/-- The word for an operation in a listing. -/
def mnemonic : UnaryOp → String
  | neg => "NEG"
  | not => "NOT"
  | bitNot => "BNOT"
  | abs => "ABS"
  | acos => "ACOS"
  | asin => "ASIN"
  | atan => "ATAN"
  | ceil => "CEIL"
  | cos => "COS"
  | cosh => "COSH"
  | exp => "EXP"
  | floor => "FLOOR"
  | log => "LOG"
  | log10 => "LOG10"
  | round => "ROUND"
  | sin => "SIN"
  | sinh => "SINH"
  | sqrt => "SQRT"
  | tan => "TAN"
  | tanh => "TANH"

end UnaryOp

namespace BinaryOp

/-- The word for an operation in a listing. -/
def mnemonic : BinaryOp → String
  | add => "ADD"
  | sub => "SUB"
  | mul => "MUL"
  | div => "DIV"
  | mod => "MOD"
  | shl => "SHL"
  | shr => "SHR"
  | bitAnd => "BAND"
  | bitXor => "BXOR"
  | bitOr => "BOR"
  | lt => "LT"
  | gt => "GT"
  | le => "LE"
  | ge => "GE"
  | eq => "EQ"
  | ne => "NE"
  | and => "AND"
  | or => "OR"
  | atan2 => "ATAN2"
  | max => "MAX"
  | min => "MIN"
  | pow => "POW"

end BinaryOp

namespace Instruction

/-- The width of an instruction in a program, in units. -/
def width : Instruction → Nat
  | const _ | load _ => 9
  | _ => 1

/-- The number of operands an instruction takes from the stack. -/
def arity : Instruction → Nat
  | const _ | load _ | named _ => 0
  | unary _ => 1
  | binary _ => 2
  | choice => 3

/-- By how much an instruction changes the depth of the stack. -/
def stackEffect (i : Instruction) : Int := 1 - (i.arity : Int)

/-- Whether an instruction reads a variable. -/
def readsVariable : Instruction → Bool
  | load _ => true
  | _ => false

/-- The variable an instruction reads. -/
def loaded? : Instruction → Option Nat
  | load index => some index
  | _ => none

/-- The word for an instruction in a listing. -/
def mnemonic : Instruction → String
  | const _ => "CONST"
  | load _ => "VAR"
  | named c => c.mnemonic
  | unary f => f.mnemonic
  | binary f => f.mnemonic
  | choice => "TERNARY"

/-- What an instruction makes of a single operand; those that do not take one leave it alone. -/
def applyUnary (i : Instruction) (x : Float) : Float :=
  match i with
  | unary f => f.apply x
  | _ => x

/-- What an instruction makes of two operands; those that do not take two make no number of
them. -/
def applyBinary (i : Instruction) (a b : Float) : Float :=
  match i with
  | binary f => f.apply a b
  | _ => Binary64.nan

/-- The instructions that carry no operand. -/
def plain : List Instruction :=
  [Constant.pi, .e, .nan].map named ++
  [UnaryOp.neg, .not, .bitNot, .abs, .acos, .asin, .atan, .ceil, .cos, .cosh, .exp, .floor, .log,
    .log10, .round, .sin, .sinh, .sqrt, .tan, .tanh].map unary ++
  [BinaryOp.add, .sub, .mul, .div, .mod, .shl, .shr, .bitAnd, .bitXor, .bitOr, .lt, .gt, .le, .ge,
    .eq, .ne, .and, .or, .atan2, .max, .min, .pow].map binary ++
  [choice]

/-- The instruction without operand that this word stands for. -/
def ofMnemonic? (word : String) : Option Instruction := plain.find? fun i => i.mnemonic = word

end Instruction

end Reckon
