import Reckon.Operation

/-!
# Expressions

The tree that an expression stands for.  Parentheses and the sign `+` leave no trace in it.  A
variable keeps the place where it was written, for the error in case the name is unknown.
-/

namespace Reckon

/-- An expression. -/
inductive Expr
  | number (x : Float)
  | constant (c : Constant)
  | var (name : String) (position : Nat)
  | unary (f : UnaryOp) (operand : Expr)
  | binary (f : BinaryOp) (left right : Expr)
  | choice (test yes no : Expr)

namespace Expr

/-- The value of an expression in which variables have these values. -/
def eval (values : String → Float) : Expr → Float
  | number x => x
  | constant c => c.value
  | var name _ => values name
  | unary f operand => f.apply (operand.eval values)
  | binary f left right => f.apply (left.eval values) (right.eval values)
  | choice test yes no => choose (test.eval values) (yes.eval values) (no.eval values)

end Expr

end Reckon
