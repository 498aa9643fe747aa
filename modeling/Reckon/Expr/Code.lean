import Reckon.Expr.Basic
import Reckon.Program.Basic

/-!
# The plain code of expressions

The program of an expression without any folding, and the expression that complete folding leaves.
A variable is loaded wherever its name is written, from left to right; `names` lists them.
-/

namespace Reckon.Expr

/-- The names of the variables, from left to right, with repetitions. -/
def names : Expr → List String
  | number _ | constant _ => []
  | var name _ => [name]
  | unary _ operand => operand.names
  | binary _ left right => left.names ++ right.names
  | choice test yes no => test.names ++ yes.names ++ no.names

/-- Whether an expression mentions no variable. -/
def isClosed (e : Expr) : Bool := e.names.isEmpty

/-- The code of an expression in postfix order, in which nothing is folded. -/
def code (indexOf : String → Nat) : Expr → List Instruction
  | number x => [.const x]
  | constant c => [.named c]
  | var name _ => [.load (indexOf name)]
  | unary f operand => operand.code indexOf ++ [.unary f]
  | binary f left right => left.code indexOf ++ right.code indexOf ++ [.binary f]
  | choice test yes no =>
    test.code indexOf ++ yes.code indexOf ++ no.code indexOf ++ [.choice]

/-- The expression in which every largest part without variables is replaced by its value. -/
def folded (e : Expr) : Expr :=
  if e.isClosed then number (e.eval fun _ => 0)
  else
    match e with
    | unary f operand => unary f operand.folded
    | binary f left right => binary f left.folded right.folded
    | choice test yes no => choice test.folded yes.folded no.folded
    | leaf => leaf

/-- The value of an expression depends on the variables it mentions and on no others. -/
theorem eval_congr {u v : String → Float} {e : Expr} (h : ∀ name ∈ e.names, u name = v name) :
    e.eval u = e.eval v := by
  induction e with
  | number | constant => rfl
  | var => simpa [names, eval] using h
  | unary f operand ih => simp [eval, ih h]
  | binary f left right ihl ihr =>
    simp only [names, List.mem_append] at h
    simp [eval, ihl fun n hn => h n (.inl hn), ihr fun n hn => h n (.inr hn)]
  | choice test yes no iht ihy ihn =>
    simp only [names, List.mem_append] at h
    simp [eval, iht fun n hn => h n (.inl (.inl hn)), ihy fun n hn => h n (.inl (.inr hn)),
      ihn fun n hn => h n (.inr hn)]

/-- The loads of the plain code are the variables, from left to right. -/
theorem filterMap_loaded_code (indexOf : String → Nat) (e : Expr) :
    (e.code indexOf).filterMap Instruction.loaded? = e.names.map indexOf := by
  induction e <;> simp_all [code, names, Instruction.loaded?]

end Reckon.Expr
