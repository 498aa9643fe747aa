import Reckon.Filter.Pattern.Cache

/-!
# Formulas about rows

A filter is a formula built from tests of single fields.  Fields are counted from one, as they are
written.
-/

namespace Reckon

/-- How a field is compared with a literal. -/
inductive Comparison
  | equal
  | notEqual
  /-- The literal is a pattern that matches in the field. -/
  | like
  | notLike
  deriving DecidableEq, Repr

/-- A test of one field. -/
structure FieldTest where
  /-- The number of the field, counted from one. -/
  field : Nat
  comparison : Comparison
  literal : String
  deriving DecidableEq, Repr

/-- A condition on a row. -/
inductive Formula
  | test (t : FieldTest)
  | not (condition : Formula)
  | and (left right : Formula)
  | or (left right : Formula)

namespace FieldTest

/-- The field that is tested. -/
def fieldOf (t : FieldTest) (row : Array String) : String := row[t.field - 1]?.getD ""

/-- The outcome of a test. -/
def holds (row : Array String) (t : FieldTest) : StateM PatternCache Bool := fun cache =>
  match t.comparison with
  | .equal => (t.fieldOf row = t.literal, cache)
  | .notEqual => (t.fieldOf row ≠ t.literal, cache)
  | .like => ((cache.find t.literal).1.isMatch (t.fieldOf row), (cache.find t.literal).2)
  | .notLike => (!(cache.find t.literal).1.isMatch (t.fieldOf row), (cache.find t.literal).2)

end FieldTest

namespace Formula

/-- Whether a row satisfies a formula. -/
def holds (row : Array String) : Formula → StateM PatternCache Bool
  | test t => t.holds row
  | not condition => do
    let b ← condition.holds row
    return !b
  | and left right => do
    let a ← left.holds row
    let b ← right.holds row
    return a && b
  | or left right => do
    let a ← left.holds row
    let b ← right.holds row
    return a || b

end Formula

end Reckon
