import Reckon.Filter.Formula.Reading

/-!
# Row filters

A row filter decides rows one after the other.  The text of its formula is read anew for every row,
because whether a field exists depends on the row.
-/

namespace Reckon

/-- A filter and what it keeps from row to row. -/
structure RowFilter where
  expression : String
  limits : Formula.Limits
  patterns : PatternCache
  /-- Whether the text was a formula about the latest row. -/
  isValid : Bool

namespace RowFilter

/-- How many bytes a literal may have unless told otherwise. -/
def defaultLiteralCapacity : Nat := 1024

/-- How deep expressions and formulas may be nested unless told otherwise. -/
def defaultNestingLimit : Nat := 128

/-- The limits unless told otherwise. -/
def defaultLimits : Formula.Limits := ⟨defaultLiteralCapacity, defaultNestingLimit⟩

/-- A filter that has not seen a row. -/
def new (expression : String) (limits : Formula.Limits) : RowFilter :=
  ⟨expression, limits, PatternCache.empty, true⟩

/-- Whether a row satisfies the formula of the filter.  A filter without a formula accepts
nothing. -/
def tryMatch (row : Array String) : EStateM Error RowFilter Bool := fun f =>
  match Formula.ofString f.limits row.size f.expression with
  | .error e => .error e { f with isValid := false }
  | .ok none => .ok false { f with isValid := true }
  | .ok (some formula) =>
    let (answer, patterns) := (formula.holds row).run f.patterns.trim
    .ok answer { f with patterns := patterns, isValid := true }

/-- Whether a row satisfies the formula of the filter, where a text that is no formula accepts
nothing. -/
def accepts (row : Array String) : StateM RowFilter Bool := fun f =>
  match tryMatch row f with
  | .ok answer f' => (answer, f')
  | .error _ f' => (false, f')

/-- Whether the first `count` fields of a row satisfy a formula. -/
def matchFields (row : Array String) (count : Nat) (expression : String) : Bool :=
  (accepts (row.take count) (new expression defaultLimits)).1

end RowFilter

end Reckon
