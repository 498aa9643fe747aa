import Reckon.Filter.Formula.Basic

/-!
# The truth of formulas

Whether a formula holds for a row does not depend on the patterns that earlier rows left in the
cache: it is a matter of the tests and the connectives alone.
-/

namespace Reckon

/-- Whether a row passes a test: the field with this number, counted from one, is compared with the
literal, or with the pattern that the literal is. -/
def FieldTest.truth (row : Array String) (t : FieldTest) : Bool :=
  let field := row[t.field - 1]?.getD ""
  match t.comparison with
  | .equal => field = t.literal
  | .notEqual => field ≠ t.literal
  | .like => (Pattern.ofString t.literal).isMatch field
  | .notLike => !(Pattern.ofString t.literal).isMatch field

/-- Whether a row satisfies a formula. -/
def Formula.truth (row : Array String) : Formula → Bool
  | test t => t.truth row
  | not condition => !condition.truth row
  | and left right => left.truth row && right.truth row
  | or left right => left.truth row || right.truth row

/-- A test holds whatever patterns are in the cache. -/
theorem FieldTest.holds_fst (row : Array String) (t : FieldTest) (cache : PatternCache) :
    (t.holds row cache).1 = t.truth row := by
  unfold holds truth fieldOf
  split <;> simp_all [PatternCache.find_pattern]

/-- A formula holds whatever patterns are in the cache. -/
theorem Formula.holds_fst (row : Array String) (f : Formula) (cache : PatternCache) :
    (f.holds row cache).1 = f.truth row := by
  induction f generalizing cache with
  | test t => exact FieldTest.holds_fst row t cache
  | not _ ih => exact congrArg Bool.not (ih cache)
  | and _ _ ihl ihr => exact congr (congrArg Bool.and (ihl _)) (ihr _)
  | or _ _ ihl ihr => exact congr (congrArg Bool.or (ihl _)) (ihr _)

end Reckon
