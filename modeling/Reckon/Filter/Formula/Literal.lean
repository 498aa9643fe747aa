import Reckon.Filter.Formula.Reading

/-!
# Writing literals

A literal is written between double quotes, with every double quote in it doubled.
-/

namespace Reckon.Literal

/-- Characters with every double quote doubled. -/
def doubleQuotes : List Char → List Char
  | [] => []
  | c :: rest => if c = '"' then '"' :: '"' :: doubleQuotes rest else c :: doubleQuotes rest

/-- The written form of a literal. -/
def quote (text : List Char) : List Char := '"' :: (doubleQuotes text ++ ['"'])

end Reckon.Literal
