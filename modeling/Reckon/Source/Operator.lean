import Reckon.Source.Cursor

/-!
# Operator spellings

Where one operator's spelling begins another's (`&` and `&&`, `<` and `<<`), the longest one that
fits is the one that is meant.  So a token is first resolved against all spellings of a grammar and
only then looked up among the operators that may stand at that place.
-/

namespace Reckon

/-- The characters an operator is written with. -/
abbrev Spelling := List Char

/-- The longest of these spellings that the text begins with. -/
def longestSpelling (vocabulary : List Spelling) (text : List Char) : Option Spelling :=
  vocabulary.foldl
    (fun best word =>
      if word.isPrefixOf text && best.all (fun b => b.length ≤ word.length) then some word
      else best)
    none

/-- The binary operators of a grammar, by levels from the loosest to the tightest, and all
spellings that compete for a token. -/
structure OperatorTable (Op : Type) where
  levels : List (List (Spelling × Op))
  vocabulary : List Spelling

namespace OperatorTable

/-- The table of these levels in which exactly the spellings of the operators compete. -/
def ofLevels {Op : Type} (levels : List (List (Spelling × Op))) : OperatorTable Op :=
  ⟨levels, levels.flatten.map Prod.fst⟩

end OperatorTable

namespace Cursor

/-- The longest spelling after the blanks. -/
def peekOperator (vocabulary : List Spelling) (c : Cursor) : Option Spelling :=
  longestSpelling vocabulary c.skipBlanks.rest

/-- The operator after the blanks, if the longest spelling there belongs to one of the candidates;
only then is it read. -/
def operator {Op : Type} (vocabulary : List Spelling) (candidates : List (Spelling × Op))
    (c : Cursor) : Option Op × Cursor :=
  match c.peekOperator vocabulary with
  | none => (none, c.skipBlanks)
  | some word =>
    match candidates.find? (fun candidate => candidate.1 = word) with
    | none => (none, c.skipBlanks)
    | some candidate => (some candidate.2, c.skipBlanks.skip word.length)

end Cursor

end Reckon
