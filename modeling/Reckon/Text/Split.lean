/-!
# Splitting texts

A text is cut into fields at every separator, and into lines at every line feed.
-/

namespace Reckon

/-- The parts of a list between the separators; there is one more than there are separators. -/
def splitOn {α : Type} [DecidableEq α] (separator : α) : List α → List (List α)
  | [] => [[]]
  | c :: rest =>
    if c = separator then [] :: splitOn separator rest
    else
      match splitOn separator rest with
      | [] => [[c]]
      | part :: parts => (c :: part) :: parts

/-- A line that was ended by a line feed, without the carriage return that may stand before it. -/
def dropReturn (line : List Char) : List Char :=
  if line.getLast? = some '\r' then line.dropLast else line

/-- The lines of a text.  The last one needs no line feed, and then keeps a carriage return. -/
def lines (text : List Char) : List (List Char) :=
  let parts := splitOn '\n' text
  let last := parts.getLast?.getD []
  parts.dropLast.map dropReturn ++ (if last.isEmpty then [] else [last])

end Reckon
