import Reckon.Source.Cursor

/-!
# Names

A name is a letter or an underscore followed by letters, digits and underscores, all of them ASCII.
-/

namespace Reckon

/-- Whether a name can begin with this character. -/
def isNameStart (c : Char) : Bool := c.isAlpha || c = '_'

/-- Whether a name can go on with this character. -/
def isNamePart (c : Char) : Bool := c.isAlphanum || c = '_'

namespace Cursor

/-- The name after the blanks, read as far as it goes. -/
def name (c : Cursor) : Option String × Cursor :=
  let start := c.skipBlanks
  match start.rest with
  | [] => (none, start)
  | first :: more =>
    if isNameStart first then
      let part := more.takeWhile isNamePart
      (some (String.ofList (first :: part)), start.skip (part.length + 1))
    else (none, start)

end Cursor

end Reckon
