/-!
# White space

The characters with the Unicode property `White_Space`, and what follows from them for texts: their
ends can be trimmed, and they can be cut into words.
-/

namespace Reckon

/-- Whether a character has the Unicode property `White_Space`. -/
def isSpace (c : Char) : Bool :=
  let n := c.toNat
  (0x9 ≤ n && n ≤ 0xd) || n = 0x20 || n = 0x85 || n = 0xa0 || n = 0x1680 ||
    (0x2000 ≤ n && n ≤ 0x200a) || n = 0x2028 || n = 0x2029 || n = 0x202f || n = 0x205f ||
    n = 0x3000

/-- A text without the white space at its end. -/
def trimRight (cs : List Char) : List Char := (cs.reverse.dropWhile isSpace).reverse

/-- A text without the white space at both ends. -/
def trim (cs : List Char) : List Char := trimRight (cs.dropWhile isSpace)

/-- The words of a text, behind the one that is being read; white space separates words. -/
def wordsAfter (word : List Char) : List Char → List (List Char)
  | [] => if word.isEmpty then [] else [word.reverse]
  | c :: rest =>
    if isSpace c then
      if word.isEmpty then wordsAfter [] rest else word.reverse :: wordsAfter [] rest
    else wordsAfter (c :: word) rest

/-- The longest stretches of a text without white space. -/
def words (cs : List Char) : List (List Char) := wordsAfter [] cs

end Reckon
