import Reckon.Filter.Pattern.Basic

/-!
# What patterns mean

The meaning of patterns without any search.  A piece accepts a stretch of characters; the pieces of
a pattern together accept a text that falls into consecutive stretches, one for each; and a pattern
matches a text that holds such a part, at the ends to which the pattern is tied.
-/

namespace Reckon

namespace Repetition

/-- The numbers of characters that a repetition allows. -/
def Allows : Repetition → Nat → Prop
  | once, n => n = 1
  | zeroOrMore, _ => True
  | oneOrMore, n => 0 < n

instance (r : Repetition) (n : Nat) : Decidable (r.Allows n) := by
  unfold Allows
  split <;> infer_instance

end Repetition

/-- Whether a piece accepts exactly these characters. -/
def Piece.Accepts (piece : Piece) (part : List Char) : Prop :=
  piece.repetition.Allows part.length ∧ ∀ c ∈ part, piece.atom.accepts c

/-- Whether a text falls into parts, one accepted by each piece in order. -/
inductive AcceptedInOrder : List Piece → List Char → Prop
  | nil : AcceptedInOrder [] []
  | cons {piece : Piece} {pieces : List Piece} {part rest : List Char} (first : piece.Accepts part)
      (others : AcceptedInOrder pieces rest) : AcceptedInOrder (piece :: pieces) (part ++ rest)

/-- Whether a pattern matches somewhere in a text. -/
def Pattern.Matches (p : Pattern) (text : List Char) : Prop :=
  ∃ before found after, text = before ++ found ++ after ∧ AcceptedInOrder p.pieces found ∧
    (p.anchoredStart → before = []) ∧ (p.anchoredEnd → after = [])

end Reckon
