/-!
# Patterns

A pattern is a list of pieces, each of which says which characters it accepts and how many of them,
and may be tied to the start and to the end of the text.  `Pattern.ofString` reads the usual
notation: `^` and `$` at the two ends, `.` for any character, `[abc]`, `[a-z]` and `[^abc]` for
sets, `*` and `+` behind a piece for repetition.  Every text is a pattern: a sign that makes no
sense where it stands is a character like any other.
-/

namespace Reckon

/-- Which characters a piece of a pattern accepts. -/
inductive Atom
  /-- Every character. -/
  | any
  | char (expected : Char)
  /-- The characters of some ranges, ends included, or all others. -/
  | set (negated : Bool) (ranges : List (Char × Char))
  deriving DecidableEq, Repr

/-- How many characters a piece takes. -/
inductive Repetition
  | once
  | zeroOrMore
  | oneOrMore
  deriving DecidableEq, Repr

/-- A piece of a pattern. -/
structure Piece where
  atom : Atom
  repetition : Repetition
  deriving DecidableEq, Repr

/-- A pattern. -/
structure Pattern where
  pieces : List Piece
  /-- Whether a match must begin at the start of the text. -/
  anchoredStart : Bool
  /-- Whether a match must reach the end of the text. -/
  anchoredEnd : Bool
  deriving DecidableEq, Repr

namespace Atom

/-- Whether a character is accepted. -/
def accepts (c : Char) : Atom → Bool
  | any => true
  | char expected => expected = c
  | set negated ranges => (ranges.any fun r => r.1 ≤ c && c ≤ r.2) != negated

/-- The upper end of the range whose lower end was just read.  A minus sign before the closing
bracket makes no range. -/
def rangeEnd? : List Char → Option Char
  | '-' :: high :: _ => if high = ']' then none else some high
  | _ => none

/-- The ranges of a set up to its closing bracket, and the text behind it.  A closing bracket that
comes first is a member, and so is a minus sign at either end. -/
def ranges? : Bool → List Char → Option (List (Char × Char) × List Char)
  | _, [] => none
  | isFirst, c :: rest =>
    if c = ']' && !isFirst then some ([], rest)
    else
      match rangeEnd? rest with
      | some high => (ranges? false (rest.drop 2)).map fun r => ((c, high) :: r.1, r.2)
      | none => (ranges? false rest).map fun r => ((c, c) :: r.1, r.2)
  termination_by _ text => text.length
  decreasing_by all_goals simp only [List.length_drop, List.length_cons]; omega

/-- The set whose opening bracket was just read, and the text behind it. -/
def set? : List Char → Option (Atom × List Char)
  | '^' :: rest => (ranges? true rest).map fun r => (set true r.1, r.2)
  | rest => (ranges? true rest).map fun r => (set false r.1, r.2)

/-- The ranges of a set take at least one character. -/
theorem length_lt_of_ranges? {isFirst : Bool} {text : List Char}
    {r : List (Char × Char) × List Char}
    (h : ranges? isFirst text = some r) : r.2.length < text.length := by
  fun_induction ranges? isFirst text generalizing r with
  | case1 => simp at h
  | case2 => simp at h; subst h; simp
  | case3 _ _ _ _ _ _ ih | case4 _ _ _ _ _ ih =>
    obtain ⟨s, hs, rfl⟩ := Option.map_eq_some_iff.1 h
    have := ih hs
    simp only [List.length_cons, List.length_drop] at *
    omega

/-- A set takes at least one character. -/
theorem length_lt_of_set? {text : List Char} {r : Atom × List Char} (h : set? text = some r) :
    r.2.length < text.length := by
  unfold set? at h
  split at h <;> obtain ⟨s, hs, rfl⟩ := Option.map_eq_some_iff.1 h <;>
    have := length_lt_of_ranges? hs <;> simp only [List.length_cons] <;> omega

end Atom

namespace Repetition

/-- The repetition that a sign stands for. -/
def ofSign? : Char → Option Repetition
  | '*' => some zeroOrMore
  | '+' => some oneOrMore
  | _ => none

end Repetition

namespace Pattern

/-- The last piece with a repetition, if it does not have one yet; the list begins with the last
piece. -/
def repeatLast? (r : Repetition) : List Piece → Option (List Piece)
  | ⟨atom, .once⟩ :: more => some (⟨atom, r⟩ :: more)
  | _ => none

/-- The pieces of a text, behind those already read, of which the last comes first. -/
def piecesAfter (before : List Piece) : List Char → List Piece
  | [] => before.reverse
  | c :: rest =>
    match (Repetition.ofSign? c).bind fun r => repeatLast? r before with
    | some repeated => piecesAfter repeated rest
    | none =>
      if c = '.' then piecesAfter (⟨.any, .once⟩ :: before) rest
      else if c = '[' then
        match _h : Atom.set? rest with
        | some (atom, more) => piecesAfter (⟨atom, .once⟩ :: before) more
        | none => piecesAfter (⟨.char c, .once⟩ :: before) rest
      else piecesAfter (⟨.char c, .once⟩ :: before) rest
  termination_by text => text.length
  decreasing_by
    all_goals simp only [List.length_cons]
    all_goals try omega
    exact Nat.lt_succ_of_lt (Atom.length_lt_of_set? _h)

/-- The pattern with these characters between the anchors, of which the end may still carry one. -/
def ofBody (anchoredStart : Bool) (body : List Char) : Pattern :=
  if body.getLast? = some '$' then ⟨piecesAfter [] body.dropLast, anchoredStart, true⟩
  else ⟨piecesAfter [] body, anchoredStart, false⟩

/-- The pattern that a text stands for. -/
def ofString (text : String) : Pattern :=
  match text.toList with
  | '^' :: body => ofBody true body
  | body => ofBody false body

end Pattern

end Reckon
