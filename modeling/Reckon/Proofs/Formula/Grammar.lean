import Reckon.Filter.Formula.Literal
import Reckon.Filter.Formula.Truth
import Reckon.Proofs.Source.Cursor
import Reckon.Proofs.Source.Digits

/-!
# The grammar of filters

Which texts are formulas is said without any reader here, on the characters themselves
(`Formula.Derives`).  Phrases joined by `|` or `||` are looser than those joined by `&` or `&&`, and
both lean to the left.  A derivation counts how many parentheses and negations are open at once.  It
says nothing about rows: whether the fields of its tests exist and whether its literals are short
enough is asked of the formula (`FieldTest.IsAdmitted`).
-/

namespace Reckon

/-- How a comparison is written. -/
def Comparison.word : Comparison → List Char
  | equal => ['=', '=']
  | notEqual => ['!', '=']
  | like => ['~']
  | notLike => ['!', '~']

/-- So the comparisons are read. -/
lemma Comparison.mem_comparisons_iff {word : Spelling} {comparison : Comparison} :
    (word, comparison) ∈ Formula.comparisons ↔ word = comparison.word := by
  constructor
  · have hwords : ∀ candidate ∈ Formula.comparisons, candidate.1 = candidate.2.word := by decide
    exact hwords (word, comparison)
  · rintro rfl
    cases comparison with
    | equal | notEqual | like | notLike => decide

namespace FieldTest

/-- Whether a text is the written form of a test: a dollar sign and the number of a field, the
comparison, and a quoted literal, with blanks around the comparison. -/
def IsWritten (text : List Char) (t : FieldTest) : Prop :=
  ∃ digits before behind, digits ≠ [] ∧ (∀ d ∈ digits, d.isDigit = true) ∧
    IsBlanks before ∧ IsBlanks behind ∧ t.field = numberOf 10 digits ∧
    text = '$' :: (digits ++ before ++ t.comparison.word ++ behind ++
      Literal.quote t.literal.toList)

/-- Whether a test can be asked of a row with this many fields: the field exists, and the literal is
not too long. -/
structure IsAdmitted (literalCapacity fieldCount : ℕ) (t : FieldTest) : Prop where
  field_pos : 1 ≤ t.field
  field_le : t.field ≤ fieldCount
  literal_le : utf8Length t.literal.toList ≤ literalCapacity

end FieldTest

namespace Formula

/-- All tests in a formula, from left to right. -/
def tests : Formula → List FieldTest
  | test t => [t]
  | not condition => condition.tests
  | and left right | or left right => left.tests ++ right.tests

/-- The kinds of phrases: operands, and phrases that connectives join. -/
inductive Phrase
  | operand
  | joined (connective : Connective)

end Formula

namespace Connective

open Formula

/-- How a connective is written. -/
def words : Connective → List Spelling
  | or => ["|".toList, "||".toList]
  | and => ["&".toList, "&&".toList]

/-- What a connective joins. -/
def tighter : Connective → Phrase
  | or => .joined and
  | and => .operand

/-- The formula that a connective makes of two. -/
def join : Connective → Formula → Formula → Formula
  | or => .or
  | and => .and

lemma build?_pair (c : Connective) (left right : Formula) :
    c.build? [left, right] = some (c.join left right) := by
  cases c with
  | or => rfl
  | and => rfl

lemma tests_join (c : Connective) (left right : Formula) :
    (c.join left right).tests = left.tests ++ right.tests := by
  cases c with
  | or => rfl
  | and => rfl

end Connective

namespace Formula

/-- Whether a text is a phrase of a kind, stands for a formula, and opens at most this many
parentheses and negations at once.  Blanks may stand before every token. -/
inductive Derives : Phrase → List Char → Formula → ℕ → Prop
  | simple {c : Connective} {text : List Char} {f : Formula} {nesting : ℕ} :
      Derives c.tighter text f nesting → Derives (.joined c) text f nesting
  | join {c : Connective} {text text' blanks : List Char} {word : Spelling} {left right : Formula}
      {m n : ℕ} : Derives (.joined c) text left m → IsBlanks blanks → word ∈ c.words →
      Derives c.tighter text' right n →
      Derives (.joined c) (text ++ (blanks ++ (word ++ text'))) (c.join left right) (max m n)
  | not {blanks text : List Char} {f : Formula} {nesting : ℕ} : IsBlanks blanks →
      Derives .operand text f nesting →
      Derives .operand (blanks ++ '!' :: text) (.not f) (nesting + 1)
  | group {blanks text blanks' : List Char} {f : Formula} {nesting : ℕ} : IsBlanks blanks →
      Derives (.joined .or) text f nesting → IsBlanks blanks' →
      Derives .operand (blanks ++ '(' :: (text ++ (blanks' ++ [')']))) f (nesting + 1)
  | test {blanks text : List Char} {t : FieldTest} : IsBlanks blanks → t.IsWritten text →
      Derives .operand (blanks ++ text) (.test t) 0

/-- Whether a whole text stands for a formula with so many parentheses and negations open at
once. -/
def Sentence (text : String) (f : Formula) (nesting : ℕ) : Prop :=
  ∃ phrase blanks, Derives (.joined .or) phrase f nesting ∧ IsBlanks blanks ∧
    text.toList = phrase ++ blanks

namespace Derives

variable {p : Phrase} {text blanks : List Char} {f : Formula} {nesting : ℕ}

/-- Blanks before a phrase do not matter. -/
lemma prepend (h : Derives p text f nesting) (hblanks : IsBlanks blanks) :
    Derives p (blanks ++ text) f nesting := by
  induction h with
  | simple _ ih => exact .simple ih
  | join _ hbetween hword hright ih _ =>
    rw [← List.append_assoc]
    exact .join ih hbetween hword hright
  | not hbefore hinner _ =>
    rw [← List.append_assoc]
    exact .not (List.forall_mem_append.2 ⟨hblanks, hbefore⟩) hinner
  | group hbefore hinner hbehind _ =>
    rw [← List.append_assoc]
    exact .group (List.forall_mem_append.2 ⟨hblanks, hbefore⟩) hinner hbehind
  | test hbefore hwritten =>
    rw [← List.append_assoc]
    exact .test (List.forall_mem_append.2 ⟨hblanks, hbefore⟩) hwritten

end Derives

/-- The characters that a phrase can begin with. -/
def openers : List Char := ['!', '(', '$']

/-- Behind blanks every phrase begins with one of three characters. -/
lemma Derives.exists_opener {p : Phrase} {text : List Char} {f : Formula} {nesting : ℕ}
    (h : Derives p text f nesting) :
    ∃ blanks ch more, IsBlanks blanks ∧ ch ∈ openers ∧ text = blanks ++ ch :: more := by
  induction h with
  | simple _ ih => exact ih
  | join _ _ _ _ ih _ =>
    obtain ⟨blanks, ch, more, hblanks, hch, rfl⟩ := ih
    exact ⟨blanks, ch, _, hblanks, hch, by rw [List.append_assoc, List.cons_append]⟩
  | not hblanks _ _ => exact ⟨_, '!', _, hblanks, by decide, rfl⟩
  | group hblanks _ _ _ => exact ⟨_, '(', _, hblanks, by decide, rfl⟩
  | test hblanks hwritten =>
    obtain ⟨digits, before, behind, -, -, -, -, -, rfl⟩ := hwritten
    exact ⟨_, '$', _, hblanks, by decide, rfl⟩

end Formula

end Reckon
