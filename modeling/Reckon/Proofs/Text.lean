import Mathlib.Tactic.Common
import Reckon.Text.Space
import Reckon.Text.Split

/-!
# Joined texts, and texts in white space

Parts that are joined by a separator which none of them contains are what the joined text is split
into (`splitOn_intercalate`).  What is left of a text after trimming is the one text that neither
begins nor ends with white space and has nothing but white space around it (`wraps_iff`).
-/

namespace Reckon

section

variable {α : Type} [DecidableEq α] {separator : α} {part : List α} {parts : List (List α)}

/-- A text without separators is its only part. -/
lemma splitOn_of_notMem (h : separator ∉ part) : splitOn separator part = [part] := by
  induction part with
  | nil => rfl
  | cons c part ih =>
    rw [List.mem_cons, not_or] at h
    rw [splitOn, if_neg (Ne.symm h.1), ih h.2]

/-- A part is split off at the first separator. -/
lemma splitOn_append_cons (h : separator ∉ part) (rest : List α) :
    splitOn separator (part ++ separator :: rest) = part :: splitOn separator rest := by
  induction part with
  | nil => rw [List.nil_append, splitOn, if_pos rfl]
  | cons c part ih =>
    rw [List.mem_cons, not_or] at h
    rw [List.cons_append, splitOn, if_neg (Ne.symm h.1), ih h.2]

/-- Joined parts are split again. -/
theorem splitOn_intercalate (hne : parts ≠ []) (h : ∀ part ∈ parts, separator ∉ part) :
    splitOn separator ([separator].intercalate parts) = parts := by
  induction parts with
  | nil => exact absurd rfl hne
  | cons part parts ih =>
    obtain ⟨hpart, hparts⟩ := List.forall_mem_cons.1 h
    cases parts with
    | nil => rw [List.intercalate_singleton, splitOn_of_notMem hpart]
    | cons next parts =>
      have hjoin : [separator].intercalate (part :: next :: parts) =
        part ++ separator :: [separator].intercalate (next :: parts) := rfl
      rw [hjoin, splitOn_append_cons hpart, ih (List.cons_ne_nil next parts) hparts]

end

/-! ## White space -/

/-- Whether a text is nothing but white space. -/
def IsSpaces (text : List Char) : Prop := ∀ c ∈ text, isSpace c = true

/-- Whether a text neither begins nor ends with white space. -/
structure IsTrimmed (text : List Char) : Prop where
  head : ∀ c ∈ text.head?, ¬isSpace c = true
  last : ∀ c ∈ text.getLast?, ¬isSpace c = true

/-- Whether a text is another one with white space around it. -/
def Wraps (text inner : List Char) : Prop :=
  IsTrimmed inner ∧ ∃ before after, text = before ++ (inner ++ after) ∧ IsSpaces before ∧
    IsSpaces after

variable {text inner before rest : List Char}

/-- White space read backwards is white space. -/
lemma IsSpaces.reverse (h : IsSpaces text) : IsSpaces text.reverse :=
  fun c hc => h c (List.mem_reverse.1 hc)

/-- White space is dropped up to the first other character. -/
lemma IsSpaces.dropWhile_append (hbefore : IsSpaces before)
    (hrest : ∀ c ∈ rest.head?, ¬isSpace c = true) : (before ++ rest).dropWhile isSpace = rest := by
  rw [List.dropWhile_append_of_pos hbefore]
  cases rest with
  | nil => rfl
  | cons c rest => rw [List.dropWhile_cons_of_neg (hrest c rfl)]

/-- What is taken of white space is white space. -/
lemma isSpaces_takeWhile (text : List Char) : IsSpaces (text.takeWhile isSpace) :=
  fun _ hc => List.all_eq_true.1 List.all_takeWhile _ hc

/-- Behind white space that is dropped comes something else. -/
lemma not_isSpace_head?_dropWhile {c : Char} (h : c ∈ (text.dropWhile isSpace).head?) :
    ¬isSpace c = true := by
  have hhead := List.head?_dropWhile_not isSpace text
  rw [h] at hhead
  rw [hhead]
  exact Bool.false_ne_true

/-- White space around a text is what trimming takes away. -/
theorem wraps_iff : Wraps text inner ↔ trim text = inner := by
  unfold trim trimRight
  constructor
  · rintro ⟨htrimmed, before, after, rfl, hbefore, hafter⟩
    cases inner with
    | nil =>
      have hspaces : IsSpaces (before ++ ([] ++ after)) :=
        List.forall_mem_append.2 ⟨hbefore, hafter⟩
      rw [← List.append_nil (before ++ ([] ++ after)), hspaces.dropWhile_append (by simp)]
      rfl
    | cons c inner =>
      rw [hbefore.dropWhile_append (by simpa using htrimmed.head), List.reverse_append,
        hafter.reverse.dropWhile_append, List.reverse_reverse]
      rw [List.head?_reverse]
      exact htrimmed.last
  · rintro rfl
    generalize hmiddle : text.dropWhile isSpace = middle
    have hsplit : middle = (middle.reverse.dropWhile isSpace).reverse ++
        (middle.reverse.takeWhile isSpace).reverse := by
      rw [← List.reverse_append, List.takeWhile_append_dropWhile, List.reverse_reverse]
    refine ⟨⟨fun c hc => ?_, fun c hc => ?_⟩, text.takeWhile isSpace, _, ?_,
      isSpaces_takeWhile text, (isSpaces_takeWhile middle.reverse).reverse⟩
    · -- trimming the end does not change how a text begins, unless nothing is left
      have hhead : c ∈ (text.dropWhile isSpace).head? := by
        rw [hmiddle, hsplit, List.head?_append, Option.mem_def.1 hc]
        rfl
      exact not_isSpace_head?_dropWhile hhead
    · rw [List.getLast?_reverse] at hc
      exact not_isSpace_head?_dropWhile hc
    · rw [← hsplit, ← hmiddle, List.takeWhile_append_dropWhile]

/-- A text is what is left of it when it is trimmed, between white space. -/
lemma wraps_trim (text : List Char) : Wraps text (trim text) := wraps_iff.2 rfl

/-- Only white space is trimmed away completely. -/
lemma trim_eq_nil_iff : trim text = [] ↔ IsSpaces text := by
  rw [← wraps_iff]
  constructor
  · rintro ⟨-, before, after, rfl, hbefore, hafter⟩
    exact List.forall_mem_append.2 ⟨hbefore, hafter⟩
  · exact fun h => ⟨⟨by simp, by simp⟩, text, [], by simp, h, List.forall_mem_nil _⟩

end Reckon
