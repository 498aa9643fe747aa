import Mathlib.Tactic.Common
import Reckon.Source.Operator
import Reckon.Proofs.Source.Cursor

/-!
# The longest spelling

A token is resolved against all spellings of a grammar, of which the longest that fits is meant. Two
spellings of the same length that both fit are the same, so that the longest one is determined by
the text (`longestSpelling_eq_some_iff`), and a cursor reads an operator exactly if the longest
spelling at it belongs to this operator.
-/

namespace Reckon

variable {vocabulary : List Spelling} {text : List Char} {word : Spelling}

/-- Whether this is the longest of some spellings that a text begins with, or there is none. -/
def IsLongestSpelling (vocabulary : List Spelling) (text : List Char) : Option Spelling → Prop
  | none => ∀ u ∈ vocabulary, ¬ u <+: text
  | some word => word ∈ vocabulary ∧ word <+: text ∧
      ∀ u ∈ vocabulary, u <+: text → u.length ≤ word.length

/-- What is found is the longest one. -/
lemma isLongestSpelling_longestSpelling (vocabulary : List Spelling) (text : List Char) :
    IsLongestSpelling vocabulary text (longestSpelling vocabulary text) := by
  -- What holds of the spellings seen so far is kept while the list is worked through.
  have hstep : ∀ (more seen : List Spelling) (best : Option Spelling),
      IsLongestSpelling seen text best →
      IsLongestSpelling (seen ++ more) text (more.foldl (fun best word =>
        if word.isPrefixOf text && best.all (fun b => b.length ≤ word.length) then some word
        else best) best) := by
    intro more
    induction more with
    | nil => simp
    | cons word more ih =>
      intro seen best hbest
      rw [List.foldl_cons, List.append_cons]
      apply ih
      split
      · rename_i hword
        rw [Bool.and_eq_true, List.isPrefixOf_iff_prefix] at hword
        refine ⟨by simp, hword.1, fun u hu hbegins => ?_⟩
        rcases List.mem_append.1 hu with hu | hu
        · cases best with
          | none => exact absurd hbegins (hbest u hu)
          | some b =>
            have hb : b.length ≤ word.length := by simpa using hword.2
            exact Nat.le_trans (hbest.2.2 u hu hbegins) hb
        · rw [List.mem_singleton] at hu
          exact Nat.le_of_eq (congrArg List.length hu)
      · rename_i hword
        rw [Bool.and_eq_true, List.isPrefixOf_iff_prefix, not_and] at hword
        cases best with
        | none =>
          intro u hu hbegins
          rcases List.mem_append.1 hu with hu | hu
          · exact hbest u hu hbegins
          · rw [List.mem_singleton] at hu
            subst hu
            exact hword hbegins (by simp)
        | some b =>
          refine ⟨List.mem_append_left _ hbest.1, hbest.2.1, fun u hu hbegins => ?_⟩
          rcases List.mem_append.1 hu with hu | hu
          · exact hbest.2.2 u hu hbegins
          · rw [List.mem_singleton] at hu
            subst hu
            have hshort := hword hbegins
            simp only [Option.all_some, decide_eq_true_eq, Nat.not_le] at hshort
            exact Nat.le_of_lt hshort
  exact hstep vocabulary [] none (by simp [IsLongestSpelling])

/-- The longest spelling is the one that no other spelling exceeds. -/
lemma longestSpelling_eq_some_iff : longestSpelling vocabulary text = some word ↔
    word ∈ vocabulary ∧ word <+: text ∧ ∀ u ∈ vocabulary, u <+: text → u.length ≤ word.length := by
  have hlongest := isLongestSpelling_longestSpelling vocabulary text
  constructor
  · intro h
    rw [h] at hlongest
    exact hlongest
  · rintro ⟨hmem, hbegins, hmax⟩
    cases hfound : longestSpelling vocabulary text with
    | none =>
      rw [hfound] at hlongest
      exact absurd hbegins (hlongest word hmem)
    | some u =>
      rw [hfound] at hlongest
      obtain ⟨hu, hubegins, humax⟩ := hlongest
      have hlength : u.length = word.length :=
        Nat.le_antisymm (hmax u hu hubegins) (humax word hmem hbegins)
      have hprefixed := List.prefix_of_prefix_length_le hubegins hbegins (Nat.le_of_eq hlength)
      rw [hprefixed.eq_of_length hlength]

/-- There is no longest spelling exactly if the text begins with none. -/
lemma longestSpelling_eq_none_iff : longestSpelling vocabulary text = none ↔
    ∀ u ∈ vocabulary, ¬ u <+: text := by
  have hlongest := isLongestSpelling_longestSpelling vocabulary text
  constructor
  · intro h
    rw [h] at hlongest
    exact hlongest
  · intro h
    by_contra hsome
    obtain ⟨u, hu⟩ := Option.ne_none_iff_exists'.1 hsome
    rw [hu] at hlongest
    exact h u hlongest.1 hlongest.2.1

/-- A spelling is the longest one at its place, if what follows does not complete another. -/
lemma longestSpelling_append {tail : List Char} (hword : word ∈ vocabulary)
    (h : ∀ u ∈ vocabulary, word <+: u → u.length ≤ word.length ∨
      (u.drop word.length).head? ≠ tail.head?) :
    longestSpelling vocabulary (word ++ tail) = some word := by
  refine longestSpelling_eq_some_iff.2 ⟨hword, List.prefix_append _ _, fun u hu hbegins => ?_⟩
  by_contra hlonger
  obtain ⟨more, rfl⟩ : word <+: u :=
    List.prefix_of_prefix_length_le (List.prefix_append _ _) hbegins (by omega)
  have hmore : more <+: tail := (List.prefix_append_right_inj word).1 hbegins
  rcases h _ hu (List.prefix_append _ _) with hle | hhead
  · exact hlonger hle
  · rw [List.drop_left] at hhead
    rcases more with _ | ⟨ch, more⟩
    · rw [List.append_nil] at hlonger
      exact hlonger (Nat.le_refl _)
    · obtain ⟨tail', rfl⟩ := hmore
      exact hhead rfl

namespace Cursor

variable {Op : Type} {candidates : List (Spelling × Op)} {op : Op} {c c' : Cursor}

/-- An operator that is read is one of the candidates, and its spelling is passed. -/
lemma exists_word_of_operator (h : c.operator vocabulary candidates = (some op, c')) :
    ∃ word, (word, op) ∈ candidates ∧ c.skipBlanks.rest = word ++ c'.rest := by
  unfold operator at h
  split at h
  · exact nomatch (Prod.mk.inj h).1
  · rename_i word hlongest
    split at h
    · exact nomatch (Prod.mk.inj h).1
    · rename_i candidate hfind
      obtain ⟨hop, rfl⟩ := Prod.mk.inj h
      obtain ⟨tail, htail⟩ := (longestSpelling_eq_some_iff.1 hlongest).2.1
      have hfits := List.find?_some hfind
      rw [decide_eq_true_eq] at hfits
      refine ⟨word, ?_, ?_⟩
      · rw [← Option.some.inj hop, ← hfits]
        exact List.mem_of_find?_eq_some hfind
      · rw [skip, ← htail, List.drop_left]

/-- Where no operator is read, only blanks are passed. -/
lemma eq_skipBlanks_of_operator (h : c.operator vocabulary candidates = (none, c')) :
    c' = c.skipBlanks := by
  unfold operator at h
  split at h
  · exact (Prod.mk.inj h).2.symm
  · split at h
    · exact (Prod.mk.inj h).2.symm
    · exact nomatch (Prod.mk.inj h).1

/-- The longest spelling is read if it belongs to a candidate. -/
lemma operator_of_longestSpelling {tail : List Char} (hrest : c.skipBlanks.rest = word ++ tail)
    (hlongest : longestSpelling vocabulary (word ++ tail) = some word)
    (hfind : candidates.find? (fun candidate => candidate.1 = word) = some (word, op)) :
    c.operator vocabulary candidates = (some op, c.skipBlanks.skip word.length) ∧
      (c.skipBlanks.skip word.length).rest = tail := by
  constructor
  · rw [operator, peekOperator, hrest, hlongest]
    dsimp only
    rw [hfind]
  · rw [skip, hrest, List.drop_left]

end Cursor

end Reckon
