import Mathlib.Data.List.TakeWhile
import Reckon.Filter.RowFilter
import Reckon.Proofs.Formula.Completeness
import Reckon.Proofs.Formula.Soundness

/-!
# What filters decide

A filter decides a row exactly if its text is blank, or is a formula of the grammar whose tests can
all be asked of the row; and then it decides as the formula says (`RowFilter.tryMatch_eq_ok_iff`).
No test is spared by what the others say.
-/

namespace Reckon

open Outcome

namespace Formula

open Cursor

variable {limits : Limits} {fieldCount nesting : ℕ} {text : String} {f : Formula}

/-- A formula is not blank. -/
lemma Sentence.not_isBlanks (h : Sentence text f nesting) : ¬IsBlanks text.toList := by
  obtain ⟨phrase, blanks, hderives, -, htext⟩ := h
  obtain ⟨before, ch, more, -, hch, rfl⟩ := hderives.exists_opener
  have hopeners : (openers.all fun d => !isBlank d) = true := by decide
  have hopener : (!isBlank ch) = true := List.all_eq_true.1 hopeners ch hch
  intro hblanks
  rw [htext] at hblanks
  have hblank := hblanks.isBlank ch (by simp)
  rw [hblank] at hopener
  exact Bool.false_ne_true hopener

/-- A text stands for a formula about rows with so many fields exactly if it derives from the
grammar, is not nested too deep, and all its tests can be asked. -/
lemma ofString_eq_ok_some_iff (hcount : fieldCount < largestField) :
    ofString limits fieldCount text = .ok (some f) ↔
      ∃ nesting, Sentence text f nesting ∧ nesting ≤ limits.nestingLimit ∧
        ∀ t ∈ f.tests, t.IsAdmitted limits.literalCapacity fieldCount := by
  constructor
  · intro h
    unfold ofString at h
    split at h
    · exact nomatch h
    · split at h
      · exact nomatch h
      · rename_i s hread
        split at h
        · rename_i hend
          obtain ⟨phrase, g, nesting, hderives, hnesting, hadmitted, ⟨blanks, hblanks, hrest⟩,
            hdone⟩ := reads_reader limits hcount _ _ hread
          rw [hdone] at h
          obtain rfl : g = f := Option.some.inj (Except.ok.inj h)
          exact ⟨nesting, ⟨phrase, blanks ++ s.cursor.rest, hderives,
            List.forall_mem_append.2 ⟨hblanks, atEnd_iff.1 hend⟩, hrest⟩,
            Nat.le_of_lt_succ hnesting, hadmitted⟩
        · exact nomatch h
  · rintro ⟨nesting, hsentence, hnesting, hadmitted⟩
    have hnotblank : ¬(Cursor.ofString text).atEnd = true :=
      fun hend => hsentence.not_isBlanks (atEnd_iff.1 hend)
    obtain ⟨phrase, blanks, hderives, hblanks, htext⟩ := hsentence
    have hdrop : blanks.dropWhile isBlank = [] := List.dropWhile_eq_nil_iff.2 hblanks.isBlank
    have hstops : (Phrase.joined .or).Stops blanks := by
      refine ⟨fun hquote => ?_, fun ch _ => ?_⟩
      · have hblank := hblanks '"' (List.mem_of_head? hquote)
        exact absurd hblank (by decide)
      · rw [hdrop]
        exact nofun
    obtain ⟨c, hread, hfaces⟩ := finds_reader limits hcount _ (Cursor.ofString text) [] phrase f
      nesting blanks hderives (Nat.lt_succ_of_le hnesting) hadmitted (.of_rest_eq htext) hstops
      (Nat.le_refl _)
    have hend : c.atEnd = true := by
      rw [atEnd, hfaces, hdrop]
      rfl
    unfold ofString
    rw [if_neg hnotblank, hread]
    dsimp only
    rw [if_pos hend]
    rfl

/-- A blank text stands for no formula. -/
lemma ofString_of_isBlanks (h : IsBlanks text.toList) :
    ofString limits fieldCount text = .ok none := by
  have hend : (Cursor.ofString text).atEnd = true := atEnd_iff.2 h
  unfold ofString
  rw [if_pos hend]

/-- No other text does. -/
lemma ofString_ne_ok_none (hcount : fieldCount < largestField) (h : ¬IsBlanks text.toList) :
    ofString limits fieldCount text ≠ .ok none := by
  intro hnone
  have hnotend : ¬(Cursor.ofString text).atEnd = true := fun hend => h (atEnd_iff.1 hend)
  unfold ofString at hnone
  rw [if_neg hnotend] at hnone
  split at hnone
  · exact nomatch hnone
  · rename_i s hread
    split at hnone
    · obtain ⟨_, f, _, -, -, -, -, hdone⟩ := reads_reader limits hcount _ _ hread
      rw [hdone] at hnone
      exact nomatch Except.ok.inj hnone
    · exact nomatch hnone

end Formula

namespace RowFilter

open Formula

/-- Whether a filter is to answer so for a row.  A filter with a blank text accepts nothing.
Otherwise the text must be a formula that is not nested too deep and in which all tests can be asked
of the row; the answer is whether the row satisfies it. -/
def Decides (filter : RowFilter) (row : Array String) (answer : Bool) : Prop :=
  (IsBlanks filter.expression.toList ∧ answer = false) ∨
    ∃ f nesting, Sentence filter.expression f nesting ∧ nesting ≤ filter.limits.nestingLimit ∧
      (∀ t ∈ f.tests, t.IsAdmitted filter.limits.literalCapacity row.size) ∧
      answer = f.truth row

variable {filter : RowFilter} {row : Array String}

/-- A filter answers as it is to do, if it is to answer at all. -/
lemma tryMatch_eq_ok_iff (hrow : row.size < Cursor.largestField) (answer : Bool) :
    (∃ filter', tryMatch row filter = .ok answer filter') ↔ filter.Decides row answer := by
  unfold tryMatch
  constructor
  · rintro ⟨filter', h⟩
    split at h
    · exact nomatch h
    · rename_i hnone
      cases h
      by_cases hblank : IsBlanks filter.expression.toList
      · exact .inl ⟨hblank, rfl⟩
      · exact absurd hnone (ofString_ne_ok_none hrow hblank)
    · rename_i f hsome
      obtain ⟨nesting, hsentence, hnesting, hadmitted⟩ := (ofString_eq_ok_some_iff hrow).1 hsome
      have hanswer : (f.holds row filter.patterns.trim).1 = answer := by
        cases h
        rfl
      rw [f.holds_fst] at hanswer
      exact .inr ⟨f, nesting, hsentence, hnesting, hadmitted, hanswer.symm⟩
  · rintro (⟨hblank, rfl⟩ | ⟨f, nesting, hsentence, hnesting, hadmitted, rfl⟩)
    · rw [ofString_of_isBlanks hblank]
      exact ⟨_, rfl⟩
    · rw [(ofString_eq_ok_some_iff hrow).2 ⟨nesting, hsentence, hnesting, hadmitted⟩,
        ← f.holds_fst row filter.patterns.trim]
      exact ⟨_, rfl⟩

/-- For rows with a number of fields that fits into a machine word, a filter answers exactly what it
is to answer, and fails if there is nothing that it is to answer. -/
theorem tryMatch_decides (filter : RowFilter) (row : Array String)
    (hrow : row.size < Cursor.largestField) :
    (∀ answer, (∃ filter', tryMatch row filter = .ok answer filter') ↔
      filter.Decides row answer) ∧
    ((∃ e filter', tryMatch row filter = .error e filter') ↔
      ∀ answer, ¬filter.Decides row answer) := by
  refine ⟨tryMatch_eq_ok_iff hrow, ?_⟩
  constructor
  · rintro ⟨e, filter', herror⟩ answer hdecides
    obtain ⟨filter'', hok⟩ := (tryMatch_eq_ok_iff hrow answer).2 hdecides
    rw [hok] at herror
    exact nomatch herror
  · intro hnone
    rcases hmatch : tryMatch row filter with ⟨answer, filter'⟩ | ⟨e, filter'⟩
    · exact absurd ((tryMatch_eq_ok_iff hrow answer).1 ⟨filter', hmatch⟩) (hnone answer)
    · exact ⟨e, filter', rfl⟩

/-- A row with the fields `a` and `b` is accepted by a filter with all comparisons and
connectives. -/
theorem tryMatch_a_b :
    let filter := new "!($1 != \"a\" || $2 !~ \"b\") & $2 ~ \"b\" | $1 == \"b\"" ⟨1, 2⟩
    let row := #["a", "b"]
    row.size < Cursor.largestField ∧ ∃ filter', tryMatch row filter = .ok true filter' := by
  intro filter row
  have hrow : row.size < Cursor.largestField := by decide
  have hone : ∀ d ∈ ['1'], d.isDigit = true := List.forall_mem_singleton.2 rfl
  have htwo : ∀ d ∈ ['2'], d.isDigit = true := List.forall_mem_singleton.2 rfl
  have hempty : IsBlanks [] := nofun
  have hblank : IsBlanks [' '] := List.forall_mem_singleton.2 (by decide)
  have hor : "|".toList ∈ Connective.or.words ∧ "||".toList ∈ Connective.or.words := by decide
  have hand : "&".toList ∈ Connective.and.words := by decide
  let differs : FieldTest := ⟨1, .notEqual, "a"⟩
  let unlike : FieldTest := ⟨2, .notLike, "b"⟩
  let like : FieldTest := ⟨2, .like, "b"⟩
  let equals : FieldTest := ⟨1, .equal, "b"⟩
  let f : Formula := .or (.and (.not (.or (.test differs) (.test unlike))) (.test like))
    (.test equals)
  have hdiffers : differs.IsWritten "$1 != \"a\"".toList :=
    ⟨['1'], [' '], [' '], by decide, hone, hblank, hblank, by decide, by decide⟩
  have hunlike : unlike.IsWritten "$2 !~ \"b\"".toList :=
    ⟨['2'], [' '], [' '], by decide, htwo, hblank, hblank, by decide, by decide⟩
  have hlike : like.IsWritten "$2 ~ \"b\"".toList :=
    ⟨['2'], [' '], [' '], by decide, htwo, hblank, hblank, by decide, by decide⟩
  have hequals : equals.IsWritten "$1 == \"b\"".toList :=
    ⟨['1'], [' '], [' '], by decide, hone, hblank, hblank, by decide, by decide⟩
  -- the phrase in parentheses, then the phrase before the last connective, then all of it
  have hinner := Derives.join (c := .or)
    (.simple (c := .or) (.simple (c := .and) (.test hempty hdiffers))) hblank hor.2
    (.simple (c := .and) (.test hblank hunlike))
  have hleft := Derives.join (c := .and)
    (.simple (c := .and) (.not hempty (.group hempty hinner hempty))) hblank hand
    (.test hblank hlike)
  have hphrase := Derives.join (c := .or) (.simple (c := .or) hleft) hblank hor.1
    (.simple (c := .and) (.test hblank hequals))
  have hadmitted : ∀ t ∈ f.tests, t.IsAdmitted 1 2 :=
    List.forall_mem_cons.2 ⟨⟨by decide, by decide, by decide⟩,
      List.forall_mem_cons.2 ⟨⟨by decide, by decide, by decide⟩,
        List.forall_mem_cons.2 ⟨⟨by decide, by decide, by decide⟩,
          List.forall_mem_singleton.2 ⟨by decide, by decide, by decide⟩⟩⟩⟩
  have hdecides : filter.Decides row true :=
    .inr ⟨f, 2, ⟨_, [], hphrase, nofun, by decide⟩, by decide, hadmitted, by decide +kernel⟩
  exact ⟨hrow, ((tryMatch_decides filter row hrow).1 true).2 hdecides⟩

end RowFilter

end Reckon
