import Reckon.Proofs.Filter.Memory

/-!
# Which fields matter

Whether a filter can decide a row is a matter of how many fields the row has, and not of what is in
them: the text of the filter is read to its end whatever the outcomes of its tests are.  A row of
one size is decided as any other of that size, or both fail with the same error
(`verdict_of_size_eq`).

Nor do further fields hurt.  On a longer row a pass does the very same, unless it lacks a field of
the shorter row (`Pass.covers_whole`).  So whatever is decided about a row is decided about all rows
that begin with it (`verdict_append`), and a filter that can decide some row fails on another one
only because that row has too few fields (`verdict_ok_or_isMissingField`).
-/

namespace Reckon

open Outcome

/-- Whether an error says that a row with so many fields lacks one. -/
def Error.IsMissingField (count : ℕ) (e : Error) : Prop :=
  ∃ field, count < field ∧ e = .fieldOutOfRange field count

/-! ## Fields behind those that are tested -/

namespace FieldTest

variable {t : FieldTest} {row : Array String}

/-- A test of a field that exists does not see the fields behind it. -/
lemma fieldOf_append (more : Array String) (hpos : t.field ≠ 0) (hle : t.field ≤ row.size) :
    t.fieldOf (row ++ more) = t.fieldOf row := by
  have hlt : t.field - 1 < row.size := by omega
  unfold fieldOf
  rw [Array.getElem?_append_left hlt]

/-- Fields that a test does not ask for do not matter to it. -/
lemma holds_append (more : Array String) (hpos : t.field ≠ 0) (hle : t.field ≤ row.size) :
    t.holds (row ++ more) = t.holds row := by
  unfold holds
  rw [fieldOf_append more hpos hle]

end FieldTest

/-! ## Passes over longer rows -/

namespace Pass

/-- A test of a field that is not missing is answered in the same way when further fields stand
behind the row. -/
lemma covers_test (literalCapacity : ℕ) (row more : Array String) :
    Covers (Error.IsMissingField row.size) (test literalCapacity row)
      (test literalCapacity (row ++ more)) := by
  refine .bind_refl fun dollar => .bind_refl fun isThere => ?_
  dsimp only
  split
  · refine .bind_refl fun field => ?_
    split
    · rename_i hfield
      refine fun p => .inr ⟨.fieldOutOfRange field row.size, p, rfl, ?_⟩
      by_cases hzero : field = 0
      · right
        rw [hzero]
        rfl
      · left
        simp only [hzero, decide_false, Bool.false_or, decide_eq_true_eq] at hfield
        exact ⟨field, hfield, rfl⟩
    · rename_i hfield
      simp only [Bool.or_eq_true, decide_eq_true_eq, not_or, Nat.not_lt] at hfield
      obtain ⟨hpos, hle⟩ := hfield
      have hexists : ¬(decide (field = 0) || decide ((row ++ more).size < field)) = true := by
        simp only [Array.size_append, Bool.or_eq_true, decide_eq_true_eq]
        omega
      rw [if_neg hexists]
      refine .bind_refl fun position => .bind_refl fun comparison => ?_
      cases comparison with
      | none => exact .refl _
      | some comparison =>
        refine .bind_refl fun literal => ?_
        unfold ask
        rw [FieldTest.holds_append more hpos hle]
        exact .refl _
  · -- The sign of a field is missing, so that what follows is not reached.
    intro p
    left
    rw [bind_apply, bind_apply, reading, Reader.unexpected_apply]

section

variable {excused : Error → Prop}
  {test test' inner inner' group group' operand operand' tighter tighter' : EStateM Error Pass Unit}

/-- Operands are covered if their tests and their inner operands and groups are. -/
lemma covers_operandWith (htest : Covers excused test test') (hinner : Covers excused inner inner')
    (hgroup : Covers excused group group') :
    Covers excused (operandWith test inner group) (operandWith test' inner' group') := by
  refine .bind_refl fun opening => .bind_refl fun isNegation => ?_
  cases isNegation with
  | true => exact hinner.bind fun _ => .refl _
  | false =>
    refine .bind_refl fun isGroup => ?_
    cases isGroup with
    | true => exact hgroup.bind fun _ => .refl _
    | false => exact htest

/-- Pairs are covered if the tighter level is. -/
lemma covers_pairs (operators : List (Spelling × Connective)) (h : Covers excused tighter tighter')
    (turns : ℕ) : Covers excused (pairs operators tighter turns)
      (pairs operators tighter' turns) := by
  induction turns with
  | zero => exact .refl _
  | succ turns ih =>
    refine .bind_refl fun connective => ?_
    cases connective with
    | none => exact .refl _
    | some connective => exact h.bind fun _ => .bind_refl fun _ => ih

/-- The levels of connectives are covered if their operands are. -/
lemma covers_climb (h : Covers excused operand operand') (turns : ℕ)
    (levels : List (List (Spelling × Connective))) :
    Covers excused (climb operand turns levels) (climb operand' turns levels) := by
  induction levels with
  | nil => exact h
  | cons operators levels ih => exact ih.bind fun _ => covers_pairs operators ih turns

/-- A phrase is covered if its operands are. -/
lemma covers_phrase (h : Covers excused operand operand') :
    Covers excused (phrase operand) (phrase operand') :=
  .bind_refl fun _ => covers_climb h _ _

/-- Operands are covered at every depth if their tests are. -/
lemma covers_operand (limit : ℕ) (h : Covers excused test test') (allowance : ℕ) :
    Covers excused (Pass.operand limit test allowance) (Pass.operand limit test' allowance) := by
  induction allowance with
  | zero => exact covers_operandWith h (.refl _) (.refl _)
  | succ allowance ih => exact covers_operandWith h ih (covers_phrase ih)

end

/-- When further fields stand behind a row, a pass does the very same, unless a field of the shorter
row was missing. -/
theorem covers_whole (limits : Formula.Limits) (row more : Array String) :
    Covers (Error.IsMissingField row.size) (whole limits row) (whole limits (row ++ more)) :=
  (covers_phrase (covers_operand _ (covers_test _ row more) _)).bind fun _ => .refl _

end Pass

/-! ## Filters -/

namespace RowFilter

variable {expression : String} {limits : Formula.Limits} {row row' : Array String} {b : Bool}

/-- Whether two outcomes are both decisions, or the same error. -/
def SameAcceptance (r r' : Except Error Bool) : Prop :=
  (∃ b b', r = .ok b ∧ r' = .ok b') ∨ ∃ e, r = .error e ∧ r' = .error e

/-- The number of fields settles whether a row is decided, and what is wrong otherwise. -/
lemma verdict_of_size_eq (h : row.size = row'.size) :
    SameAcceptance (verdict expression limits row) (verdict expression limits row') := by
  unfold verdict
  rw [h]
  cases Formula.ofString limits row'.size expression with
  | ok found => exact .inl ⟨_, _, rfl, rfl⟩
  | error e => exact .inr ⟨e, rfl, rfl⟩

/-- About a longer row a filter decides the same, unless a field of the shorter row is missing or it
fails on both. -/
lemma verdict_append_cases (expression : String) (limits : Formula.Limits)
    (row more : Array String) :
    verdict expression limits row = verdict expression limits (row ++ more) ∨
      ∃ e, verdict expression limits row = .error e ∧
        (e.IsMissingField row.size ∨
          ∃ e', verdict expression limits (row ++ more) = .error e') := by
  cases hend : (Cursor.ofString expression).atEnd with
  | true =>
    left
    unfold verdict Formula.ofString
    rw [if_pos hend, if_pos hend]
    rfl
  | false =>
    let p : Pass := ⟨⟨Cursor.ofString expression, []⟩, "", .empty⟩
    have hrow : answer (Pass.whole limits row p) = verdict expression limits row :=
      Pass.answer_whole limits row rfl hend
    have hlonger :
        answer (Pass.whole limits (row ++ more) p) = verdict expression limits (row ++ more) :=
      Pass.answer_whole limits (row ++ more) rfl hend
    rw [← hrow, ← hlonger]
    rcases Pass.covers_whole limits row more p with hsame | ⟨e, p', hfails, hexcused⟩
    · exact .inl (congrArg answer hsame)
    · refine .inr ⟨e, by rw [hfails]; rfl, hexcused.imp_right fun hnone => ?_⟩
      rcases hrun : Pass.whole limits (row ++ more) p with ⟨b, p'⟩ | ⟨e', p'⟩
      · rw [hrun] at hnone
        exact nomatch hnone
      · exact ⟨e', rfl⟩

/-- What is decided about a row is decided about all rows that begin with it. -/
lemma verdict_append (more : Array String) (h : verdict expression limits row = .ok b) :
    verdict expression limits (row ++ more) = .ok b := by
  rcases verdict_append_cases expression limits row more with hsame | ⟨e, herror, -⟩
  · exact hsame.symm.trans h
  · exact nomatch h.symm.trans herror

/-- A row with at least as many fields as one that is decided is decided too. -/
lemma exists_verdict_of_size_le (h : verdict expression limits row = .ok b)
    (hsize : row.size ≤ row'.size) :
    ∃ b', verdict expression limits row' = .ok b' := by
  have hbegins : row.size = (row'.extract 0 row.size).size := by
    rw [Array.size_extract, Nat.min_eq_left hsize, Nat.sub_zero]
  have hsame : SameAcceptance (verdict expression limits row)
      (verdict expression limits (row'.extract 0 row.size)) := verdict_of_size_eq hbegins
  have hsplit : row'.extract 0 row.size ++ row'.extract row.size row'.size = row' := by
    rw [Array.extract_append_extract, Nat.zero_min, Nat.max_eq_right hsize, Array.extract_size]
  rcases hsame with ⟨-, b', -, hdecided⟩ | ⟨e, herror, -⟩
  · have hlonger := verdict_append (row'.extract row.size row'.size) hdecided
    rw [hsplit] at hlonger
    exact ⟨b', hlonger⟩
  · exact nomatch h.symm.trans herror

/-- A filter that can decide some row fails on another one only because that one lacks a field. -/
lemma verdict_ok_or_isMissingField (h : verdict expression limits row = .ok b)
    (row' : Array String) :
    (∃ b', verdict expression limits row' = .ok b') ∨
      ∃ e, verdict expression limits row' = .error e ∧ e.IsMissingField row'.size := by
  have hsize : row.size ≤ (row' ++ row).size := by
    rw [Array.size_append]
    exact Nat.le_add_left _ _
  obtain ⟨b', hlonger⟩ := exists_verdict_of_size_le h hsize
  rcases verdict_append_cases expression limits row' row with
    hsame | ⟨e, herror, hmissing | ⟨e', hfails⟩⟩
  · exact .inl ⟨b', hsame.trans hlonger⟩
  · exact .inr ⟨e, herror, hmissing⟩
  · exact nomatch hlonger.symm.trans hfails

/-- Whether a row is decided does not depend on what is in its fields.  Of two rows with the same
number of fields, a filter decides both or fails on both with the same error; and what it decides
about a row, it decides about this row with any further fields behind it.  That is so whether
formulas are built or rows are decided in one pass, and whatever the filter was asked about
before. -/
theorem acceptance_of_other_fields {f g : RowFilter} {f' g' : OnePassFilter}
    (hf : f.IsFor expression limits) (hg : g.IsFor expression limits)
    (hf' : f'.toRowFilter.IsFor expression limits) (hg' : g'.toRowFilter.IsFor expression limits) :
    (∀ row row' : Array String, row.size = row'.size →
      SameAcceptance (answer (tryMatch row f)) (answer (tryMatch row' g)) ∧
      SameAcceptance (answer (f'.tryMatch row)) (answer (g'.tryMatch row'))) ∧
    ∀ (row more : Array String) (b : Bool),
      (answer (tryMatch row f) = .ok b → answer (tryMatch (row ++ more) g) = .ok b) ∧
      (answer (f'.tryMatch row) = .ok b → answer (g'.tryMatch (row ++ more)) = .ok b) := by
  have hbuilt {f : RowFilter} (hf : f.IsFor expression limits) (row : Array String) :
      answer (tryMatch row f) = verdict expression limits row :=
    (decides expression limits).answer_eq hf row
  have hpass {f : OnePassFilter} (hf : f.toRowFilter.IsFor expression limits) (row : Array String) :
      answer (f.tryMatch row) = verdict expression limits row :=
    (OnePassFilter.decides expression limits).answer_eq hf row
  constructor
  · intro row row' hsize
    rw [hbuilt hf, hbuilt hg, hpass hf', hpass hg']
    exact ⟨verdict_of_size_eq hsize, verdict_of_size_eq hsize⟩
  · intro row more b
    rw [hbuilt hf, hbuilt hg, hpass hf', hpass hg']
    exact ⟨verdict_append more, verdict_append more⟩

/-- A filter that has refused a row with too few fields goes on to decide longer ones, whatever
stands behind the fields it tests. -/
theorem acceptance_of_third_field :
    let text := "$1 == \"a\" | !$2 == \"b\""
    let limits : Formula.Limits := ⟨1, 1⟩
    let f := new text limits
    let g := final (tryMatch #["a"] f)
    let f' := OnePassFilter.new text limits
    let g' := final (f'.tryMatch #["a"])
    f.IsFor text limits ∧ g.IsFor text limits ∧
    f'.toRowFilter.IsFor text limits ∧ g'.toRowFilter.IsFor text limits ∧
    #["c", "b"].size = #["a", "d"].size ∧
    SameAcceptance (answer (tryMatch #["c", "b"] f)) (answer (tryMatch #["a", "d"] g)) ∧
    (answer (tryMatch #["c", "b"] f) = .ok false ∧
      answer (tryMatch (#["c", "b"] ++ #["a"]) g) = .ok false) ∧
    answer (f'.tryMatch #["c", "b"]) = .ok false ∧
    answer (g'.tryMatch (#["c", "b"] ++ #["a"])) = .ok false := by
  intro text limits f g f' g'
  have hf : f.IsFor text limits := ⟨rfl, rfl⟩
  have hg : g.IsFor text limits := (decides text limits).keeps hf #["a"]
  have hf' : f'.toRowFilter.IsFor text limits := ⟨rfl, rfl⟩
  have hg' : g'.toRowFilter.IsFor text limits :=
    (OnePassFilter.decides text limits).keeps hf' #["a"]
  have hbuilt : answer (tryMatch #["c", "b"] f) = .ok false := by decide +kernel
  have hpass : answer (f'.tryMatch #["c", "b"]) = .ok false := by decide +kernel
  obtain ⟨hsame, hlonger⟩ := acceptance_of_other_fields hf hg hf' hg'
  have hsize : #["c", "b"].size = #["a", "d"].size := rfl
  have hmore := hlonger #["c", "b"] #["a"] false
  exact ⟨hf, hg, hf', hg', hsize, (hsame _ _ hsize).1, ⟨hbuilt, hmore.1 hbuilt⟩, hpass,
    hmore.2 hpass⟩

end RowFilter

end Reckon
