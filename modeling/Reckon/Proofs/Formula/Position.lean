import Reckon.Filter.RowFilter
import Reckon.Proofs.Formula.Reading
import Reckon.Proofs.Source.Walk

/-!
# Where errors in filters point

The readers of filters walk through the text of the filter, literals included, and their errors
point into it (`Formula.keeps_reader`).
-/

namespace Reckon

open Reader

namespace Cursor

variable {c : Cursor} {text : List Char} {e : Error}

/-- A literal that is not closed points at its opening quote. -/
lemma error_of_literalFrom {capacity opening used : ℕ} {rest : List Char}
    (h : literalFrom capacity opening used rest = .error e) :
    e = .unterminatedString opening ∨ e = .literalTooLong capacity := by
  fun_induction literalFrom capacity opening used rest with
  | case1 => exact .inl (Except.error.inj h).symm
  | case2 | case5 => exact .inr (Except.error.inj h).symm
  | case3 used rest _ ih | case6 used c rest _ _ _ ih =>
    cases hrest : literalFrom capacity opening _ rest with
    | error e' =>
      rw [hrest] at h
      exact ih (hrest.trans h)
    | ok r =>
      rw [hrest] at h
      contradiction
  | case4 => contradiction

/-- What is wrong with a literal is reported where it is. -/
lemma StandsIn.pointsInto_of_literal {capacity : ℕ} (hc : c.StandsIn text)
    (h : (c.literal capacity).1 = .error e) : e.PointsInto text := by
  unfold Cursor.literal at h
  dsimp only at h
  split at h
  · rename_i rest hrest
    split at h
    · contradiction
    · rename_i e' hliteral
      obtain rfl := Except.error.inj h
      rcases error_of_literalFrom hliteral with rfl | rfl
      · refine Error.pointsInto_of_standsIn hc.skipBlanks rfl ?_
        rw [hrest]
        rfl
      · exact Error.pointsInto_of_position?_eq_none rfl
  · obtain rfl := Except.error.inj h
    exact Error.pointsInto_of_standsIn hc.skipBlanks rfl trivial

/-- A missing field number is reported at the dollar sign. -/
lemma error_of_fieldNumber {dollar : ℕ} (h : (c.fieldNumber dollar).1 = .error e) :
    e = .filter "expected field number after '$'" dollar := by
  unfold Cursor.fieldNumber at h
  dsimp only at h
  split at h
  · exact (Except.error.inj h).symm
  · contradiction

end Cursor

namespace Formula

variable {text : List Char} {test inner group operand : Reader Formula Unit}

/-- Nothing is asked of the formulas that are finished: they hold no positions. -/
lemma keeps_join (build : List Formula → Option Formula) (start : ℕ) :
    Keeps text (fun _ => True) (join build start) := by
  intro s hs
  refine (Runs.get hs).bind fun s₁ s₂ hs₂ h => ?_
  obtain ⟨rfl, rfl⟩ := h
  exact Runs.reduceSince hs₂ start (fun _ _ _ _ => trivial) fun _ =>
    Error.pointsInto_of_standsIn hs₂.standsIn rfl trivial

/-- A test points at its field, at its comparison or at its literal. -/
lemma keeps_fieldTest (text : List Char) (literalCapacity fieldCount : ℕ) :
    Keeps text (fun _ => True) (fieldTest literalCapacity fieldCount) := by
  intro s hs
  refine (Runs.tokenPosition hs).bind fun dollar s₁ hs₁ h₁ =>
    (Runs.eat hs₁ '$').bind fun isThere s₂ hs₂ h₂ => ?_
  obtain ⟨rfl, rfl⟩ := h₁
  have hdollar : (Error.filter "expected field number after '$'"
    s.cursor.skipBlanks.offset).PointsInto
      text := Error.pointsInto_of_standsIn hs₁.standsIn rfl trivial
  cases isThere with
  | false => exact Runs.unexpected_bind hs₂
  | true =>
    refine (Runs.scanExcept hs₂ (.fieldNumber _) fun e he => ?_).bind
      fun field s₃ hs₃ _ => ?_
    · rw [Cursor.error_of_fieldNumber he]
      exact hdollar
    · dsimp only
      split
      · exact Runs.throw_bind hs₃ (Error.pointsInto_of_position?_eq_none rfl)
      · refine (Runs.tokenPosition hs₃).bind fun position s₄ hs₄ h₄ =>
          (Runs.scan hs₄ (.operator _ comparisons)).bind fun comparison s₅ hs₅ _ => ?_
        cases comparison with
        | none =>
          obtain ⟨rfl, rfl⟩ := h₄
          exact Runs.throw hs₅ (Error.pointsInto_of_standsIn hs₄.standsIn rfl trivial)
        | some comparison =>
          exact (Runs.scanExcept hs₅ (.literal _) fun e =>
            hs₅.standsIn.pointsInto_of_literal).bind fun literal s₆ hs₆ _ => Runs.push hs₆ trivial

/-- Operands are in the text if their tests and their inner operands and groups are. -/
lemma keeps_operandWith (htest : Keeps text (fun _ => True) test)
    (hinner : Keeps text (fun _ => True) inner) (hgroup : Keeps text (fun _ => True) group) :
    Keeps text (fun _ => True) (operandWith test inner group) := by
  intro s hs
  refine (Runs.tokenPosition hs).bind fun opening s₁ hs₁ h₁ =>
    (Runs.eat hs₁ '!').bind fun isNegation s₂ hs₂ h₂ => ?_
  obtain ⟨rfl, rfl⟩ := h₁
  cases isNegation with
  | true =>
    exact (Runs.mark hs₂).bind fun start s₃ hs₃ _ => (hinner s₃ hs₃).bind fun _ s₄ hs₄ _ =>
      keeps_join negation? start s₄ hs₄
  | false =>
    obtain rfl := h₂
    refine (Runs.eat hs₂ '(').bind fun isGroup s₃ hs₃ h₃ => ?_
    cases isGroup with
    | false => exact htest s₃ hs₃
    | true =>
      have hopening : (Error.unterminatedGroup s.cursor.skipBlanks.offset).PointsInto text := by
        rw [if_pos rfl, Cursor.peek] at h₃
        simp only [Cursor.skipBlanks_skipBlanks] at h₃
        exact Error.pointsInto_of_standsIn hs₁.standsIn rfl h₃
      exact (hgroup s₃ hs₃).bind fun _ s₄ hs₄ _ => Keeps.closeGroup hopening s₄ hs₄

/-- A phrase is in the text if its operands are. -/
lemma keeps_phrase (hoperand : Keeps text (fun _ => True) operand) :
    Keeps text (fun _ => True) (grammar operand).phrase :=
  Grammar.keeps_phrase (fun connective => keeps_join connective.build?) hoperand

/-- Operands are in the text at every depth if their tests are. -/
lemma keeps_operandReader (limit : ℕ) (htest : Keeps text (fun _ => True) test) (n : ℕ) :
    Keeps text (fun _ => True) (operandReader limit test n) := by
  have hdeep : Keeps text (fun _ => True)
      (throw (.nestingTooDeep limit) : Reader Formula Unit) :=
    fun s hs => Runs.throw hs (Error.pointsInto_of_position?_eq_none rfl)
  induction n with
  | zero => exact keeps_operandWith htest hdeep hdeep
  | succ n ih => exact keeps_operandWith htest ih (keeps_phrase ih)

/-- The reading of formulas stays in the text. -/
theorem keeps_reader (text : List Char) (limits : Limits) (fieldCount : ℕ) :
    Keeps text (fun _ => True) (reader limits fieldCount) :=
  keeps_phrase (keeps_operandReader _ (keeps_fieldTest text _ _) _)

/-- The errors of a filter point into its text. -/
theorem pointsInto_of_ofString {limits : Limits} {fieldCount : ℕ} {source : String} {e : Error}
    (h : ofString limits fieldCount source = .error e) : e.PointsInto source.toList := by
  have hread := keeps_reader source.toList limits fieldCount ⟨Cursor.ofString source, []⟩
    ⟨Cursor.standsIn_ofString source, nofun⟩
  unfold ofString at h
  split at h
  · contradiction
  · split at h
    · rename_i herror
      obtain rfl := Except.error.inj h
      exact (hread.error herror).2
    · rename_i s hok
      split at h
      · contradiction
      · rename_i hend
        obtain rfl := Except.error.inj h
        exact Error.pointsInto_trailingInput (hread.ok hok).1.standsIn (Bool.eq_false_iff.2 hend)

end Formula

end Reckon
