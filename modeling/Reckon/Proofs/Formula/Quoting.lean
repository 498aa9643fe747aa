import Reckon.Proofs.Formula.Acceptance
import Reckon.Proofs.Formula.Position
import Reckon.Proofs.Source.Numeral

/-!
# Quoted literals

A literal may hold any characters, double quotes included.  When its quotes are doubled and the
whole is put between quotes, the reader of literals gives back the literal, or says that it is too
long; it stops right behind the closing quote (`Formula.passes_operandReader`), unless another quote
follows, which would double the closing one.

So a filter that compares a field with a quoted literal tells whether they are equal, whatever the
literal holds (`RowFilter.tryMatch_of_quoted`).
-/

namespace Reckon

open Outcome

/-- A phrase fails if its first operand does. -/
lemma Grammar.phrase_eq_error {α Op : Type} {g : Grammar α Op} {s s' : Progress α} {e : Error}
    (h : g.operand s = .error e s') : g.phrase s = .error e s' := by
  have hclimb : ∀ turns levels, g.climb turns levels s = .error e s' := by
    intro turns levels
    induction levels with
    | nil => exact h
    | cons operators levels ih =>
      rw [Grammar.climb, bind_apply, Reader.mark]
      dsimp only
      rw [bind_apply, ih]
  exact hclimb _ _

namespace Cursor

variable {capacity opening used : ℕ} {text tail : List Char}

/-- A quoted literal that is too long is refused before its end is found. -/
lemma literalFrom_of_capacity_lt (hused : used ≤ capacity)
    (h : capacity < used + utf8Length text) :
    literalFrom capacity opening used (Literal.doubleQuotes text ++ tail) =
      .error (.literalTooLong capacity) := by
  induction text generalizing used with
  | nil =>
    rw [utf8Length] at h
    omega
  | cons c text ih =>
    rw [utf8Length] at h
    by_cases hc : c = '"'
    · subst hc
      have hsize : ('"').utf8Size = 1 := by decide
      rw [hsize] at h
      rw [Literal.doubleQuotes, if_pos rfl, List.cons_append, List.cons_append, literalFrom]
      by_cases hroom : used + 1 > capacity
      · rw [if_pos hroom]
      · rw [if_neg hroom, ih (by omega) (by omega)]
        rfl
    · rw [Literal.doubleQuotes, if_neg hc, List.cons_append, literalFrom]
      · by_cases hroom : used + c.utf8Size > capacity
        · rw [if_pos hroom]
        · rw [if_neg hroom, ih (by omega) (by omega)]
          rfl
      · exact fun _ hquote _ => hc hquote
      · exact hc

/-- A literal that is too long is not read. -/
lemma literal_of_capacity_lt {c : Cursor} (hrest : c.skipBlanks.rest = Literal.quote text ++ tail)
    (h : capacity < utf8Length text) :
    c.literal capacity = (.error (.literalTooLong capacity), c.skipBlanks) := by
  have hquote : Literal.quote text ++ tail = '"' :: (Literal.doubleQuotes text ++ '"' :: tail) := by
    rw [Literal.quote, List.cons_append, List.append_assoc, List.singleton_append]
  have hread : literalFrom capacity c.skipBlanks.offset 0
      (Literal.doubleQuotes text ++ '"' :: tail) = .error (.literalTooLong capacity) :=
    literalFrom_of_capacity_lt (Nat.zero_le _) (by omega)
  unfold Cursor.literal
  dsimp only
  rw [hrest, hquote]
  split
  · rename_i more heq
    obtain rfl := (List.cons.inj heq).2
    rw [hread]
  · rename_i hnot
    exact absurd rfl (hnot _)

end Cursor

namespace Formula

/-- Whether a reader that comes upon a text in a source leaves a formula and stands right behind the
text, if no quote follows. -/
def Passes (text : List Char) (f : Formula) (x : Reader Formula Unit) : Prop :=
  ∀ before tail done, tail.head? ≠ some '"' →
    x ⟨⟨text ++ tail, utf8Length before⟩, done⟩ =
      .ok () ⟨⟨tail, utf8Length (before ++ text)⟩, f :: done⟩

/-- Whether a reader that comes upon a text in a source fails with an error. -/
def Refuses (text : List Char) (e : Error) (x : Reader Formula Unit) : Prop :=
  ∀ before tail done, ∃ s, x ⟨⟨text ++ tail, utf8Length before⟩, done⟩ = .error e s

variable {literalCapacity fieldCount : ℕ} {text : List Char} {t : FieldTest}

/-- A dollar sign opens a test. -/
lemma operandReader_of_isWritten (hwritten : t.IsWritten text) (test : Reader Formula Unit)
    (limit allowance : ℕ) (tail : List Char) (offset : ℕ) (done : List Formula) :
    operandReader limit test allowance ⟨⟨text ++ tail, offset⟩, done⟩ =
      test ⟨⟨text ++ tail, offset⟩, done⟩ := by
  obtain ⟨digits, before, behind, -, -, -, -, -, rfl⟩ := hwritten
  rcases allowance with _ | n
  · exact operandWith_apply _ _ _ _ done
  · exact operandWith_apply _ _ _ _ done

/-- A test with a literal that is not too long is read up to its closing quote. -/
lemma passes_operandReader (hcount : fieldCount < Cursor.largestField) (hwritten : t.IsWritten text)
    (hadmitted : t.IsAdmitted literalCapacity fieldCount) (limit allowance : ℕ) :
    Passes text (.test t)
      (operandReader limit (fieldTest literalCapacity fieldCount) allowance) := by
  intro before tail done htail
  have hstart : (⟨text ++ tail, utf8Length before⟩ : Cursor).StandsIn (before ++ (text ++ tail)) :=
    ⟨before, rfl, rfl⟩
  have hfaces : (⟨text ++ tail, utf8Length before⟩ : Cursor).Faces (text ++ tail) :=
    .of_rest_eq rfl
  obtain ⟨c, hquote, heq⟩ := exists_fieldTest_eq literalCapacity hcount hwritten
    hadmitted.field_pos hadmitted.field_le hfaces done
  obtain ⟨hliteral, hrest⟩ := Cursor.literal_of_quote hquote hadmitted.literal_le htail
  rw [hliteral, String.ofList_toList] at heq
  have hstands := ((keeps_fieldTest _ literalCapacity fieldCount _ ⟨hstart, fun _ _ => trivial⟩).ok
    heq).1.standsIn
  have hend : (⟨tail, utf8Length (before ++ text)⟩ : Cursor).StandsIn (before ++ (text ++ tail)) :=
    ⟨before ++ text, (List.append_assoc _ _ _).symm, rfl⟩
  have hbehind := hstands.offset_add_utf8Length.trans hend.offset_add_utf8Length.symm
  rw [hrest] at hbehind
  have hcursor : c.skipBlanks.skip (Literal.quote t.literal.toList).length =
      ⟨tail, utf8Length (before ++ text)⟩ := Cursor.ext hrest (Nat.add_right_cancel hbehind)
  rw [operandReader_of_isWritten hwritten, heq, hcursor]

/-- A test with a literal that is too long is refused. -/
lemma refuses_operandReader (hcount : fieldCount < Cursor.largestField)
    (hwritten : t.IsWritten text) (hpos : 1 ≤ t.field) (hle : t.field ≤ fieldCount)
    (hlong : literalCapacity < utf8Length t.literal.toList) (limit allowance : ℕ) :
    Refuses text (.literalTooLong literalCapacity)
      (operandReader limit (fieldTest literalCapacity fieldCount) allowance) := by
  intro before tail done
  have hfaces : (⟨text ++ tail, utf8Length before⟩ : Cursor).Faces (text ++ tail) :=
    .of_rest_eq rfl
  obtain ⟨c, hquote, heq⟩ := exists_fieldTest_eq literalCapacity hcount hwritten hpos hle hfaces
    done
  rw [Cursor.literal_of_capacity_lt hquote hlong] at heq
  exact ⟨_, (operandReader_of_isWritten hwritten _ _ _ _ _ _).trans heq⟩

end Formula

namespace FieldTest

/-- A comparison of a field with a quoted literal, with single blanks around `==` or `!=`. -/
lemma isWritten_quoted (field : ℕ) (literal : String) (negated : Bool) :
    (⟨field, if negated then .notEqual else .equal, literal⟩ : FieldTest).IsWritten
      ('$' :: (Nat.toDigits 10 field ++ (if negated then " != " else " == ").toList ++
        Literal.quote literal.toList)) := by
  have hdigits : ∀ d ∈ Nat.toDigits 10 field, d.isDigit = true :=
    fun d hd => Nat.isDigit_of_mem_toDigits (by decide) (by decide) hd
  have hblank : IsBlanks [' '] := by decide
  have hnumber : field = numberOf 10 (Nat.toDigits 10 field) := by
    rw [← digitsValue_eq_numberOf 10 fun d hd => isHexSign_of_isDigit (hdigits d hd),
      digitsValue_toDigits]
  cases negated with
  | false =>
    exact ⟨_, [' '], [' '], Nat.toDigits_ne_nil, hdigits, hblank, hblank, hnumber,
      by simp [Comparison.word]⟩
  | true =>
    exact ⟨_, [' '], [' '], Nat.toDigits_ne_nil, hdigits, hblank, hblank, hnumber,
      by simp [Comparison.word]⟩

end FieldTest

namespace RowFilter

open Formula

variable {filter : RowFilter} {row : Array String} {t : FieldTest}

/-- A filter that is a single test answers for it. -/
lemma tryMatch_of_isWritten (hrow : row.size < Cursor.largestField)
    (hwritten : t.IsWritten filter.expression.toList)
    (hadmitted : t.IsAdmitted filter.limits.literalCapacity row.size) :
    ∃ filter', tryMatch row filter = .ok (t.truth row) filter' := by
  have htest : Derives .operand ([] ++ filter.expression.toList) (.test t) 0 := .test nofun hwritten
  have hphrase : Derives (.joined .or) filter.expression.toList (.test t) 0 :=
    .simple (c := .or) (.simple (c := .and) htest)
  have hsentence : Sentence filter.expression (.test t) 0 :=
    ⟨_, [], hphrase, nofun, (List.append_nil _).symm⟩
  exact (tryMatch_eq_ok_iff hrow _).2 (.inr ⟨_, 0, hsentence, Nat.zero_le _,
    List.forall_mem_singleton.2 hadmitted, rfl⟩)

/-- A filter that is a single test fails if its literal is too long. -/
lemma tryMatch_of_capacity_lt (hrow : row.size < Cursor.largestField)
    (hwritten : t.IsWritten filter.expression.toList) (hpos : 1 ≤ t.field)
    (hle : t.field ≤ row.size)
    (hlong : filter.limits.literalCapacity < utf8Length t.literal.toList) :
    ∃ filter', tryMatch row filter =
      .error (.literalTooLong filter.limits.literalCapacity) filter' := by
  obtain ⟨s, hoperand⟩ := refuses_operandReader hrow hwritten hpos hle hlong
    filter.limits.nestingLimit filter.limits.nestingLimit [] [] []
  rw [List.append_nil] at hoperand
  have hread : reader filter.limits row.size ⟨Cursor.ofString filter.expression, []⟩ =
      .error (.literalTooLong filter.limits.literalCapacity) s := Grammar.phrase_eq_error hoperand
  have hend : ¬(Cursor.ofString filter.expression).atEnd = true := by
    obtain ⟨digits, before, behind, -, -, -, -, -, htext⟩ := hwritten
    intro hblank
    have hdollar := Cursor.atEnd_iff.1 hblank '$' (by rw [Cursor.ofString, htext]; simp)
    exact absurd hdollar (by decide)
  unfold tryMatch ofString
  rw [if_neg hend, hread]
  exact ⟨_, rfl⟩

/-- A filter that compares a field of a row with a quoted literal tells whether they are equal, or
with `!=` whether they are not, unless the literal is too long, which is the error then.  Wherever
such a comparison stands in a longer filter, what follows is read from the character right behind
the closing quote on. -/
theorem tryMatch_of_quoted (filter : RowFilter) (row : Array String)
    (hrow : row.size < Cursor.largestField) (i : Fin row.size) (literal : String) (negated : Bool) :
    let t : FieldTest := ⟨i + 1, if negated then .notEqual else .equal, literal⟩
    let capacity := filter.limits.literalCapacity
    t.IsWritten ('$' :: (Nat.toDigits 10 (i + 1) ++ (if negated then " != " else " == ").toList ++
      Literal.quote literal.toList)) ∧
    ∀ text, t.IsWritten text →
      (utf8Length literal.toList ≤ capacity →
        (∃ filter', tryMatch row { filter with expression := String.ofList text } =
          .ok (decide (row[i] = literal) != negated) filter') ∧
        ∀ limit allowance, Passes text (.test t)
          (operandReader limit (fieldTest capacity row.size) allowance)) ∧
      (capacity < utf8Length literal.toList →
        (∃ filter', tryMatch row { filter with expression := String.ofList text } =
          .error (.literalTooLong capacity) filter') ∧
        ∀ limit allowance, Refuses text (.literalTooLong capacity)
          (operandReader limit (fieldTest capacity row.size) allowance)) := by
  intro t capacity
  refine ⟨FieldTest.isWritten_quoted _ _ _, fun text hwritten => ?_⟩
  have hfilter : t.IsWritten (String.ofList text).toList := by
    rw [String.toList_ofList]
    exact hwritten
  have htruth : t.truth row = (decide (row[i] = literal) != negated) := by
    have hfield : row[t.field - 1]?.getD "" = row[i] := by simp [t]
    cases negated with
    | false => simp [FieldTest.truth, t, ← hfield]
    | true => simp [FieldTest.truth, t, ← hfield]
  constructor
  · intro hroom
    have hadmitted : t.IsAdmitted capacity row.size := ⟨Nat.succ_pos _, i.isLt, hroom⟩
    refine ⟨?_, passes_operandReader hrow hwritten hadmitted⟩
    rw [← htruth]
    exact tryMatch_of_isWritten hrow hfilter hadmitted
  · intro hlong
    exact ⟨tryMatch_of_capacity_lt hrow hfilter (Nat.succ_pos _) i.isLt hlong,
      refuses_operandReader hrow hwritten (Nat.succ_pos _) i.isLt hlong⟩

/-- A field that ends in a quote is found, with a literal of two bytes, and with a capacity for one
byte this literal is too long. -/
theorem tryMatch_of_quoted_quote :
    let row := #["a\""]
    let filter := new "$1 == \"a\"\"\"" ⟨2, 0⟩
    row.size < Cursor.largestField ∧ (∃ filter', tryMatch row filter = .ok true filter') ∧
      ∃ filter', tryMatch row { filter with limits := ⟨1, 0⟩ } =
        .error (.literalTooLong 1) filter' := by
  intro row filter
  have hrow : row.size < Cursor.largestField := by decide
  have htext : String.ofList ('$' :: (Nat.toDigits 10 (0 + 1) ++ " == ".toList ++
      Literal.quote "a\"".toList)) = "$1 == \"a\"\"\"" := by decide
  obtain ⟨hwritten, hall⟩ := tryMatch_of_quoted filter row hrow ⟨0, by decide⟩ "a\"" false
  obtain ⟨-, hall'⟩ := tryMatch_of_quoted { filter with limits := ⟨1, 0⟩ } row hrow ⟨0, by decide⟩
    "a\"" false
  have hmatch := ((hall _ hwritten).1 (by decide)).1
  have htooLong := ((hall' _ hwritten).2 (by decide)).1
  simp only [Bool.false_eq_true, if_false, htext] at hmatch htooLong
  exact ⟨hrow, hmatch, htooLong⟩

end RowFilter

end Reckon
