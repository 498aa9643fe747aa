import Reckon.CommandLine.Session
import Reckon.Proofs.Engine.Sequence
import Reckon.Proofs.Expr.Compilation
import Reckon.Proofs.Source.Bytewise

/-!
# Statements are told apart

A line is taken for assignments if it holds an equals sign that is not part of a comparison, and for
an expression otherwise.  Only the two neighbours of the sign are looked at, and these as bytes
(`isAssignment_eq`), and still this never goes wrong: where a line is accepted as a list of
assignments, it is taken for one, and where it is accepted as an expression, it is taken for one
(`statementText_of_accepted`).

In an expression an equals sign stands only where it ends a comparison, since every symbol that
holds one is a comparison of two characters, and no numeral or name holds any.  So it is enough to
walk along the tokens (`Lexes.assignsAfter_eq_false`).  In an assignment the sign stands behind a
name, with at most blanks between them, and before something other than a second one
(`Assignment.targetAt_splits`).
-/

namespace Reckon

open Outcome

namespace Session

variable {text before rest : List Char} {previous : Option Char}

/-! ## Equals signs -/

/-- The characters that make a comparison of an equals sign behind them. -/
def comparisonHeads : List Char := ['=', '!', '<', '>']

/-- An equals sign assigns here, unless it is part of a comparison, or one further on does. -/
lemma assignsAfter_cons (previous : Option Char) (ch : Char) (rest : List Char) :
    assignsAfter previous (ch :: rest) = true ↔
      (ch = '=' ∧ rest.head? ≠ some '=' ∧ ∀ p ∈ previous, p ∉ comparisonHeads) ∨
        assignsAfter (some ch) rest = true := by
  have hprevious : (!previous.any fun p => p = '=' || p = '!' || p = '<' || p = '>') = true ↔
      ∀ p ∈ previous, p ∉ comparisonHeads := by
    cases previous with
    | none => simp
    | some p => simp [comparisonHeads, and_assoc]
  rw [assignsAfter, Bool.or_eq_true, Bool.and_eq_true, Bool.and_eq_true, hprevious, and_assoc,
    decide_eq_true_eq, decide_eq_true_eq]

/-- Characters other than the equals sign are passed over. -/
lemma assignsAfter_append (h : '=' ∉ before) (previous : Option Char) (rest : List Char) :
    assignsAfter previous (before ++ rest) = assignsAfter (before.getLast?.or previous) rest := by
  induction before generalizing previous with
  | nil => rfl
  | cons ch before ih =>
    rw [List.mem_cons, not_or] at h
    have hskip : assignsAfter previous (ch :: (before ++ rest)) =
        assignsAfter (some ch) (before ++ rest) := by
      rw [Bool.eq_iff_iff, assignsAfter_cons, or_iff_right fun hsign => h.1 hsign.1.symm]
    rw [List.cons_append, hskip, ih h.2, List.getLast?_cons]
    cases before.getLast? <;> rfl

/-- An equals sign is found if it is not part of a comparison. -/
lemma assignsAfter_append_cons (h : '=' ∉ before) (hrest : rest.head? ≠ some '=')
    (hprevious : ∀ p ∈ before.getLast?.or previous, p ∉ comparisonHeads) :
    assignsAfter previous (before ++ '=' :: rest) = true := by
  rw [assignsAfter_append h, assignsAfter_cons]
  exact .inl ⟨rfl, hrest, hprevious⟩

/-- Blanks hold no equals sign. -/
lemma not_mem_of_isBlanks (h : IsBlanks text) : '=' ∉ text :=
  fun hmem => absurd (h '=' hmem) (by decide)

end Session

/-! ## Expressions -/

open Session

/-- In a token an equals sign ends a comparison. -/
lemma Token.IsWritten.assignsAfter_append {t : Token} (h : t.IsWritten) (previous : Option Char)
    (rest : List Char) : ∃ p, assignsAfter previous (t.text ++ rest) = assignsAfter p rest := by
  by_cases hsign : '=' ∈ t.text
  · rcases isWordPart_or_symbol h with hparts | ⟨s, hs, rfl⟩
    · exact absurd (hparts '=' hsign) (by decide)
    · have hcomparisons : ∀ s ∈ symbols, '=' ∈ s → s ∈ comparisonHeads.map fun c => [c, '='] := by
        decide
      obtain ⟨c, hc, rfl⟩ := List.mem_map.1 (hcomparisons s hs hsign)
      refine ⟨some '=', ?_⟩
      rw [Bool.eq_iff_iff, Token.text, List.cons_append, List.cons_append, List.nil_append,
        assignsAfter_cons, assignsAfter_cons, or_iff_right fun hfirst => hfirst.2.1 rfl,
        or_iff_right fun hsecond => hsecond.2.2 c rfl hc]
  · exact ⟨_, Session.assignsAfter_append hsign previous rest⟩

/-- Blanks do not change whether an equals sign assigns. -/
lemma Cursor.assignsAfter_skipBlanks (c : Cursor) (previous : Option Char) :
    ∃ p, assignsAfter previous c.rest = assignsAfter p c.skipBlanks.rest := by
  obtain ⟨blanks, hblanks, hrest⟩ := c.exists_blanks
  rw [hrest]
  exact ⟨_, assignsAfter_append (not_mem_of_isBlanks hblanks) previous _⟩

/-- Where there are only tokens up to the end, every equals sign is part of a comparison. -/
lemma Lexes.assignsAfter_eq_false {c stop : Cursor} {ts : List Lexeme} (h : Lexes c ts stop)
    (hend : stop.atEnd) (previous : Option Char) : assignsAfter previous c.rest = false := by
  induction h using Lexes.stepRec generalizing previous with
  | @stop c stop hstop =>
    obtain ⟨p, hp⟩ := c.assignsAfter_skipBlanks previous
    rw [Cursor.atEnd, ← hstop, List.isEmpty_iff] at hend
    rw [hp, hend]
    rfl
  | @token c stop t ts hfirst _ ih =>
    obtain ⟨p, hp⟩ := c.assignsAfter_skipBlanks previous
    obtain ⟨q, hq⟩ := hfirst.1.1.assignsAfter_append p (c.past t).rest
    have hsplit : t.text ++ (c.past t).rest = c.skipBlanks.rest :=
      List.prefix_iff_eq_append.1 hfirst.1.2
    rw [hp, ← hsplit, hq]
    exact ih hend q

/-- What is compiled is taken for an expression. -/
lemma Expr.isAssignment_of_compile_eq_ok {o : CompileOptions} {line : String}
    {w w' : Workplace} {summary : Program.Summary} (h : compile o line w = .ok summary w') :
    isAssignment line = false := by
  obtain ⟨t, ⟨ts, stop, hlexes, hend, -⟩, -⟩ := emitted_of_compile_eq_ok h
  exact hlexes.assignsAfter_eq_false (Cursor.atEnd_iff.2 hend) none

/-! ## Assignments -/

namespace Assignment

variable {s : Settings} {c c' : Cursor} {name line : String} {t t' : SymbolTable}
  {done : List Assignment} {turns : ℕ}

/-- Before the equals sign of an assignment there are only blanks and the characters of a name, and
behind it there is no second one. -/
lemma targetAt_splits (h : targetAt c = .ok (name, c')) :
    ∃ before rest, c.rest = before ++ '=' :: rest ∧ rest.head? ≠ some '=' ∧
      ∀ ch ∈ before, isBlank ch ∨ isNamePart ch := by
  rw [targetAt_eq] at h
  split at h
  · rename_i found htoken
    split at h
    · cases h
    · split at h
      · rename_i hassigns
        obtain ⟨hbegins, -⟩ := Cursor.token?_eq_some_iff.1 htoken
        obtain ⟨blanks, hblanks, hrest⟩ := c.exists_blanks
        obtain ⟨gap, hgap, hbehind⟩ := (c.past (.name found)).exists_blanks
        obtain ⟨rest, hsign⟩ := hassigns.1
        have hname : found.toList ++ (c.past (.name found)).rest = c.skipBlanks.rest :=
          List.prefix_iff_eq_append.1 hbegins.2
        refine ⟨blanks ++ found.toList ++ gap, rest, ?_, ?_, ?_⟩
        · rw [hrest, ← hname, hbehind, ← hsign]
          simp only [List.append_assoc, List.cons_append, List.nil_append]
        · intro hsecond
          obtain ⟨more, rfl⟩ := List.head?_eq_some_iff.1 hsecond
          exact hassigns.2 ⟨more, hsign⟩
        · intro ch hmem
          rw [List.mem_append, List.mem_append] at hmem
          rcases hmem with (hmem | hmem) | hmem
          · exact .inl (hblanks.isBlank ch hmem)
          · exact .inr (Token.IsWritten.isNamePart_of_mem hbegins.1 hmem)
          · exact .inl (hgap.isBlank ch hmem)
      · cases h
  · cases h

/-- A statement that succeeds begins with the variable it assigns to. -/
lemma exists_targetAt_of_statementAt_eq_ok {value : Assignment × Cursor}
    (h : statementAt s c t = .ok value t') : ∃ name c', targetAt c = .ok (name, c') := by
  unfold statementAt at h
  cases htarget : targetAt c with
  | error e =>
    rw [htarget] at h
    exact nomatch h
  | ok target => exact ⟨target.1, target.2, rfl⟩

/-- Nothing is assigned only where there is nothing but blanks; otherwise there is a first
target. -/
lemma statementsAt_eq_ok_cases (h : statementsAt s (turns + 1) c t = .ok done t') :
    done = [] ∧ IsBlanks c.rest ∨ done ≠ [] ∧ ∃ name c', targetAt c = .ok (name, c') := by
  rw [statementsAt_succ_apply] at h
  split at h
  · rename_i hend
    cases h
    exact .inl ⟨rfl, Cursor.atEnd_iff.1 hend⟩
  · split at h
    · cases h
    · rename_i hstatement
      refine .inr ⟨?_, exists_targetAt_of_statementAt_eq_ok hstatement⟩
      split at h
      · split at h
        · cases h
          exact List.cons_ne_nil _ _
        · cases h
      · split at h
        · cases h
          exact List.cons_ne_nil _ _
        · cases h

/-- What is done as assignments is taken for assignments, unless nothing is done. -/
lemma isAssignment_of_runAll_eq_ok (h : runAll s line t = .ok done t') :
    done = [] ∧ IsBlanks line.toList ∨ done ≠ [] ∧ isAssignment line = true := by
  refine (statementsAt_eq_ok_cases h).imp_right (And.imp_right ?_)
  rintro ⟨name, c', htarget⟩
  obtain ⟨before, rest, hline, hrest, hbefore⟩ := targetAt_splits htarget
  have hheads : ∀ p ∈ before, p ∉ comparisonHeads := by
    intro p hp hhead
    have hnot : (comparisonHeads.all fun p => !(isBlank p || isNamePart p)) = true := by decide
    have hp' := List.all_eq_true.1 hnot p hhead
    rw [Bool.not_eq_true', Bool.or_eq_false_iff] at hp'
    rcases hbefore p hp with hblank | hname
    · exact Bool.false_ne_true (hp'.1.symm.trans hblank)
    · exact Bool.false_ne_true (hp'.2.symm.trans hname)
  have hsign : '=' ∉ before := fun hmem => hheads '=' hmem (by decide)
  have hline : line.toList = before ++ '=' :: rest := hline
  rw [isAssignment, hline]
  refine assignsAfter_append_cons hsign hrest fun p hp => hheads p ?_
  rw [Option.or_none] at hp
  exact List.mem_of_getLast? hp

end Assignment

namespace Session

/-! ## Bytes -/

/-- Whether a byte is the equals sign. -/
def isSignByte : UInt8 → Bool := byteIs (· = '=')

/-- Whether a byte makes a comparison of an equals sign behind it. -/
def isHeadByte : UInt8 → Bool := byteIs (· ∈ comparisonHeads)

/-- Whether bytes hold an equals sign that is not part of a comparison; `previous` is the byte
before them. -/
def bytesAssignAfter (previous : Option UInt8) : List UInt8 → Bool
  | [] => false
  | byte :: rest =>
    (isSignByte byte && !rest.head?.any isSignByte && !previous.any isHeadByte) ||
      bytesAssignAfter (some byte) rest

/-- Bytes that are not the equals sign are passed over. -/
lemma bytesAssignAfter_append {bytes : List UInt8} (h : ∀ byte ∈ bytes, isSignByte byte = false)
    (previous : Option UInt8) (rest : List UInt8) :
    bytesAssignAfter previous (bytes ++ rest) =
      bytesAssignAfter (bytes.getLast?.or previous) rest := by
  induction bytes generalizing previous with
  | nil => rfl
  | cons byte bytes ih =>
    obtain ⟨hbyte, hbytes⟩ := List.forall_mem_cons.1 h
    rw [List.cons_append, bytesAssignAfter, hbyte, Bool.false_and, Bool.false_and, Bool.false_or,
      ih hbytes, List.getLast?_cons]
    cases bytes.getLast? <;> rfl

/-- The bytes of a text tell the same as its characters. -/
lemma bytesAssignAfter_utf8 (text : List Char) {q : Option UInt8} {p : Option Char}
    (h : q.any isHeadByte = p.any (· ∈ comparisonHeads)) :
    bytesAssignAfter q (utf8 text) = assignsAfter p text := by
  induction text generalizing p q with
  | nil => rfl
  | cons c text ih =>
    rw [utf8_cons, Bool.eq_iff_iff, assignsAfter_cons]
    by_cases hc : c.toNat < 128
    · have hsecond : (utf8 text).head?.any isSignByte = text.head?.any (· = '=') :=
        any_head?_utf8 (.eq '=' (by decide)) text
      have hsign : isSignByte (UInt8.ofNat c.toNat) = decide (c = '=') := byteIs_ofNat _ hc
      have hhead : isHeadByte (UInt8.ofNat c.toNat) = decide (c ∈ comparisonHeads) :=
        byteIs_ofNat _ hc
      rw [utf8EncodeChar_of_lt hc, List.singleton_append, bytesAssignAfter, hsecond, hsign, h,
        @ih (some (UInt8.ofNat c.toNat)) (some c) hhead]
      have hnext : (!text.head?.any (· = '=')) = true ↔ text.head? ≠ some '=' := by
        cases text.head? <;> simp
      have hprevious : (!p.any (· ∈ comparisonHeads)) = true ↔ ∀ x ∈ p, x ∉ comparisonHeads := by
        cases p <;> simp
      rw [Bool.or_eq_true, Bool.and_eq_true, Bool.and_eq_true, hnext, hprevious, decide_eq_true_eq,
        and_assoc]
    · have hbytes : ∀ byte ∈ String.utf8EncodeChar c, isSignByte byte = false :=
        fun byte hmem => byteIs_of_mem _ hc hmem
      have hsign : c ≠ '=' := by
        rintro rfl
        exact hc (by decide)
      have hhead : ((String.utf8EncodeChar c).getLast?.or q).any isHeadByte =
          (some c).any (· ∈ comparisonHeads) := by
        have hnone : (comparisonHeads.all fun d => decide (d.toNat < 128)) = true := by decide
        have hother : c ∉ comparisonHeads := fun hmem =>
          hc (of_decide_eq_true (List.all_eq_true.1 hnone c hmem))
        obtain ⟨byte, hbyte⟩ := Option.ne_none_iff_exists'.1
          (List.getLast?_eq_none_iff.not.2 String.utf8EncodeChar_ne_nil)
        rw [hbyte, Option.some_or, Option.any_some, Option.any_some, decide_eq_false hother]
        exact byteIs_of_mem _ hc (List.mem_of_getLast? hbyte)
      rw [bytesAssignAfter_append hbytes, ih hhead, or_iff_right fun hfirst => hsign hfirst.1]

/-- It is enough to look at the bytes of a line. -/
lemma isAssignment_eq (line : String) :
    isAssignment line = bytesAssignAfter none (utf8 line.toList) :=
  (bytesAssignAfter_utf8 line.toList rfl).symm

/-! ## Dispatch -/

variable {line : String} {e e' : Engine} {done : List Assignment} {summary : Program.Summary}

/-- A line that is assigned is blank, or looks like an assignment. -/
lemma cases_of_assign_eq_ok (h : Engine.assign line e = .ok done e') :
    done = [] ∧ IsBlanks line.toList ∨ done ≠ [] ∧ isAssignment line = true := by
  unfold Engine.assign at h
  cases hrun : Assignment.runAll e.settings line e.symbols with
  | error err t =>
    rw [hrun] at h
    exact nomatch h
  | ok found t =>
    rw [hrun] at h
    cases h
    exact Assignment.isAssignment_of_runAll_eq_ok hrun

/-- A line that compiles does not look like an assignment. -/
lemma isAssignment_of_compile_eq_ok (h : Engine.compile line e = .ok summary e') :
    isAssignment line = false := by
  unfold Engine.compile at h
  cases hrun : Expr.compile e.settings.compileOptions line ⟨e.symbols, e.program⟩ with
  | error err w =>
    rw [hrun] at h
    exact nomatch h
  | ok found w => exact Expr.isAssignment_of_compile_eq_ok hrun

/-- What is printed for a statement that is taken for assignments. -/
lemma statementText_of_isAssignment (h : isAssignment line = true)
    (hassign : Engine.assign line e = .ok done e') :
    statementText line e = .ok (String.join (done.map (assignmentText e'.symbols))) e' := by
  rw [statementText, if_pos h, bind_apply, hassign]
  rfl

/-- The text of the value of the program. -/
def valueText : EStateM Error Engine String := do
  return Binary64.text (← Engine.execute) ++ "\n"

/-- What is printed for a statement that is taken for an expression. -/
lemma statementText_of_not_isAssignment (h : isAssignment line = false)
    (hcompile : Engine.compile line e = .ok summary e') :
    statementText line e = valueText e' := by
  rw [statementText, h, if_neg Bool.false_ne_true, bind_apply, Engine.evaluate, bind_apply,
    hcompile, valueText, bind_apply]

/-- The two grammars of statements have no line in common, and each line that one of them accepts is
done by it, though only bytes are looked at to tell them apart.  A line that is accepted as
assignments is taken for assignments, unless it is blank and nothing is assigned; and a line that is
accepted as an expression is taken for an expression. -/
theorem statementText_of_accepted (line : String) :
    isAssignment line = bytesAssignAfter none (utf8 line.toList) ∧
    (∀ e done e', Engine.assign line e = .ok done e' →
      done = [] ∧ IsBlanks line.toList ∨
      done ≠ [] ∧ isAssignment line = true ∧
        statementText line e = .ok (String.join (done.map (assignmentText e'.symbols))) e') ∧
    (∀ e summary e', Engine.compile line e = .ok summary e' →
      isAssignment line = false ∧ statementText line e = valueText e') ∧
    ∀ e done e' e₁ summary e₁', Engine.assign line e = .ok done e' → done ≠ [] →
      Engine.compile line e₁ ≠ .ok summary e₁' := by
  refine ⟨isAssignment_eq line, ?_, ?_, ?_⟩
  · intro e done e' hassign
    rcases cases_of_assign_eq_ok hassign with hnothing | ⟨hdone, hsign⟩
    · exact .inl hnothing
    · exact .inr ⟨hdone, hsign, statementText_of_isAssignment hsign hassign⟩
  · intro e summary e' hcompile
    have hsign : isAssignment line = false := isAssignment_of_compile_eq_ok hcompile
    exact ⟨hsign, statementText_of_not_isAssignment hsign hcompile⟩
  · intro e done e' e₁ summary e₁' hassign hdone hcompile
    rcases cases_of_assign_eq_ok hassign with ⟨hnothing, -⟩ | ⟨-, hsign⟩
    · exact hdone hnothing
    · rw [isAssignment_of_compile_eq_ok hcompile] at hsign
      exact Bool.false_ne_true hsign

/-- A comparison is assigned in the one line, and computed in the other. -/
theorem statementText_of_comparisons :
    let e := Engine.new { autoInstall := true }
    (∃ done e', Engine.assign "x = y<=x" e = .ok done e' ∧ done ≠ [] ∧
      isAssignment "x = y<=x" = true ∧
      statementText "x = y<=x" e = .ok (String.join (done.map (assignmentText e'.symbols))) e') ∧
    (∃ summary e', Engine.compile "x == y<=x" e = .ok summary e' ∧
      isAssignment "x == y<=x" = false ∧ statementText "x == y<=x" e = valueText e') ∧
    ∀ summary e', Engine.compile "x = y<=x" e ≠ .ok summary e' := by
  intro e
  have hassign : isSuccess (Engine.assign "x = y<=x" e) = true := by decide +kernel
  have hcompile : isSuccess (Engine.compile "x == y<=x" e) = true := by decide +kernel
  obtain ⟨-, hassigned, -, hdisjoint⟩ := statementText_of_accepted "x = y<=x"
  obtain ⟨-, -, hcompiled, -⟩ := statementText_of_accepted "x == y<=x"
  cases hdone : Engine.assign "x = y<=x" e with
  | error err e' =>
    rw [hdone] at hassign
    exact nomatch hassign
  | ok done e' =>
    cases hsummary : Engine.compile "x == y<=x" e with
    | error err e₁ =>
      rw [hsummary] at hcompile
      exact nomatch hcompile
    | ok summary e₁ =>
      have hnonblank : ¬IsBlanks "x = y<=x".toList := by decide
      obtain ⟨hne, htext⟩ := (hassigned _ _ _ hdone).resolve_left fun h => hnonblank h.2
      refine ⟨⟨done, e', rfl, hne, htext⟩, ⟨summary, e₁, rfl, hcompiled _ _ _ hsummary⟩, ?_⟩
      exact fun summary e₂ => hdisjoint _ _ _ _ summary e₂ hdone hne

end Session

end Reckon
