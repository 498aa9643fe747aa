import Reckon.Engine.Basic
import Reckon.Proofs.Engine.Assignment
import Reckon.Proofs.Expr.CutReading

/-!
# Lists of assignments

A source of several assignments does what its assignments do one call at a time, up to the first
that fails (`Engine.assign_sequence`).  The reason is that a statement ends before a semicolon: it
is done alike whether the text goes on there or not (`Assignment.alike_statementAt`).  So each
statement of a list can be cut out of it (`Assignment.alike_cons`).
-/

namespace Reckon

open Outcome

namespace Assignment

variable {s : Settings} {c d : Cursor} {tail : List Char} {turns turns' : ℕ}

/-! ## Single statements -/

/-- A target is a name that is not reserved, before one equals sign and no second one. -/
lemma targetAt_eq (c : Cursor) : targetAt c =
    match c.token? with
    | some (.name name) =>
      if Builtin.isReserved name then .error (.reservedName name c.skipBlanks.offset)
      else if ['='] <+: (c.past (.name name)).skipBlanks.rest ∧
          ¬['=', '='] <+: (c.past (.name name)).skipBlanks.rest then
        .ok (name, (c.past (.name name)).skipBlanks.skip 1)
      else .error (.expectedAssignment (c.past (.name name)).skipBlanks.offset)
    | _ => .error (.expectedIdentifier c.skipBlanks.offset) := by
  unfold targetAt
  rw [Cursor.name_eq]
  rcases c.token? with _ | ⟨n⟩ | ⟨name⟩ | ⟨spelling⟩
  · rfl
  · rfl
  · dsimp only
    split
    · rfl
    · split
      · rename_i more hsign
        rw [hsign, if_neg fun h => h.2 ⟨more, rfl⟩]
        rfl
      · rename_i more hnot hsign
        rw [hsign, if_pos]
        · rfl
        · refine ⟨⟨more, rfl⟩, ?_⟩
          rintro ⟨tail, htail⟩
          exact hnot tail (List.cons.inj htail).2.symm
      · rename_i hnot
        rw [if_neg]
        · rfl
        · rintro ⟨⟨more, hmore⟩, -⟩
          exact hnot more hmore.symm
  · rfl

/-- Targets are found alike before a cut. -/
lemma targetAt_cases (htail : IsCutOff tail) (h : Cursor.Cut tail c d) :
    (∃ name c' d', targetAt c = .ok (name, c') ∧ targetAt d = .ok (name, d') ∧
      Cursor.Cut tail c' d') ∨
    ∃ e e', targetAt c = .error e ∧ targetAt d = .error e' := by
  rw [targetAt_eq, targetAt_eq, h.token?_eq htail]
  split
  · rename_i name htoken
    have hpast := h.past htail htoken
    have hsign : ∀ word : List Char, ';' ∉ word →
        (word <+: (d.past (.name name)).skipBlanks.rest ↔
          word <+: (c.past (.name name)).skipBlanks.rest) := by
      intro word hword
      rw [hpast.rest_eq, htail.prefix_append_iff hword]
    have hone := hsign ['='] (by decide)
    have htwo := hsign ['=', '='] (by decide)
    split
    · exact .inr ⟨_, _, rfl, rfl⟩
    · split
      · rename_i hassigns
        rw [if_pos (by rwa [hone, htwo])]
        exact .inl ⟨_, _, _, rfl, rfl, hpast.skip htail hassigns.1.length_le⟩
      · rename_i hassigns
        rw [if_neg (by rwa [hone, htwo])]
        exact .inr ⟨_, _, rfl, rfl⟩
  · exact .inr ⟨_, _, rfl, rfl⟩

/-- A value is read and computed alike in a text that is cut off and in one that goes on. -/
lemma alike_valueAt (htail : IsCutOff tail) (s : Settings) (h : Cursor.Cut tail c d) :
    Alike Eq (fun v v' => v.1 = v'.1 ∧ Cursor.Cut tail v.2 v'.2) (valueAt s c) (valueAt s d) := by
  rintro t _ rfl
  have hcompile := Expr.alike_compileAt htail s.compileOptions h
    ⟨t, Program.empty s.programCapacity⟩ _ rfl
  unfold valueAt
  generalize Expr.compileAt s.compileOptions c _ = r at hcompile ⊢
  generalize Expr.compileAt s.compileOptions d _ = r' at hcompile ⊢
  rcases hcompile with ⟨hcut, rfl⟩ | rfl
  · dsimp only
    split
    · exact .error rfl
    · exact .ok ⟨rfl, hcut⟩ rfl
  · exact .error rfl

/-- A statement is done alike before a cut. -/
theorem alike_statementAt (htail : IsCutOff tail) (s : Settings) (h : Cursor.Cut tail c d) :
    Alike Eq (fun v v' => v.1 = v'.1 ∧ Cursor.Cut tail v.2 v'.2) (statementAt s c)
      (statementAt s d) := by
  unfold statementAt
  rcases targetAt_cases htail h with ⟨name, c', d', hc, hd, hcut⟩ | ⟨e, e', hc, hd⟩
  · rw [hc, hd]
    refine .bind_of_eq .refl fun index => .bind (alike_valueAt htail s hcut) ?_
    rintro ⟨x, rest⟩ ⟨x', rest'⟩ ⟨hx, hrest⟩
    obtain rfl : x = x' := hx
    exact .bind_of_eq .refl fun _ => .pure ⟨rfl, hrest⟩
  · rw [hc, hd]
    exact .throw e e'

/-! ## Lists of statements -/

/-- The first statement of a list can be cut off: it is done by itself, and then what follows the
semicolon. -/
lemma alike_cons (htail : IsCutOff tail) (s : Settings) (h : Cursor.Cut tail c d) (hend : ¬c.atEnd)
    {others : EStateM Error SymbolTable (List Assignment)}
    (hnone : tail = [] → others = pure [])
    (hmore : ∀ more d', tail = ';' :: more → d'.rest = more →
      Alike Eq Eq others (statementsAt s turns' d')) :
    Alike Eq Eq
      (do
        let done ← statementsAt s (turns + 1) c
        let more ← others
        return done ++ more)
      (statementsAt s (turns' + 1) d) := by
  rintro t _ rfl
  have hend' : ¬d.atEnd := h.not_atEnd hend
  have hstatement := alike_statementAt htail s h t t rfl
  rw [bind_apply, statementsAt_succ_apply, statementsAt_succ_apply, if_neg hend, if_neg hend']
  generalize statementAt s c t = r at hstatement ⊢
  generalize statementAt s d t = r' at hstatement ⊢
  cases hstatement with
  | error hstates => exact .error hstates
  | @ok v v' t₁ _ hanswers hstates =>
    obtain ⟨done, rest⟩ := v
    obtain ⟨done', rest'⟩ := v'
    obtain ⟨hdone, hrest⟩ := hanswers
    obtain rfl : done = done' := hdone
    obtain rfl := hstates
    dsimp only
    rw [hrest.eat_left, if_neg Bool.false_ne_true, Cursor.atEnd_skipBlanks]
    by_cases hbehind : rest.atEnd
    · -- Only blanks are left before the cut, so that the list goes on or ends with the tail.
      rw [if_pos hbehind]
      rcases tail with _ | ⟨ch, more⟩
      · obtain ⟨heat, hend⟩ := hrest.eat_nil hbehind
        rw [hnone rfl, heat, if_neg Bool.false_ne_true, Cursor.atEnd_skipBlanks, if_pos hend]
        exact .ok rfl rfl
      · obtain rfl : ch = ';' := htail ch rfl
        obtain ⟨heat, hmore'⟩ := hrest.eat_cons hbehind
        have hothers := hmore more _ rfl hmore' t₁ t₁ rfl
        rw [heat, if_pos rfl]
        dsimp only
        rw [bind_apply]
        generalize others t₁ = r at hothers ⊢
        generalize statementsAt s turns' (rest'.skipBlanks.skip 1) t₁ = r' at hothers ⊢
        rcases hothers with ⟨rfl, rfl⟩ | rfl
        · exact .ok rfl rfl
        · exact .error rfl
    · rw [if_neg hbehind, hrest.eat_right hbehind, if_neg Bool.false_ne_true,
        Cursor.atEnd_skipBlanks, if_neg (hrest.not_atEnd hbehind)]
      exact .error rfl

/-- At the end there are no statements. -/
lemma statementsAt_of_atEnd (s : Settings) (h : c.atEnd) (turns : ℕ) :
    statementsAt s turns c = pure [] := by
  rcases turns with _ | turns
  · rfl
  · rw [statementsAt, if_pos h]

/-- Does the assignments of several sources, one source after the other. -/
def runEach (s : Settings) (sources : List String) :
    EStateM Error SymbolTable (List Assignment) := do
  return (← sources.mapM (runAll s)).flatten

/-- Where there are no sources nothing is run. -/
lemma runEach_nil (s : Settings) : runEach s [] = pure [] := rfl

/-- The first source is run before the others. -/
lemma runEach_cons (s : Settings) (source : String) (sources : List String) :
    runEach s (source :: sources) = do
      let done ← runAll s source
      let more ← runEach s sources
      return done ++ more := by
  simp only [runEach, List.mapM_cons, bind_assoc, pure_bind, List.flatten_cons]

/-- A list of statements does what they do one by one. -/
theorem alike_statementsAt (s : Settings) {sources : List String} {ending : String}
    (hne : sources ≠ [])
    (hsources : ∀ source ∈ sources, ';' ∉ source.toList ∧ ¬IsBlanks source.toList)
    (hending : ending = "" ∨ ∃ blanks : String, IsBlanks blanks.toList ∧ ending = ";" ++ blanks)
    (hc : c.rest = (";".intercalate sources ++ ending).toList) (hturns : sources.length ≤ turns) :
    Alike Eq Eq (runEach s sources) (statementsAt s turns c) := by
  induction sources generalizing c turns with
  | nil => exact absurd rfl hne
  | cons source sources ih =>
    rw [List.length_cons] at hturns
    obtain ⟨turns, rfl⟩ : ∃ k, turns = k + 1 := ⟨turns - 1, by omega⟩
    obtain ⟨⟨hmem, hblank⟩, hsources⟩ := List.forall_mem_cons.1 hsources
    have hend : ¬(Cursor.ofString source).atEnd := fun h => hblank (Cursor.atEnd_iff.1 h)
    rw [runEach_cons]
    rcases sources with _ | ⟨next, sources⟩
    · rw [String.intercalate_singleton, String.toList_append] at hc
      rw [runEach_nil]
      rcases hending with rfl | ⟨blanks, hblanks, rfl⟩
      · exact alike_cons isCutOff_nil s (.of_rest isCutOff_nil hc hmem) hend (fun _ => rfl) nofun
      · rw [String.toList_append] at hc
        have htail : IsCutOff (';' :: blanks.toList) := isCutOff_cons _
        refine alike_cons htail s (.of_rest htail hc hmem) hend nofun ?_
        rintro _ d' ⟨⟩ hd
        rw [statementsAt_of_atEnd s (Cursor.atEnd_iff.2 (hd ▸ hblanks))]
        exact .refl
    · rw [String.intercalate_cons_cons, String.append_assoc, String.append_assoc,
        String.toList_append, String.toList_append] at hc
      have htail : IsCutOff (';' :: (";".intercalate (next :: sources) ++ ending).toList) :=
        isCutOff_cons _
      refine alike_cons htail s (.of_rest htail hc hmem) hend nofun ?_
      rintro _ d' ⟨⟩ hd
      exact ih (List.cons_ne_nil _ _) hsources hd (by omega)

/-- A list of sources, joined, is long enough for the semicolons between them. -/
lemma length_le_length_intercalate (sources : List String) :
    sources.length ≤ (";".intercalate sources).toList.length + 1 := by
  induction sources with
  | nil => exact Nat.zero_le _
  | cons source sources ih =>
    rcases sources with _ | ⟨next, sources⟩
    · exact Nat.le_add_left _ _
    · rw [String.intercalate_cons_cons, String.toList_append, String.toList_append,
        List.length_append, List.length_append, List.length_cons]
      have hseparator : ";".toList.length = 1 := rfl
      omega

/-- A source of several assignments does what they do one by one. -/
theorem alike_runAll (s : Settings) {sources : List String} {ending : String} (hne : sources ≠ [])
    (hsources : ∀ source ∈ sources, ';' ∉ source.toList ∧ ¬IsBlanks source.toList)
    (hending : ending = "" ∨ ∃ blanks : String, IsBlanks blanks.toList ∧ ending = ";" ++ blanks) :
    Alike Eq Eq (runEach s sources) (runAll s (";".intercalate sources ++ ending)) := by
  refine alike_statementsAt s hne hsources hending rfl ?_
  have hlength := length_le_length_intercalate sources
  rw [String.toList_append, List.length_append]
  omega

end Assignment

namespace Engine

variable {e : Engine}

/-- Assignments one call at a time work on the variables as they do on a table. -/
lemma mapM_assign_apply (sources : List String) (e : Engine) :
    sources.mapM assign e =
      match sources.mapM (Assignment.runAll e.settings) e.symbols with
      | .ok results t => .ok results { e with symbols := t, isOk := e.isOk || !sources.isEmpty }
      | .error err t => .error err { e with symbols := t, isOk := false } := by
  induction sources generalizing e with
  | nil =>
    show EStateM.Result.ok [] e = .ok [] { e with isOk := e.isOk || false }
    rw [Bool.or_false]
  | cons source sources ih =>
    rw [List.mapM_cons, List.mapM_cons, bind_apply, bind_apply, assign]
    cases Assignment.runAll e.settings source e.symbols with
    | error err t => rfl
    | ok done t =>
      dsimp only
      rw [bind_apply, bind_apply, ih]
      dsimp only
      cases sources.mapM (Assignment.runAll e.settings) t with
      | error err u => rfl
      | ok results u => simp [pure_apply]

/-- The outcome of an execution depends on the program and on the values that it loads. -/
lemma answer_execute (e : Engine) : answer (execute e) =
    if e.isCompiled then e.program.run e.symbols.value e.settings.stackCapacity
    else .error .noProgram := by
  unfold execute
  split
  · split
    · rename_i hrun
      exact hrun.symm
    · rename_i hrun
      exact hrun.symm
  · rfl

/-- Assignments change nothing of an engine but its variables, and whether it is fine. -/
lemma final_assign (source : String) (e : Engine) :
    final (assign source e) =
      { e with
        symbols := (final (assign source e)).symbols
        isOk := (final (assign source e)).isOk } := by
  unfold assign
  split
  · rfl
  · rfl

/-- Assignments in one source do what they do one call at a time, up to the first that fails.  A
statement that fails leaves all variables that were there alone, and those that it adds are zero.
And whatever becomes of a source of assignments, the program stays, and an execution sees nothing of
it but the values of the variables that the program loads. -/
theorem assign_sequence (e : Engine) :
    (∀ (sources : List String) (ending : String), sources ≠ [] →
      (∀ source ∈ sources, ';' ∉ source.toList ∧ ¬IsBlanks source.toList) →
      (ending = "" ∨ ∃ blanks : String, IsBlanks blanks.toList ∧ ending = ";" ++ blanks) →
      match sources.mapM assign e with
      | .ok results e' => assign (";".intercalate sources ++ ending) e = .ok results.flatten e'
      | .error _ e' => ∃ err, assign (";".intercalate sources ++ ending) e = .error err e') ∧
    (∀ (c : Cursor) (t t' : SymbolTable) (err : Error),
      Assignment.statementAt e.settings c t = .error err t' →
        t.size ≤ t'.size ∧
        (∀ index < t.size, t'.name? index = t.name? index ∧ t'.value index = t.value index) ∧
        ∀ index, t.size ≤ index → t'.value index = 0) ∧
    ∀ source : String,
      let e' := final (assign source e)
      e'.program = e.program ∧ e'.isCompiled = e.isCompiled ∧ e'.settings = e.settings ∧
      ∀ u : SymbolTable,
        (∀ index ∈ e.program.code.toList.filterMap Instruction.loaded?,
          u.value index = e'.symbols.value index) →
        answer (execute e') = answer (execute { e with symbols := u }) := by
  refine ⟨?_, ?_, ?_⟩
  · intro sources ending hne hsources hending
    have halike := Assignment.alike_runAll e.settings hne hsources hending e.symbols e.symbols rfl
    rw [Assignment.runEach, bind_apply] at halike
    rw [mapM_assign_apply, assign]
    generalize Assignment.runAll e.settings (";".intercalate sources ++ ending) e.symbols = r
      at halike ⊢
    generalize sources.mapM (Assignment.runAll e.settings) e.symbols = each at halike ⊢
    rcases each with ⟨results, t⟩ | ⟨err, t⟩
    · have hjoined : Agrees Eq Eq (.ok results.flatten t) r := halike
      have hok : (e.isOk || !sources.isEmpty) = true := by
        rw [List.isEmpty_eq_false_iff.2 hne, Bool.not_false, Bool.or_true]
      rcases hjoined with ⟨rfl, rfl⟩
      dsimp only
      rw [hok]
    · have hjoined : Agrees Eq Eq (.error err t) r := halike
      rcases hjoined with _ | rfl
      exact ⟨_, rfl⟩
  · intro c t t' err hstatement
    have hgrows := Assignment.growsTo_of_statementAt_eq_error hstatement
    refine ⟨hgrows.size_le, ?_, ?_⟩
    · intro index hindex
      exact ⟨hgrows.name?_eq hindex, hgrows.value_eq index⟩
    · intro index hindex
      rw [hgrows.value_eq, SymbolTable.value_of_size_le hindex]
  · intro source e'
    have hframe : e' = { e with symbols := e'.symbols, isOk := e'.isOk } := final_assign source e
    rw [hframe]
    refine ⟨rfl, rfl, rfl, ?_⟩
    intro u hvalues
    rw [answer_execute, answer_execute]
    dsimp only
    rw [Program.run, Program.run, Instruction.run_congr hvalues]

/-- The second of these statements fails: the first one is done, the third one is not. -/
theorem assign_up_to_failure :
    (isSuccess (["a=a", "b=)", "c=a"].mapM assign (new {})) = false ∧
      ∃ err, assign "a=a;b=);c=a; " (new {}) =
        .error err (final (["a=a", "b=)", "c=a"].mapM assign (new {})))) ∧
    (∃ err t', Assignment.statementAt {} (Cursor.ofString "b=)") SymbolTable.empty = .error err t' ∧
      t'.value 0 = 0) ∧
    answer (execute (final (assign "a=a;b=)" (new {})))) = .error .noProgram := by
  have hsequence := assign_sequence (new {})
  refine ⟨?_, ?_, ?_⟩
  · have hfails : isSuccess (["a=a", "b=)", "c=a"].mapM assign (new {})) = false := by
      decide +kernel
    have hsource : ";".intercalate ["a=a", "b=)", "c=a"] ++ "; " = "a=a;b=);c=a; " := by decide
    have hjoined := hsequence.1 ["a=a", "b=)", "c=a"] "; " (by decide) (by decide)
      (.inr ⟨" ", by decide, rfl⟩)
    rw [hsource] at hjoined
    generalize ["a=a", "b=)", "c=a"].mapM assign (new {}) = r at hfails hjoined ⊢
    rcases r with ⟨results, e'⟩ | ⟨err, e'⟩
    · exact nomatch hfails
    · exact ⟨rfl, hjoined⟩
  · have hfails : isSuccess (Assignment.statementAt {} (Cursor.ofString "b=)")
        SymbolTable.empty) = false := by
      decide +kernel
    rcases hstatement : Assignment.statementAt {} (Cursor.ofString "b=)") SymbolTable.empty with
      ⟨v, t'⟩ | ⟨err, t'⟩
    · rw [hstatement] at hfails
      exact nomatch hfails
    · exact ⟨err, t', rfl, (hsequence.2.1 _ _ _ _ hstatement).2.2 0 (Nat.zero_le 0)⟩
  · exact (hsequence.2.2 "a=a;b=)").2.2.2 SymbolTable.empty nofun

end Engine

end Reckon
