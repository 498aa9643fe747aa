import Reckon.Proofs.Engine.Assignment
import Reckon.Proofs.Expr.Position
import Reckon.Proofs.Formula.Position
import Reckon.Proofs.Program.Forecast

/-!
# Where errors point

Whatever is compiled, assigned or matched, each error that has a position points at what it
describes, and the source, byte by byte as it may be scanned, is only ever cut between two of its
characters (`Engine.isAccurate_and_walks`).
-/

namespace Reckon

open Outcome Reader

/-! ## Assignments -/

namespace Assignment

variable {text : List Char} {c : Cursor} {s : Settings} {t : SymbolTable}

/-- The reading of the variable that is assigned to, as a reader. -/
def target : Reader Expr String := do
  let position ← tokenPosition
  match ← scan Cursor.name with
  | none => throw (.expectedIdentifier position)
  | some name =>
    if Builtin.isReserved name then throw (.reservedName name position)
    let sign ← tokenPosition
    match (← get).cursor.rest with
    | '=' :: '=' :: _ => throw (.expectedAssignment sign)
    | '=' :: _ =>
      let _ ← scan Cursor.bump
      return name
    | _ => throw (.expectedAssignment sign)

/-- What stands behind an assignment: a semicolon, or nothing any more. -/
def separator : Reader Expr Bool := do
  if ← eat ';' then return true
  let position ← tokenPosition
  unless ← atEnd do throw (.trailingInput position)
  return false

/-- The variable that is assigned to is read by a reader. -/
lemma targetAt_eq_target (c : Cursor) :
    targetAt c = match target ⟨c, []⟩ with
      | .ok name s => .ok (name, s.cursor)
      | .error e _ => .error e := by
  have hsame : c.skipBlanks.name = c.name := by
    unfold Cursor.name
    rw [Cursor.skipBlanks_skipBlanks]
  unfold target targetAt
  simp only [bind_apply, tokenPosition, scan, hsame]
  rcases c.name with ⟨_ | name, behind⟩
  · rfl
  · dsimp only
    by_cases hreserved : Builtin.isReserved name = true
    · simp only [if_pos hreserved]
      rfl
    · simp only [if_neg hreserved]
      simp only [bind_apply, get_apply, scan]
      generalize behind.skipBlanks = sign
      obtain ⟨rest, offset⟩ := sign
      -- what follows the name decides: no equals sign, only one, or two
      rcases rest with _ | ⟨first, rest⟩
      · rfl
      · by_cases hfirst : first = '='
        · subst hfirst
          rcases rest with _ | ⟨second, rest⟩
          · rfl
          · by_cases hsecond : second = '='
            · subst hsecond
              rfl
            · simp [hsecond]
              rfl
        · simp [hfirst]
          rfl

/-- The reading of the variable that is assigned to stays in the text. -/
lemma runs_target {s : Progress Expr} (hs : s.IsIn text (Expr.PointsInto text)) :
    Runs text (Expr.PointsInto text) target s fun _ _ => True := by
  refine (Runs.tokenPosition hs).bind fun position s₁ hs₁ h₁ =>
    (Runs.scan hs₁ .name).bind fun name s₂ hs₂ h₂ => ?_
  obtain ⟨rfl, rfl⟩ := h₁
  cases name with
  | none => exact Runs.throw hs₂ (Error.pointsInto_of_standsIn hs₁.standsIn rfl trivial)
  | some name =>
    have hname := Cursor.isPrefix_of_name h₂.1.symm
    rw [Cursor.skipBlanks_skipBlanks] at hname
    dsimp only
    split
    · exact Runs.throw_bind hs₂ (Error.pointsInto_of_standsIn hs₁.standsIn rfl hname)
    · refine (Runs.tokenPosition hs₂).bind fun sign s₃ hs₃ h₃ =>
        (Runs.get hs₃).bind fun s₄ s₅ hs₅ h₅ => ?_
      obtain ⟨rfl, rfl⟩ := h₃
      have hsign : (Error.expectedAssignment s₂.cursor.skipBlanks.offset).PointsInto text :=
        Error.pointsInto_of_standsIn hs₃.standsIn rfl trivial
      split
      · exact Runs.throw hs₅ hsign
      · exact (Runs.scan hs₅ .character).bind fun _ s₆ hs₆ _ => Runs.pure hs₆ trivial
      · exact Runs.throw hs₅ hsign

/-- What is wrong with the variable that is assigned to is reported where it stands. -/
lemma pointsInto_of_targetAt {e : Error} (hc : c.StandsIn text) (h : targetAt c = .error e) :
    e.PointsInto text := by
  have htarget := runs_target (s := ⟨c, []⟩) ⟨hc, nofun⟩
  rw [targetAt_eq_target] at h
  split at h
  · cases h
  · rename_i herror
    cases h
    exact (htarget.error herror).2

/-- Behind the variable that is assigned to the cursor stands in the text. -/
lemma standsIn_of_targetAt {behind : Cursor} (hc : c.StandsIn text)
    (h : targetAt c = .ok (name, behind)) : behind.StandsIn text := by
  have htarget := runs_target (s := ⟨c, []⟩) ⟨hc, nofun⟩
  rw [targetAt_eq_target] at h
  split at h
  · rename_i hok
    cases h
    exact (htarget.ok hok).1.standsIn
  · cases h

/-- What stands behind an assignment is in the text. -/
lemma runs_separator {s : Progress Expr} (hs : s.IsIn text (Expr.PointsInto text)) :
    Runs text (Expr.PointsInto text) separator s fun _ _ => True := by
  refine (Runs.eat hs ';').bind fun isThere s₁ hs₁ _ => ?_
  cases isThere with
  | true => exact Runs.pure hs₁ trivial
  | false =>
    refine (Runs.tokenPosition hs₁).bind fun position s₂ hs₂ h₂ =>
      (Runs.atEnd hs₂).bind fun isEnd s₃ hs₃ h₃ => ?_
    obtain ⟨rfl, rfl⟩ := h₂
    cases isEnd with
    | true => exact Runs.pure hs₃ trivial
    | false =>
      refine Runs.throw_bind hs₃ (Error.pointsInto_trailingInput hs₁.standsIn ?_)
      rw [Cursor.atEnd, Cursor.skipBlanks_skipBlanks] at h₃
      exact h₃.1.symm

/-! ### What assignments yield -/

/-- Installing a variable reports no position. -/
lemma yields_install (name : String) :
    Yields (Error.PointsInto text) (fun _ => True) (install name) where
  ok _ := trivial
  error hrun := by
    unfold install at hrun
    split at hrun
    · cases hrun
    · rename_i hinstall
      cases hrun
      rw [SymbolTable.eq_of_install_eq_error hinstall]
      exact Error.pointsInto_of_position?_eq_none rfl

/-- A program that is running has no source to point at. -/
lemma position?_eq_none_of_run {values : ℕ → Float} {capacity : ℕ} {code : List Instruction}
    {e : Error} (h : Instruction.run values capacity code = .error e) : e.position? = none := by
  have hforecast := Instruction.map_run_eq_forecast values capacity code
  rw [h] at hforecast
  have hforecast : Except.error e = Instruction.forecast capacity code := hforecast
  unfold Instruction.forecast at hforecast
  split_ifs at hforecast
  all_goals
    cases hforecast
    rfl

/-- The value that is assigned is read from the text, and errors in it are reported where they
are. -/
lemma yields_valueAt (s : Settings) (hc : c.StandsIn text) :
    Yields (Error.PointsInto text) (fun r : _ × Cursor => r.2.StandsIn text) (valueAt s c) where
  ok hrun := by
    unfold valueAt at hrun
    split at hrun
    · cases hrun
    · rename_i hcompile
      split at hrun
      · cases hrun
      · cases hrun
        exact (Expr.yields_compileAt _ hc).ok hcompile
  error hrun := by
    unfold valueAt at hrun
    split at hrun
    · rename_i hcompile
      cases hrun
      exact (Expr.yields_compileAt _ hc).error hcompile
    · split at hrun
      · rename_i hfails
        cases hrun
        exact Error.pointsInto_of_position?_eq_none (position?_eq_none_of_run hfails)
      · cases hrun

/-- Behind an assignment that was done the cursor still stands in the source. -/
lemma yields_statementAt (s : Settings) (hc : c.StandsIn text) :
    Yields (Error.PointsInto text) (fun r : _ × Cursor => r.2.StandsIn text) (statementAt s c) := by
  unfold statementAt
  split
  · rename_i htarget
    exact .throw (pointsInto_of_targetAt hc htarget)
  · rename_i htarget
    exact .bind (yields_install _) fun _ _ =>
      .bind (yields_valueAt s (standsIn_of_targetAt hc htarget)) fun _ hrest =>
        .bind (.modify _) fun _ _ => .pure hrest

/-- What follows an assignment is read by a reader, too. -/
lemma statementsAt_succ_eq_separator (s : Settings) (turns : ℕ) (c : Cursor) (t : SymbolTable) :
    statementsAt s (turns + 1) c t =
      if c.atEnd then .ok [] t
      else match statementAt s c t with
        | .error e t' => .error e t'
        | .ok (done, rest) t' => match separator ⟨rest, []⟩ with
          | .error e _ => .error e t'
          | .ok false _ => .ok [done] t'
          | .ok true p => match statementsAt s turns p.cursor t' with
            | .error e t'' => .error e t''
            | .ok more t'' => .ok (done :: more) t'' := by
  rw [statementsAt_succ_apply]
  split
  · rfl
  · cases statementAt s c t with
    | error e t' => rfl
    | ok r t' =>
      obtain ⟨done, rest⟩ := r
      dsimp only
      unfold separator
      by_cases hthere : rest.peek = some ';'
      · have heat : rest.eat ';' = (true, rest.skipBlanks.skip 1) := if_pos hthere
        simp only [bind_apply, Reader.eat, scan, heat, if_true, pure_apply]
        cases statementsAt s turns (rest.skipBlanks.skip 1) t' with
        | error e t'' => rfl
        | ok more t'' => rfl
      · have heat : rest.eat ';' = (false, rest.skipBlanks) := if_neg hthere
        simp only [bind_apply, Reader.eat, scan, heat, Bool.false_eq_true, if_false]
        simp only [tokenPosition, Reader.atEnd, scan, Cursor.skipBlanks_skipBlanks]
        split
        · rfl
        · rfl

/-- Errors in assignments are reported where they are. -/
lemma yields_statementsAt (s : Settings) (turns : ℕ) (hc : c.StandsIn text) :
    Yields (Error.PointsInto text) (fun _ => True) (statementsAt s turns c) where
  ok _ := trivial
  error {t t' e} hrun := by
    induction turns generalizing c t with
    | zero => exact absurd hrun pure_ne_error
    | succ turns ih =>
      rw [statementsAt_succ_eq_separator] at hrun
      split at hrun
      · cases hrun
      · have hstatement := yields_statementAt s hc
        split at hrun
        · rename_i herror
          cases hrun
          exact hstatement.error herror
        · rename_i done rest t₁ hok
          have hseparator := runs_separator (s := ⟨rest, []⟩) ⟨hstatement.ok hok, nofun⟩
          split at hrun
          · rename_i herror
            cases hrun
            exact (hseparator.error herror).2
          · cases hrun
          · rename_i p hmore
            split at hrun
            · rename_i hrest
              cases hrun
              exact ih (hseparator.ok hmore).1.standsIn hrest
            · cases hrun

/-! ### Where assignments look -/

/-- Whether each access that assignments make, as they are done one after the other, begins and ends
in the text. -/
def Walks (text : List Char) (s : Settings) : ℕ → Cursor → SymbolTable → Prop
  | 0, _, _ => True
  | turns + 1, c, t =>
    Reader.Walks text Reader.atEnd (⟨c, []⟩ : Progress Expr) ∧ (c.atEnd = false →
      Reader.Walks text target ⟨c, []⟩ ∧
      (∀ name behind, targetAt c = .ok (name, behind) →
        Reader.Walks text (Expr.read s.nestingLimit) ⟨behind, []⟩) ∧
      ∀ done rest t', statementAt s c t = .ok (done, rest) t' →
        Reader.Walks text separator ⟨rest, []⟩ ∧
        ∀ p, separator ⟨rest, []⟩ = .ok true p → Walks text s turns p.cursor t')

/-- Assignments look only into the text. -/
theorem walks_statementsAt (s : Settings) (turns : ℕ) (hc : c.StandsIn text) (t : SymbolTable) :
    Walks text s turns c t := by
  induction turns generalizing c t with
  | zero => trivial
  | succ turns ih =>
    have hstart : (⟨c, []⟩ : Progress Expr).IsIn text (Expr.PointsInto text) := ⟨hc, nofun⟩
    refine ⟨(Runs.atEnd hstart).walks, fun _ => ⟨(runs_target hstart).walks, ?_, ?_⟩⟩
    · intro name behind htarget
      exact (Expr.keeps_read text _ ⟨behind, []⟩ ⟨standsIn_of_targetAt hc htarget, nofun⟩).walks
    · intro done rest t' hok
      have hseparator :=
        runs_separator (s := ⟨rest, []⟩) ⟨(yields_statementAt s hc).ok hok, nofun⟩
      exact ⟨hseparator.walks, fun p hmore => ih (hseparator.ok hmore).1.standsIn t'⟩

end Assignment

/-! ## Compilations and filters -/

/-- Whether each access that a compilation makes begins and ends in its source. -/
def Expr.Walks (o : CompileOptions) (source : String) (w : Workplace) : Prop :=
  Reader.Walks source.toList (read o.nestingLimit) ⟨Cursor.ofString source, []⟩ ∧
    ∀ c w', compileAt o (Cursor.ofString source) w = .ok c w' →
      Reader.Walks source.toList Reader.atEnd (⟨c, []⟩ : Progress Expr)

/-- Compilations look only into the text. -/
lemma Expr.walks_compile (o : CompileOptions) (source : String) (w : Workplace) :
    Expr.Walks o source w := by
  have hstart := Cursor.standsIn_ofString source
  refine ⟨(keeps_read _ o.nestingLimit ⟨_, []⟩ ⟨hstart, nofun⟩).walks, fun c w' hok => ?_⟩
  have hc : (⟨c, []⟩ : Progress Expr).IsIn source.toList (Expr.PointsInto source.toList) :=
    ⟨(yields_compileAt o hstart).ok hok, nofun⟩
  exact (Runs.atEnd hc).walks

/-- Whether each access that a filter makes for a row begins and ends in its text. -/
def Formula.Walks (limits : Limits) (fieldCount : ℕ) (source : String) : Prop :=
  let start : Progress Formula := ⟨Cursor.ofString source, []⟩
  Reader.Walks source.toList Reader.atEnd start ∧ (start.cursor.atEnd = false →
    Reader.Walks source.toList (reader limits fieldCount) start ∧
      ∀ s, reader limits fieldCount start = .ok () s → Reader.Walks source.toList Reader.atEnd s)

/-- Filters look only into their text. -/
lemma Formula.walks_ofString (limits : Limits) (fieldCount : ℕ) (source : String) :
    Formula.Walks limits fieldCount source := by
  have hstart :
      (⟨Cursor.ofString source, []⟩ : Progress Formula).IsIn source.toList fun _ => True :=
    ⟨Cursor.standsIn_ofString source, nofun⟩
  have hreader := keeps_reader source.toList limits fieldCount _ hstart
  exact ⟨(Runs.atEnd hstart).walks, fun _ => ⟨hreader.walks, fun s hok =>
    (Runs.atEnd (hreader.ok hok).1).walks⟩⟩

/-! ## Engines -/

namespace Error

/-- Whether an error, if it points anywhere, points at what it describes: between two characters of
the source, or at its end, with what the error speaks of behind. -/
def IsAccurate (source : String) (err : Error) : Prop :=
  ∀ position, err.position? = some position →
    position ≤ source.utf8ByteSize ∧ String.Pos.Raw.IsValid source ⟨position⟩ ∧
      ∃ before rest, source = before ++ rest ∧ position = before.utf8ByteSize ∧
        err.Describes rest.toList

lemma PointsInto.isAccurate {source : String} {err : Error} (h : err.PointsInto source.toList) :
    err.IsAccurate source := by
  intro position hposition
  obtain ⟨rest, hstands, hdescribes⟩ := h position hposition
  obtain ⟨before, rest', hsource, hoffset, hrest⟩ := hstands.exists_append
  refine ⟨?_, Cursor.isValid_iff_exists_standsIn.2 ⟨rest, hstands⟩, before, rest', hsource, hoffset,
    hrest ▸ hdescribes⟩
  rw [hsource, String.utf8ByteSize_append]
  exact hoffset.trans_le (Nat.le_add_right _ _)

end Error

namespace Engine

/-- Errors of compilations are reported where they are. -/
lemma pointsInto_of_compile {source : String} {e : Engine} {err : Error}
    (h : answer (compile source e) = .error err) : err.PointsInto source.toList := by
  unfold compile at h
  split at h
  · cases h
  · rename_i hcompile
    cases h
    exact (Expr.yields_compile _ source).error hcompile

/-- Errors of assignments are reported where they are. -/
lemma pointsInto_of_assign {source : String} {e : Engine} {err : Error}
    (h : answer (assign source e) = .error err) : err.PointsInto source.toList := by
  unfold assign at h
  split at h
  · cases h
  · rename_i hassign
    cases h
    exact (Assignment.yields_statementsAt _ _ (Cursor.standsIn_ofString source)).error hassign

/-- Errors of filters are reported where they are. -/
lemma pointsInto_of_tryMatch {filter : RowFilter} {row : Array String} {err : Error}
    (h : answer (filter.tryMatch row) = .error err) : err.PointsInto filter.expression.toList := by
  unfold RowFilter.tryMatch at h
  split at h
  · rename_i hformula
    cases h
    exact Formula.pointsInto_of_ofString hformula
  · cases h
  · cases h

/-- Whatever is compiled, assigned or matched, each error that has a position points at what it
describes, and each access to the source, made byte by byte, cuts it between two of its characters
only and has a result. -/
theorem isAccurate_and_walks (source : String) (e : Engine) (filter : RowFilter)
    (row : Array String) :
    (∀ err, answer (compile source e) = .error err → err.IsAccurate source) ∧
    (∀ err, answer (assign source e) = .error err → err.IsAccurate source) ∧
    (∀ err, answer (filter.tryMatch row) = .error err → err.IsAccurate filter.expression) ∧
    Expr.Walks e.settings.compileOptions source ⟨e.symbols, e.program⟩ ∧
    Assignment.Walks source.toList e.settings (source.toList.length + 1) (Cursor.ofString source)
      e.symbols ∧
    Formula.Walks filter.limits row.size filter.expression :=
  ⟨fun _ h => (pointsInto_of_compile h).isAccurate, fun _ h => (pointsInto_of_assign h).isAccurate,
    fun _ h => (pointsInto_of_tryMatch h).isAccurate, Expr.walks_compile _ _ _,
    Assignment.walks_statementsAt _ _ (Cursor.standsIn_ofString source) _,
    Formula.walks_ofString _ _ _⟩

/-- A letter of two bytes is found where an operand should be and behind one, and a filter goes on
with one behind a literal that holds another. -/
theorem isAccurate_of_accents :
    let e := Engine.new { autoInstall := true }
    let filter := RowFilter.new "$1==\"ü\" é" RowFilter.defaultLimits
    answer (compile "(é" e) = .error (.unexpectedCharacter 'é' 1) ∧
      (Error.unexpectedCharacter 'é' 1).IsAccurate "(é" ∧
      answer (assign "a=b é" e) = .error (.trailingInput 4) ∧
      (Error.trailingInput 4).IsAccurate "a=b é" ∧
      answer (filter.tryMatch #["u"]) = .error (.trailingInput 9) ∧
      (Error.trailingInput 9).IsAccurate "$1==\"ü\" é" := by
  intro e filter
  have hcompile : answer (compile "(é" e) = .error (.unexpectedCharacter 'é' 1) := by decide +kernel
  have hassign : answer (assign "a=b é" e) = .error (.trailingInput 4) := by
    have hfails : (answer (assign "a=b é" e)).map (fun _ => ()) = .error (.trailingInput 4) := by
      decide +kernel
    cases hanswer : answer (assign "a=b é" e) with
    | ok done =>
      rw [hanswer] at hfails
      contradiction
    | error err =>
      rw [hanswer] at hfails
      exact congrArg Except.error (Except.error.inj hfails)
  have hmatch : answer (filter.tryMatch #["u"]) = .error (.trailingInput 9) := by decide +kernel
  exact ⟨hcompile, (isAccurate_and_walks "(é" e filter #["u"]).1 _ hcompile,
    hassign, (isAccurate_and_walks "a=b é" e filter #["u"]).2.1 _ hassign,
    hmatch, (isAccurate_and_walks "(é" e filter #["u"]).2.2.1 _ hmatch⟩

end Engine

end Reckon
