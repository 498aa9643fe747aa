import Reckon.Engine.Basic
import Reckon.Proofs.Expr.Compilation
import Reckon.Proofs.Source.Walk

/-!
# Where errors in expressions point

The readers of expressions walk through the source, and their errors point into it
(`Expr.keeps_read`).  So do the errors of what is compiled afterwards: a variable that is read
carries its position along, and its name stands there (`Expr.PointsInto`).
-/

namespace Reckon

open Outcome

namespace Cursor

variable {c : Cursor} {text : List Char}

/-- A name stands where it is read. -/
lemma isPrefix_of_name {name : String} (h : c.name.1 = some name) :
    name.toList <+: c.skipBlanks.rest := by
  unfold Cursor.name at h
  dsimp only at h
  split at h
  · contradiction
  · rename_i first more hrest
    split at h
    · obtain rfl := Option.some.inj h
      rw [hrest, String.toList_ofList, List.cons_prefix_cons]
      exact ⟨rfl, List.takeWhile_prefix _⟩
    · contradiction

/-- Where there is no numeral, only blanks are passed. -/
lemma number_eq_of_ok_none (h : c.number.1 = .ok none) : c.number.2 = c.skipBlanks := by
  unfold Cursor.number at h ⊢
  dsimp only at h ⊢
  split at h
  · rfl
  · split at h
    · cases h
    · cases h

/-- A numeral without a value stands where the error says. -/
lemma StandsIn.pointsInto_of_number {e : Error} (hc : c.StandsIn text) (h : c.number.1 = .error e) :
    e.PointsInto text := by
  unfold Cursor.number at h
  dsimp only at h
  split at h
  · contradiction
  · rename_i numeral hnumeral
    split at h
    · contradiction
    · obtain rfl := Except.error.inj h
      refine Error.pointsInto_of_standsIn hc.skipBlanks rfl ?_
      rw [Error.Describes, String.toList_ofList]
      exact (Numeral.isWritten_of_at? hnumeral).2

end Cursor

namespace Expr

/-- Whether the name of each variable stands at its position. -/
def PointsInto (text : List Char) : Expr → Prop
  | number _ | constant _ => True
  | var name position => (Error.unknownIdentifier name position).PointsInto text
  | unary _ operand => operand.PointsInto text
  | binary _ left right => left.PointsInto text ∧ right.PointsInto text
  | choice test yes no => test.PointsInto text ∧ yes.PointsInto text ∧ no.PointsInto text

open Reader

variable {text : List Char} {e : Expr} {group inner operand branch : Reader Expr Unit}

/-! ## Readers -/

/-- What a built-in is built into points to where its arguments do. -/
lemma pointsInto_of_build? {m : Meaning} {found : List Expr} (h : m.build? found = some e)
    (hfound : ∀ e ∈ found, e.PointsInto text) : e.PointsInto text := by
  unfold Meaning.build? at h
  split at h
  · cases h
    trivial
  · cases h
    simpa [PointsInto] using hfound
  · cases h
    simpa [PointsInto] using hfound
  · cases h

/-- A choice points to where its three parts do. -/
lemma pointsInto_of_choice? {found : List Expr} (h : choice? found = some e)
    (hfound : ∀ e ∈ found, e.PointsInto text) : e.PointsInto text := by
  unfold choice? at h
  split at h
  · cases h
    simpa [PointsInto] using hfound
  · cases h

/-- Applying a built-in keeps all positions in the text. -/
lemma keeps_apply (name : String) (m : Meaning) (start : ℕ) :
    Keeps text (PointsInto text) (apply name m start) :=
  fun _ hs => Runs.reduceSince hs start (fun _ _ => pointsInto_of_build?) fun _ =>
    Error.pointsInto_of_position?_eq_none rfl

/-- The arguments of a call are in the text if a group is. -/
lemma keeps_arguments (hgroup : Keeps text (PointsInto text) group) {opening : ℕ}
    (hopening : (Error.unterminatedGroup opening).PointsInto text) (turns : ℕ) :
    Keeps text (PointsInto text) (arguments group opening turns) := by
  induction turns with
  | zero => exact fun s hs => Runs.pure hs trivial
  | succ turns ih =>
    intro s hs
    refine (hgroup s hs).bind fun _ s₁ hs₁ _ => (Runs.eat hs₁ ',').bind fun isThere s₂ hs₂ _ => ?_
    cases isThere with
    | true => exact ih s₂ hs₂
    | false => exact Keeps.closeGroup hopening s₂ hs₂

/-- A function points at its name if it lacks arguments, and at their parenthesis if that is not
closed. -/
lemma keeps_call (hgroup : Keeps text (PointsInto text) group) {function : Builtin} {position : ℕ}
    (hname : (Error.missingArguments function.name position).PointsInto text) :
    Keeps text (PointsInto text) (call group function position) := by
  intro s hs
  refine (Runs.tokenPosition hs).bind fun opening s₁ hs₁ h₁ =>
    (Runs.eat hs₁ '(').bind fun isThere s₂ hs₂ h₂ => ?_
  cases isThere with
  | false => exact Runs.throw_bind hs₂ hname
  | true =>
    have hopening : (Error.unterminatedGroup opening).PointsInto text := by
      obtain ⟨rfl, rfl⟩ := h₁
      have hpeek := h₂
      rw [if_pos rfl, Cursor.peek, Cursor.skipBlanks_skipBlanks] at hpeek
      exact Error.pointsInto_of_standsIn hs₁.standsIn rfl hpeek
    refine (Runs.mark hs₂).bind fun start s₃ hs₃ _ =>
      (Runs.eat hs₃ ')').bind fun isClosed s₄ hs₄ _ => ?_
    cases isClosed with
    | true => exact keeps_apply _ _ start s₄ hs₄
    | false =>
      exact (Runs.get hs₄).bind fun s₅ s₆ hs₆ _ =>
        (keeps_arguments hgroup hopening _ s₆ hs₆).bind fun _ s₇ hs₇ _ =>
          keeps_apply _ _ start s₇ hs₇

/-- A variable is read together with the position of its name. -/
lemma keeps_named (hgroup : Keeps text (PointsInto text) group) {name : String} {position : ℕ}
    {rest : List Char} (hstands : (⟨rest, position⟩ : Cursor).StandsIn text)
    (hname : name.toList <+: rest) :
    Keeps text (PointsInto text) (named group name position) := by
  intro s hs
  unfold named
  split
  · exact Runs.push hs (Error.pointsInto_of_standsIn hstands rfl hname)
  · exact Runs.push hs trivial
  · rename_i function _ hlookup
    rw [← Builtin.name_of_lookup hlookup] at hname
    exact keeps_call hgroup (Error.pointsInto_of_standsIn hstands rfl hname) s hs

/-- A primary points at its first token. -/
lemma keeps_primary (hgroup : Keeps text (PointsInto text) group) :
    Keeps text (PointsInto text) (primary group) := by
  intro s hs
  refine (Runs.tokenPosition hs).bind fun position s₁ hs₁ h₁ =>
    (Runs.scanExcept hs₁ .number fun e => hs₁.standsIn.pointsInto_of_number).bind
      fun number s₂ hs₂ h₂ => ?_
  obtain ⟨rfl, rfl⟩ := h₁
  cases number with
  | some x => exact Runs.push hs₂ trivial
  | none =>
    obtain ⟨hnone, rfl⟩ := h₂
    have hcursor := Cursor.number_eq_of_ok_none hnone
    rw [Cursor.skipBlanks_skipBlanks] at hcursor
    dsimp only at hcursor hs₂ ⊢
    rw [hcursor] at hs₂ ⊢
    refine (Runs.eat hs₂ '(').bind fun isThere s₃ hs₃ h₃ => ?_
    cases isThere with
    | true =>
      have hopening : (Error.unterminatedGroup s.cursor.skipBlanks.offset).PointsInto text := by
        rw [if_pos rfl, Cursor.peek, Cursor.skipBlanks_skipBlanks] at h₃
        exact Error.pointsInto_of_standsIn hs₂.standsIn rfl h₃
      exact (hgroup s₃ hs₃).bind fun _ s₄ hs₄ _ => Keeps.closeGroup hopening s₄ hs₄
    | false =>
      obtain rfl := h₃
      refine (Runs.scan hs₃ .name).bind fun name s₄ hs₄ h₄ => ?_
      cases name with
      | none => exact Runs.unexpected hs₄
      | some name =>
        have hname := Cursor.isPrefix_of_name h₄.1.symm
        rw [Cursor.skipBlanks_skipBlanks, Cursor.skipBlanks_skipBlanks] at hname
        exact keeps_named hgroup hs₂.standsIn hname s₄ hs₄

/-- Operands are in the text if those behind a sign and the groups are. -/
lemma keeps_operandWith (hinner : Keeps text (PointsInto text) inner)
    (hgroup : Keeps text (PointsInto text) group) :
    Keeps text (PointsInto text) (operandWith inner group) := by
  intro s hs
  refine (Runs.peek hs).bind fun next s₁ hs₁ _ => ?_
  split
  · exact keeps_primary hgroup s₁ hs₁
  · rename_i sign _
    refine (Runs.mark hs₁).bind fun start s₂ hs₂ _ =>
      (Runs.scan hs₂ .character).bind fun _ s₃ hs₃ _ =>
        (hinner s₃ hs₃).bind fun _ s₄ hs₄ _ => ?_
    cases sign with
    | none => exact Runs.pure hs₄ trivial
    | some f => exact keeps_apply _ _ start s₄ hs₄

/-- Expressions are in the text if their operands and branches are. -/
lemma keeps_expressionWith (hoperand : Keeps text (PointsInto text) operand)
    (hbranch : Keeps text (PointsInto text) branch) :
    Keeps text (PointsInto text) (expressionWith operand branch) := by
  intro s hs
  have hphrase : Keeps text (PointsInto text) (grammar operand).phrase :=
    Grammar.keeps_phrase (fun op start => keeps_apply _ _ start) hoperand
  refine (Runs.mark hs).bind fun start s₁ hs₁ _ => (hphrase s₁ hs₁).bind fun _ s₂ hs₂ _ =>
    (Runs.eat hs₂ '?').bind fun isThere s₃ hs₃ _ => ?_
  cases isThere with
  | false => exact Runs.pure hs₃ trivial
  | true =>
    exact (hbranch s₃ hs₃).bind fun _ s₄ hs₄ _ => (Keeps.expect ':' s₄ hs₄).bind fun _ s₅ hs₅ _ =>
      (hbranch s₅ hs₅).bind fun _ s₆ hs₆ _ => Runs.reduceSince hs₆ start
        (fun _ _ => pointsInto_of_choice?) fun _ => Error.pointsInto_of_position?_eq_none rfl

/-- By induction on how many phrases may still be opened, the readers of both kinds of phrases run
well. -/
theorem keeps_reader (text : List Char) (limit n : ℕ) :
    Keeps text (PointsInto text) (reader limit n .expression) ∧
      Keeps text (PointsInto text) (reader limit n .operand) := by
  have hdeep : Keeps text (PointsInto text) (throw (.nestingTooDeep limit) : Reader Expr Unit) :=
    fun s hs => Runs.throw hs (Error.pointsInto_of_position?_eq_none rfl)
  induction n with
  | zero => exact ⟨hdeep, keeps_operandWith hdeep hdeep⟩
  | succ n ih =>
    have hexpression : Keeps text (PointsInto text) (reader limit (n + 1) .expression) :=
      keeps_expressionWith ih.2 ih.1
    exact ⟨hexpression, keeps_operandWith ih.2 hexpression⟩

/-- The reading of expressions stays in the text. -/
theorem keeps_read (text : List Char) (limit : ℕ) : Keeps text (PointsInto text) (read limit) :=
  (keeps_reader text limit limit).1

end Expr

/-! ## Compilations -/

namespace Compilation

variable {α : Type} {o : CompileOptions} {text : List Char} {Q : α → Prop}

/-- Emitting an instruction reports no position. -/
lemma yields_emit (i : Instruction) :
    Yields (Error.PointsInto text) (fun _ => True) (Compilation.emit i) where
  ok _ := trivial
  error hrun := by
    unfold Compilation.emit at hrun
    split at hrun
    · cases hrun
    · rename_i hemit
      cases hrun
      rw [(Program.emit_eq_error_iff.1 hemit).2]
      exact Error.pointsInto_of_position?_eq_none rfl

/-- An unknown name stands where it was read. -/
lemma yields_resolve {name : String} {position : ℕ}
    (h : (Error.unknownIdentifier name position).PointsInto text) :
    Yields (Error.PointsInto text) (fun _ => True) (resolve o name position) where
  ok _ := trivial
  error hrun := by
    unfold resolve at hrun
    split at hrun
    · cases hrun
    · split at hrun
      · split at hrun
        · cases hrun
        · rename_i hinstall
          cases hrun
          rw [SymbolTable.eq_of_install_eq_error hinstall]
          exact Error.pointsInto_of_position?_eq_none rfl
      · cases hrun
        exact h

/-- Folding reports the positions that its body does. -/
lemma yields_folding {body : Compilation Unit}
    (h : Yields (Error.PointsInto text) (fun _ => True) body) :
    Yields (Error.PointsInto text) (fun _ => True) (folding o body) :=
  .bind .get fun _ _ => .bind h fun _ _ => .modify _

/-- Clearing after a failure reports the same position. -/
lemma yields_clearingOnError {x : Compilation α} (h : Yields (Error.PointsInto text) Q x) :
    Yields (Error.PointsInto text) Q (clearingOnError x) where
  ok hrun := by
    unfold clearingOnError at hrun
    split at hrun
    · rename_i hok
      cases hrun
      exact h.ok hok
    · cases hrun
  error hrun := by
    unfold clearingOnError at hrun
    split at hrun
    · cases hrun
    · rename_i herror
      cases hrun
      exact h.error herror

end Compilation

namespace Expr

open Compilation

variable {text : List Char}

/-- The errors of what is compiled point at its variables. -/
lemma yields_emit (o : CompileOptions) {e : Expr} (h : e.PointsInto text) :
    Yields (Error.PointsInto text) (fun _ => True) (e.emit o) := by
  induction e with
  | number x => exact Compilation.yields_emit _
  | var name position => exact .bind (yields_resolve h) fun _ _ => Compilation.yields_emit _
  | constant c => exact yields_folding (Compilation.yields_emit _)
  | unary f operand ih =>
    exact yields_folding (.bind (ih h) fun _ _ => Compilation.yields_emit _)
  | binary f left right ihleft ihright =>
    exact yields_folding (.bind (ihleft h.1) fun _ _ => .bind (ihright h.2) fun _ _ =>
      Compilation.yields_emit _)
  | choice test yes no ihtest ihyes ihno =>
    exact yields_folding (.bind (ihtest h.1) fun _ _ => .bind (ihyes h.2.1) fun _ _ =>
      .bind (ihno h.2.2) fun _ _ => Compilation.yields_emit _)

/-- Emitting expressions that point into the text reports positions in it. -/
lemma yields_emitAll (o : CompileOptions) {done : List Expr} (h : ∀ e ∈ done, e.PointsInto text) :
    Yields (Error.PointsInto text) (fun _ => True) (emitAll o done) := by
  have hforM : ∀ es : List Expr, (∀ e ∈ es, e.PointsInto text) →
      Yields (Error.PointsInto text) (fun _ => True) (es.forM fun e => e.emit o) := by
    intro es hes
    induction es with
    | nil => exact .pure trivial
    | cons e es ih =>
      obtain ⟨he, hes⟩ := List.forall_mem_cons.1 hes
      exact .bind (yields_emit o he) fun _ _ => ih hes
  exact hforM _ fun e he => h e (List.mem_reverse.1 he)

/-- The errors of the compilation of an expression at a cursor point into the source, and behind the
expression the cursor still stands in it. -/
theorem yields_compileAt (o : CompileOptions) {c : Cursor} (hc : c.StandsIn text) :
    Yields (Error.PointsInto text) (fun c' : Cursor => c'.StandsIn text) (compileAt o c) := by
  have hread := keeps_read text o.nestingLimit ⟨c, []⟩ ⟨hc, nofun⟩
  refine yields_clearingOnError (.bind (.modify _) fun _ _ => ?_)
  split
  · rename_i hok
    obtain ⟨⟨hstands, hdone⟩, -⟩ := hread.ok hok
    exact .bind (yields_emitAll o hdone) fun _ _ => .bind (.modify _) fun _ _ => .pure hstands
  · rename_i herror
    obtain ⟨⟨-, hdone⟩, he⟩ := hread.error herror
    exact .bind (yields_emitAll o hdone) fun _ _ => .throw he

/-- The errors of a compilation point into the source. -/
theorem yields_compile (o : CompileOptions) (source : String) :
    Yields (Error.PointsInto source.toList) (fun _ => True) (compile o source) := by
  refine yields_clearingOnError
    (.bind (yields_compileAt o (Cursor.standsIn_ofString source)) fun c hc => ?_)
  have hsummary : Yields (Error.PointsInto source.toList) (fun _ => True)
      (get >>= fun w : Workplace => pure w.program.summary : Compilation Program.Summary) :=
    .bind .get fun _ _ => .pure trivial
  cases hend : c.atEnd with
  | true => exact hsummary
  | false => exact .throw_bind (Error.pointsInto_trailingInput hc hend)

end Expr

end Reckon
