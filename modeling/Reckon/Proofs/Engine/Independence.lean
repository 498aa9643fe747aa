import Reckon.Proofs.Engine.History
import Reckon.Proofs.Expr.Correspondence
import Reckon.Proofs.Program.Machine

/-!
# Evaluations do not depend on each other

Evaluations can leave something behind in an engine: a program, variables that were installed on the
way, all of them zero, what is on the stack of the machine, and whether the latest task succeeded
(`Engine.Evolves`).  None of this matters to the next evaluation.  Compiling the same source in an
engine and in one that has evolved from it gives programs that mirror each other, and equal names
read equal values in both engines (`Engine.Mirrors`).  So the next evaluation gives the same value
or the same error, and its program has the same listing (`Engine.evaluate_after_evaluations`).
-/

namespace Reckon.Engine

open Outcome

variable {e e' e'' : Engine}

/-! ## What evaluations leave behind -/

/-- Whether an engine can come from another by evaluations. -/
structure Evolves (e e' : Engine) : Prop where
  settings_eq : e'.settings = e.settings
  capacity_eq : e'.program.capacity = e.program.capacity
  growsTo : e.symbols.GrowsTo e'.symbols
  symbols_eq : e.settings.autoInstall = false → e'.symbols = e.symbols

namespace Evolves

/-- An engine comes from itself. -/
lemma refl (e : Engine) : e.Evolves e := ⟨rfl, rfl, .refl, fun _ => rfl⟩

/-- What comes from one engine by another comes from the first. -/
lemma trans (h : e.Evolves e') (h' : e'.Evolves e'') : e.Evolves e'' where
  settings_eq := h'.settings_eq.trans h.settings_eq
  capacity_eq := h'.capacity_eq.trans h.capacity_eq
  growsTo := h.growsTo.trans h'.growsTo
  symbols_eq hoff := by
    have hoff' : e'.settings.autoInstall = false := by
      rw [h.settings_eq]
      exact hoff
    exact (h'.symbols_eq hoff').trans (h.symbols_eq hoff)

/-- An engine evolves by a compilation. -/
lemma moves_compile (source : String) : Moves Evolves (Engine.compile source) := by
  intro e
  have hmoves := Expr.moves_compile e.settings.compileOptions source ⟨e.symbols, e.program⟩
  have hsymbols (hoff : e.settings.autoInstall = false) :=
    Expr.symbols_eq_of_autoInstall (o := e.settings.compileOptions) hoff source
      ⟨e.symbols, e.program⟩
  unfold Engine.compile
  generalize Expr.compile e.settings.compileOptions source ⟨e.symbols, e.program⟩ = r
    at hmoves hsymbols
  rcases r with ⟨summary, w⟩ | ⟨err, w⟩
  · exact ⟨rfl, hmoves.capacity_eq, hmoves.growsTo, hsymbols⟩
  · exact ⟨rfl, hmoves.capacity_eq, hmoves.growsTo, hsymbols⟩

/-- An engine evolves by an execution. -/
lemma moves_execute : Moves Evolves Engine.execute := by
  intro e
  unfold Engine.execute
  split
  · split
    · exact ⟨rfl, rfl, .refl, fun _ => rfl⟩
    · exact ⟨rfl, rfl, .refl, fun _ => rfl⟩
  · exact ⟨rfl, rfl, .refl, fun _ => rfl⟩

/-- An engine evolves by a compilation and an execution. -/
lemma moves_evaluate (source : String) : Moves Evolves (Engine.evaluate source) :=
  .bind (fun _ _ _ => .trans) (moves_compile source) fun _ => moves_execute

end Evolves

/-- Whether a request compiles, executes or filters, and neither assigns nor sets a variable. -/
def Request.IsEvaluation : Request → Prop
  | compile _ | execute | executeValue | evaluate _ | rowFilter _ => True
  | assign _ | install _ | set _ _ => False

/-- An engine evolves by an evaluation, be it granted or not. -/
lemma evolves_apply {r : Request} (hr : r.IsEvaluation) (e : Engine) : e.Evolves (r.apply e) := by
  cases r with
  | compile source => exact Evolves.moves_compile source e
  | execute => exact Evolves.moves_execute e
  | executeValue =>
    have hexecute := Evolves.moves_execute e
    rw [Request.apply, executeValue]
    generalize Engine.execute e = result at hexecute
    rcases result with ⟨x, e₁⟩ | ⟨err, e₁⟩
    · exact hexecute
    · exact hexecute
  | evaluate source => exact Evolves.moves_evaluate source e
  | rowFilter expression => exact .refl e
  | assign | install | set => exact hr.elim

/-- An engine after requests, one after another. -/
def after (e : Engine) (requests : List Request) : Engine :=
  requests.foldl (fun e r => r.apply e) e

/-- An engine evolves by evaluations, however many and whichever fail. -/
lemma evolves_after {requests : List Request} (hrequests : ∀ r ∈ requests, r.IsEvaluation)
    (e : Engine) : e.Evolves (e.after requests) := by
  induction requests generalizing e with
  | nil => exact .refl e
  | cons r requests ih =>
    obtain ⟨hfirst, hrest⟩ := List.forall_mem_cons.1 hrequests
    exact (evolves_apply hfirst e).trans (ih hrest (r.apply e))

/-! ## Engines that do the same -/

/-- Whether the programs of two engines mirror each other and load the same values, and the engines
do not differ otherwise. -/
structure Mirrors (e e' : Engine) : Prop where
  settings_eq : e.settings = e'.settings
  isCompiled_eq : e.isCompiled = e'.isCompiled
  isOk_eq : e.isOk = e'.isOk
  program : e.program.Mirrors e.symbols e'.symbols e'.program
  value_eq : ∀ index index', e.symbols.Shares e'.symbols index index' →
    e.symbols.value index = e'.symbols.value index'

namespace Mirrors

/-- Engines that do the same have the same listing. -/
lemma listing_eq (h : e.Mirrors e') : e.listing = e'.listing := h.program.listing_eq

/-- Engines that do the same compute the same value, or fail alike. -/
lemma inStep_execute (excused : Error → Prop) :
    InStep excused Mirrors Eq Engine.execute Engine.execute := by
  rintro ⟨settings, t, p, compiled, ok⟩ ⟨_, u, q, _, _⟩ ⟨rfl, rfl, rfl, hprogram, hvalues⟩
  have hrun : p.run t.value settings.stackCapacity = q.run u.value settings.stackCapacity :=
    hprogram.run_eq hvalues settings.stackCapacity
  unfold Engine.execute
  dsimp only
  rw [← hrun]
  split
  · generalize p.run t.value settings.stackCapacity = result
    rcases result with err | x
    · exact .error ⟨rfl, rfl, rfl, hprogram, hvalues⟩
    · exact .ok rfl ⟨rfl, rfl, rfl, hprogram, hvalues⟩
  · exact .error ⟨rfl, rfl, rfl, hprogram, hvalues⟩

end Mirrors

/-- An engine and one that has evolved from it compile a source to programs that do the same. -/
lemma Evolves.coincides_compile (h : e.Evolves e') (source : String) :
    Coincides Error.IsAllocation Mirrors Eq (Engine.compile source e)
      (Engine.compile source e') := by
  rcases e with ⟨_, t, p, compiled, ok⟩
  rcases e' with ⟨settings, u, q, compiled', ok'⟩
  obtain ⟨rfl, hcapacity, hgrows, hsymbols⟩ := h
  dsimp only at hcapacity hgrows hsymbols
  have hlookup (hoff : settings.compileOptions.autoInstall = false) (name : String) :
      t.lookup name = none ↔ u.lookup name = none := by
    rw [hsymbols hoff]
  have hcompile := Expr.coincides_compile (w := ⟨t, p⟩) (v := ⟨u, q⟩) settings.compileOptions
    source hcapacity.symm hlookup
  have hread (name : String) :
      (final (Expr.compile settings.compileOptions source ⟨t, p⟩)).symbols.read name =
        (final (Expr.compile settings.compileOptions source ⟨u, q⟩)).symbols.read name := by
    rw [Expr.read_compile, Expr.read_compile, hgrows.read_eq]
  unfold Engine.compile
  dsimp only
  generalize Expr.compile settings.compileOptions source ⟨t, p⟩ = r at hcompile hread ⊢
  generalize Expr.compile settings.compileOptions source ⟨u, q⟩ = r' at hcompile hread ⊢
  rcases hcompile with ⟨rfl, hmirrors⟩ | hmirrors | he | he
  · exact .ok rfl ⟨rfl, rfl, rfl, hmirrors.program, fun _ _ hshares => hshares.value_eq hread⟩
  · exact .error ⟨rfl, rfl, rfl, hmirrors.program, fun _ _ hshares => hshares.value_eq hread⟩
  · exact .left he
  · exact .right he

/-- The value of the program, computed on a machine with this on its stack. -/
def executeOn (stack : List Float) (e : Engine) : Except Error Float :=
  if e.isCompiled then
    answer (Machine.run e.symbols.value e.program.code.toList ⟨e.settings.stackCapacity, stack⟩)
  else .error .noProgram

/-- What is on the stack of the machine does not matter. -/
lemma executeOn_eq_answer (stack : List Float) (e : Engine) :
    executeOn stack e = answer (execute e) := by
  unfold executeOn execute Program.run
  split
  · rw [(Machine.answer_run e.symbols.value e.program.code.toList _).1]
    generalize Instruction.run _ _ _ = result
    rcases result with err | x
    · rfl
    · rfl
  · rfl

/-! ## Evaluations after evaluations -/

/-- Only a compilation allocates variables. -/
lemma answer_compile_ne_of_evaluate {source : String} {err : Error}
    (h : answer (evaluate source e) ≠ .error err) : answer (compile source e) ≠ .error err := by
  intro hcompile
  rw [evaluate, bind_apply] at h
  generalize compile source e = result at h hcompile
  rcases result with ⟨summary, e₁⟩ | ⟨err', e₁⟩
  · injection hcompile
  · exact h (congrArg Except.error (Except.error.inj hcompile))

/-- What an engine evaluated before does not matter: after any compilations, executions, evaluations
and filters, whether they succeeded or failed, a source compiles with the same figures or the same
error, and is evaluated to the same value or with the same error, on a machine with whatever stack;
the listing and the report of success are the same as without them.  This is so unless one of the
two engines has no room for a variable. -/
theorem evaluate_after_evaluations (e : Engine) (requests : List Request) (source : String)
    (hrequests : ∀ r ∈ requests, r.IsEvaluation)
    (hroom : ∀ name, answer (evaluate source e) ≠ .error (.symbolAllocation name))
    (hroom' : ∀ name, answer (evaluate source (e.after requests)) ≠
      .error (.symbolAllocation name)) :
    let e' := e.after requests
    answer (compile source e') = answer (compile source e) ∧
      (∀ stack, executeOn stack (final (compile source e')) =
        answer (execute (final (compile source e)))) ∧
      answer (evaluate source e') = answer (evaluate source e) ∧
      (final (evaluate source e')).listing = (final (evaluate source e)).listing ∧
      (final (evaluate source e')).isOk = (final (evaluate source e)).isOk := by
  intro e'
  have hcompile := (evolves_after hrequests e).coincides_compile source
  have hevaluate : Coincides Error.IsAllocation Mirrors Eq (evaluate source e)
      (evaluate source e') := hcompile.bind fun _ _ _ => Mirrors.inStep_execute _
  have hne : ∀ err, err.IsAllocation → answer (evaluate source e) ≠ .error err := by
    rintro err ⟨name, rfl⟩
    exact hroom name
  have hne' : ∀ err, err.IsAllocation → answer (evaluate source e') ≠ .error err := by
    rintro err ⟨name, rfl⟩
    exact hroom' name
  obtain ⟨hanswer, hmirrors⟩ := hevaluate.answer_eq hne hne'
  obtain ⟨hsummary, hprograms⟩ := hcompile.answer_eq
    (fun err he => answer_compile_ne_of_evaluate (hne err he))
    (fun err he => answer_compile_ne_of_evaluate (hne' err he))
  have hexecute := Mirrors.inStep_execute (fun _ => False) _ _ hprograms
  refine ⟨hsummary.symm, fun stack => ?_, hanswer.symm, hmirrors.listing_eq.symm,
    hmirrors.isOk_eq.symm⟩
  rw [executeOn_eq_answer]
  exact (hexecute.answer_eq nofun nofun).1.symm

/-- A compilation that failed, an evaluation and an execution have left two variables, so that a
third has another index than it has without them; and yet it is evaluated alike. -/
theorem evaluate_after_broken_compilation :
    let e := Engine.new { autoInstall := true }
    let e' := e.after [.compile "a+)", .evaluate "b", .executeValue]
    (final (evaluate "c+b" e)).lookup "c" = some 0 ∧
      (final (evaluate "c+b" e')).lookup "c" = some 2 ∧
      answer (evaluate "c+b" e') = answer (evaluate "c+b" e) ∧
      (final (evaluate "c+b" e')).listing = (final (evaluate "c+b" e)).listing := by
  intro e e'
  have hrequests : ∀ r ∈ [Request.compile "a+)", .evaluate "b", .executeValue], r.IsEvaluation := by
    simp [Request.IsEvaluation]
  have hroom : isSuccess (evaluate "c+b" e) = true := by decide +kernel
  have hroom' : isSuccess (evaluate "c+b" e') = true := by decide +kernel
  obtain ⟨-, -, hanswer, hlisting, -⟩ := evaluate_after_evaluations e _ "c+b" hrequests
    (fun _ => answer_ne_error hroom _) (fun _ => answer_ne_error hroom' _)
  exact ⟨by decide +kernel, by decide +kernel, hanswer, hlisting⟩

end Reckon.Engine
