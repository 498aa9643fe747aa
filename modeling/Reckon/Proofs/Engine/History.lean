import Reckon.Engine.Basic
import Reckon.Proofs.Engine.Assignment
import Reckon.Proofs.Expr.Folding

/-!
# What engines go through

An engine is asked for one thing after another (`Engine.Request`).  Beside the engine we note how
its latest compilation went, and its latest task (`Engine.Observed`).  Whatever is asked for, and
whether it succeeds or fails, the engine stays as these notes say (`Engine.Observed.IsSound`): its
program is complete code whose variables exist, or it is empty because the latest compilation failed
or there was none.  So an execution finds a program exactly after a compilation that succeeded, and
then nothing but the bound on the stack can stop it.
-/

namespace Reckon

open Outcome Instruction

/-- Whether a program can be executed when there are so many variables. -/
structure Program.IsExecutable (p : Program) (size : ℕ) : Prop where
  isComplete : IsComplete p.code.toList
  lt_of_mem_loads : ∀ index ∈ p.code.toList.filterMap loaded?, index < size
  isValid : p.IsValid

namespace Program.IsExecutable

variable {p : Program} {size size' : ℕ}

/-- A program that can be executed can be executed with more variables. -/
lemma mono (h : p.IsExecutable size) (hle : size ≤ size') :
    p.IsExecutable size' :=
  ⟨h.isComplete, fun index hindex => Nat.lt_of_lt_of_le (h.lt_of_mem_loads index hindex) hle,
    h.isValid⟩

/-- What is compiled can be executed. -/
lemma of_compile {o : CompileOptions} {source : String} {w w' : Workplace}
    {summary : Program.Summary} (h : Expr.compile o source w = .ok summary w') :
    w'.program.IsExecutable w'.symbols.size := by
  obtain ⟨t, e', indexOf, -, hfolds, hindex, hcode⟩ := Expr.exists_foldsTo_of_compile h
  refine ⟨?_, ?_, Expr.isValid_of_compile h⟩
  · rw [hcode]
    exact e'.isComplete_code indexOf
  · rw [hcode, Expr.filterMap_loaded_code, hfolds.names_eq]
    intro index hmem
    obtain ⟨name, hname, rfl⟩ := List.mem_map.1 hmem
    exact SymbolTable.lt_size_of_lookup (hindex name hname)

end Program.IsExecutable

namespace Engine

/-- What an engine can be asked for. -/
inductive Request
  | compile (source : String)
  | execute
  | executeValue
  | evaluate (source : String)
  | assign (source : String)
  | install (name : String)
  | set (name : String) (x : Float)
  | rowFilter (expression : String)

namespace Request

/-- The engine after a request, be it granted or not. -/
def apply : Request → Engine → Engine
  | compile source, e => final (Engine.compile source e)
  | execute, e => final (Engine.execute e)
  | executeValue, e => (Engine.executeValue e).2
  | evaluate source, e => final (Engine.evaluate source e)
  | assign source, e => final (Engine.assign source e)
  | install name, e => final (Engine.install name e)
  | set name x, e => final (Engine.set name x e)
  | rowFilter _, e => e

/-- Whether the compilation in a request succeeds, if there is one. -/
def compiles? : Request → Engine → Option Bool
  | compile source, e | evaluate source, e => some (isSuccess (Engine.compile source e))
  | _, _ => none

/-- Whether a request succeeds, if it compiles, executes or assigns. -/
def succeeds? : Request → Engine → Option Bool
  | compile source, e => some (isSuccess (Engine.compile source e))
  | execute, e | executeValue, e => some (isSuccess (Engine.execute e))
  | evaluate source, e => some (isSuccess (Engine.evaluate source e))
  | assign source, e => some (isSuccess (Engine.assign source e))
  | install _, _ | set _ _, _ | rowFilter _, _ => none

end Request

/-- An engine, and notes on what it was asked for. -/
structure Observed where
  engine : Engine
  /-- Whether there was a compilation and the latest one succeeded. -/
  compiled : Bool
  /-- Whether the latest compilation, execution or assignment succeeded. -/
  succeeded : Bool

namespace Observed

/-- A new engine, with nothing noted that went wrong. -/
def start (settings : Settings) : Observed := ⟨Engine.new settings, false, true⟩

/-- What is observed at a request. -/
def next (s : Observed) (r : Request) : Observed where
  engine := r.apply s.engine
  compiled := (r.compiles? s.engine).getD s.compiled
  succeeded := (r.succeeds? s.engine).getD s.succeeded

/-- What has been observed after a list of requests to a new engine. -/
def after (settings : Settings) (requests : List Request) : Observed :=
  requests.foldl next (start settings)

/-- Whether an engine is as the notes say. -/
structure IsSound (settings : Settings) (s : Observed) : Prop where
  settings_eq : s.engine.settings = settings
  capacity_eq : s.engine.program.capacity = settings.programCapacity
  isCompiled_eq : s.engine.isCompiled = s.compiled
  isOk_eq : s.engine.isOk = s.succeeded
  isExecutable : s.compiled = true → s.engine.program.IsExecutable s.engine.symbols.size
  code_eq_nil : s.compiled = false → s.engine.program.code.toList = []

/-! ## Single requests -/

variable {settings : Settings} {s : Observed} {t : SymbolTable}

namespace IsSound

/-- An engine is sound when it is made. -/
lemma start (settings : Settings) : (Observed.start settings).IsSound settings where
  settings_eq := rfl
  capacity_eq := rfl
  isCompiled_eq := rfl
  isOk_eq := rfl
  isExecutable := nofun
  code_eq_nil _ := rfl

/-- Values of variables do not matter, nor do more variables. -/
lemma withSymbols (h : s.IsSound settings) (hsize : s.engine.symbols.size ≤ t.size) (ok : Bool) :
    IsSound settings ⟨{ s.engine with symbols := t, isOk := ok }, s.compiled, ok⟩ where
  settings_eq := h.settings_eq
  capacity_eq := h.capacity_eq
  isCompiled_eq := h.isCompiled_eq
  isOk_eq := rfl
  isExecutable hcompiled := (h.isExecutable hcompiled).mono hsize
  code_eq_nil := h.code_eq_nil

/-- Compiling keeps an engine sound. -/
lemma compile (h : s.IsSound settings) (source : String) :
    (s.next (.compile source)).IsSound settings := by
  have hmoves := Expr.moves_compile s.engine.settings.compileOptions source
  have hnext : s.next (.compile source) =
      ⟨final (Engine.compile source s.engine), isSuccess (Engine.compile source s.engine),
        isSuccess (Engine.compile source s.engine)⟩ := rfl
  rw [hnext, Engine.compile]
  split
  · rename_i summary w hrun
    exact ⟨h.settings_eq, (hmoves.of_ok hrun).capacity_eq.trans h.capacity_eq, rfl, rfl,
      fun _ => .of_compile hrun, nofun⟩
  · rename_i err w hrun
    exact ⟨h.settings_eq, (hmoves.of_error hrun).capacity_eq.trans h.capacity_eq, rfl, rfl,
      nofun, fun _ => Expr.code_eq_nil_of_compile_eq_error hrun⟩

/-- Executing keeps an engine sound. -/
lemma execute (h : s.IsSound settings) : (s.next .execute).IsSound settings := by
  have hfinal : final (Engine.execute s.engine) =
      { s.engine with isOk := isSuccess (Engine.execute s.engine) } := by
    unfold Engine.execute
    split
    · split
      · rfl
      · rfl
    · rfl
  have hnext : s.next .execute =
      ⟨final (Engine.execute s.engine), s.compiled, isSuccess (Engine.execute s.engine)⟩ := rfl
  rw [hnext, hfinal]
  exact h.withSymbols (Nat.le_refl _) _

/-- Executing for a value keeps an engine sound. -/
lemma executeValue (h : s.IsSound settings) : (s.next .executeValue).IsSound settings := by
  have hnext : s.next .executeValue = s.next .execute := by
    have hengine : (Engine.executeValue s.engine).2 = final (Engine.execute s.engine) := by
      unfold Engine.executeValue
      cases Engine.execute s.engine with
      | ok x e' => rfl
      | error err e' => rfl
    exact congrArg (fun e => (⟨e, s.compiled, isSuccess (Engine.execute s.engine)⟩ : Observed))
      hengine
  rw [hnext]
  exact h.execute

/-- An evaluation is a compilation and, if that succeeds, an execution. -/
lemma evaluate (h : s.IsSound settings) (source : String) :
    (s.next (.evaluate source)).IsSound settings := by
  have hcompile := h.compile source
  have hnext : s.next (.evaluate source) =
      ⟨final (Engine.evaluate source s.engine), isSuccess (Engine.compile source s.engine),
        isSuccess (Engine.evaluate source s.engine)⟩ := rfl
  have hnext' : s.next (.compile source) =
      ⟨final (Engine.compile source s.engine), isSuccess (Engine.compile source s.engine),
        isSuccess (Engine.compile source s.engine)⟩ := rfl
  rw [hnext'] at hcompile
  rw [hnext, Engine.evaluate, bind_apply]
  cases hrun : Engine.compile source s.engine with
  | ok summary e =>
    rw [hrun] at hcompile
    exact hcompile.execute
  | error err e =>
    rw [hrun] at hcompile
    exact hcompile

/-- Assigning keeps an engine sound. -/
lemma assign (h : s.IsSound settings) (source : String) :
    (s.next (.assign source)).IsSound settings := by
  have hmoves := Assignment.moves_runAll s.engine.settings source
  have hnext : s.next (.assign source) =
      ⟨final (Engine.assign source s.engine), s.compiled,
        isSuccess (Engine.assign source s.engine)⟩ := rfl
  rw [hnext, Engine.assign]
  split
  · rename_i done symbols hrun
    exact h.withSymbols (hmoves.of_ok hrun) true
  · rename_i err symbols hrun
    exact h.withSymbols (hmoves.of_error hrun) false

/-- Installing a variable keeps an engine sound. -/
lemma install (h : s.IsSound settings) (name : String) :
    (s.next (.install name)).IsSound settings := by
  have hnext : s.next (.install name) =
      ⟨final (Engine.install name s.engine), s.compiled, s.succeeded⟩ := rfl
  rw [hnext, Engine.install]
  split
  · rename_i index symbols hrun
    have hsound := h.withSymbols (SymbolTable.growsTo_of_install hrun).size_le s.succeeded
    rw [← h.isOk_eq] at hsound ⊢
    exact hsound
  · exact h

/-- Setting a variable keeps an engine sound. -/
lemma set (h : s.IsSound settings) (name : String) (x : Float) :
    (s.next (.set name x)).IsSound settings := by
  have hinstall := h.install name
  have hnext : s.next (.set name x) =
      ⟨final (Engine.set name x s.engine), s.compiled, s.succeeded⟩ := rfl
  have hnext' : s.next (.install name) =
      ⟨final (Engine.install name s.engine), s.compiled, s.succeeded⟩ := rfl
  rw [hnext'] at hinstall
  rw [hnext, Engine.set, bind_apply]
  cases hrun : Engine.install name s.engine with
  | ok index e =>
    rw [hrun] at hinstall
    have hsound := hinstall.withSymbols
      (Nat.le_of_eq (SymbolTable.size_set e.symbols index x).symm) s.succeeded
    have hok : e.isOk = s.succeeded := hinstall.isOk_eq
    rw [← hok] at hsound ⊢
    exact hsound
  | error err e =>
    rw [hrun] at hinstall
    exact hinstall

/-- Whatever an engine is asked for, it stays as the notes say. -/
theorem next (h : s.IsSound settings) (r : Request) : (s.next r).IsSound settings := by
  cases r with
  | compile source => exact h.compile source
  | execute => exact h.execute
  | executeValue => exact h.executeValue
  | evaluate source => exact h.evaluate source
  | assign source => exact h.assign source
  | install name => exact h.install name
  | set name x => exact h.set name x
  | rowFilter expression => exact h

/-- However long an engine has been asked for one thing after another, it is as the notes say. -/
theorem after (settings : Settings) (requests : List Request) :
    (Observed.after settings requests).IsSound settings := by
  have hrun : ∀ s : Observed, s.IsSound settings →
      (requests.foldl Observed.next s).IsSound settings := by
    induction requests with
    | nil => exact fun s hs => hs
    | cons r requests ih => exact fun s hs => ih (s.next r) (hs.next r)
  exact hrun _ (start settings)

/-! ## Executions -/

/-- After a compilation that succeeded a program has a value, unless the stack is too small. -/
lemma execute_of_compiled (h : s.IsSound settings) (hcompiled : s.compiled = true) :
    (∃ x e, Engine.execute s.engine = .ok x e) ∨
      ∃ e, Engine.execute s.engine = .error (.stackOverflow settings.stackCapacity) e := by
  have hrun := (h.isExecutable hcompiled).isComplete.run_eq s.engine.symbols.value
    settings.stackCapacity
  rw [← h.settings_eq] at hrun ⊢
  unfold Engine.execute Program.run
  rw [if_pos (h.isCompiled_eq.trans hcompiled)]
  rcases hrun with hrun | ⟨x, hrun⟩
  · rw [hrun]
    exact .inr ⟨_, rfl⟩
  · rw [hrun]
    exact .inl ⟨x, _, rfl⟩

/-- After a compilation that failed there is no program. -/
lemma execute_of_not_compiled (h : s.IsSound settings) (hcompiled : s.compiled = false) :
    ∃ e, Engine.execute s.engine = .error .noProgram e := by
  have hnot : ¬s.engine.isCompiled = true := by
    rw [h.isCompiled_eq, hcompiled]
    exact Bool.false_ne_true
  exact ⟨_, if_neg hnot⟩

/-- An execution misses a program exactly when no compilation has left one. -/
lemma execute_eq_noProgram_iff (h : s.IsSound settings) :
    (∃ e, Engine.execute s.engine = .error .noProgram e) ↔ s.compiled = false := by
  refine ⟨?_, h.execute_of_not_compiled⟩
  rintro ⟨e, herror⟩
  cases hcompiled : s.compiled with
  | false => rfl
  | true =>
    rcases h.execute_of_compiled hcompiled with ⟨x, e', hok⟩ | ⟨e', hoverflow⟩
    · rw [hok] at herror
      exact nomatch herror
    · rw [hoverflow] at herror
      exact nomatch herror

end IsSound

end Observed

/-- Whatever a new engine has been asked for: after a compilation that succeeded, the program is
complete code, which leaves the stack below it alone and puts one value on it.  It loads variables
of the engine only, and its width is accounted for and within the capacity.  After a compilation
that failed, or before the first, the program is empty.  An execution misses a program exactly in
the second case, and can only overflow the stack in the first.  The engine says that it is fine
exactly if its latest task succeeded. -/
theorem program_after_requests (settings : Settings) (requests : List Request) :
    let s := Observed.after settings requests
    (s.compiled = true →
      IsComplete s.engine.program.code.toList ∧
      (∀ values capacity base,
        steps values capacity s.engine.program.code.toList base = .error (.stackOverflow capacity) ∨
          ∃ x, steps values capacity s.engine.program.code.toList base = .ok (x :: base)) ∧
      (∀ index ∈ s.engine.program.code.toList.filterMap loaded?, index < s.engine.symbols.size) ∧
      s.engine.program.width = Program.totalWidth s.engine.program.code.toList ∧
      s.engine.program.width ≤ settings.programCapacity) ∧
    (s.compiled = false → s.engine.program.code.toList = []) ∧
    ((∃ e, execute s.engine = .error .noProgram e) ↔ s.compiled = false) ∧
    (s.compiled = true →
      (∃ x e, execute s.engine = .ok x e) ∨
        ∃ e, execute s.engine = .error (.stackOverflow settings.stackCapacity) e) ∧
    s.engine.isOk = s.succeeded := by
  intro s
  have hsound : s.IsSound settings := .after settings requests
  refine ⟨fun hcompiled => ?_, hsound.code_eq_nil, hsound.execute_eq_noProgram_iff,
    hsound.execute_of_compiled, hsound.isOk_eq⟩
  have hprogram := hsound.isExecutable hcompiled
  have hwidth := hprogram.isValid.width_le
  rw [hsound.capacity_eq] at hwidth
  exact ⟨hprogram.isComplete, hprogram.isComplete.steps_eq, hprogram.lt_of_mem_loads,
    hprogram.isValid.isConsistent, hwidth⟩

end Engine

end Reckon
