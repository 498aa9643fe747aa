import Reckon.Proofs.Expr.Advance
import Reckon.Proofs.Expr.Lockstep
import Reckon.Proofs.Symbol.Register

/-!
# Compilations do not depend on the values of variables

A compilation runs code to fold it, and the run could read any variable of the table.  But code that
reads a variable is not folded whatever the run gives, and other code computes the same for all
values (`Program.fold_eq_of_values`).  So two compilations with tables that differ in nothing but
the values run in step: their programs are the same all the time, and they install the same new
variables (`Workplace.Parallels`).  No value that was there plays a part in what is compiled
(`Expr.compile_eq_of_values`).
-/

namespace Reckon

open Outcome Instruction SymbolTable

/-- Folding does not depend on the values of variables. -/
lemma Program.fold_eq_of_values (p : Program) (values values' : ℕ → Float)
    (stackCapacity start : ℕ) :
    p.fold values stackCapacity start = p.fold values' stackCapacity start := by
  rcases hcode : (p.codeFrom start).any readsVariable with _ | _
  · have hrun : Instruction.run values stackCapacity (p.codeFrom start) =
        Instruction.run values' stackCapacity (p.codeFrom start) := by
      refine run_congr (fun index hindex => ?_) stackCapacity
      rw [any_readsVariable_eq_false_iff.1 hcode] at hindex
      exact absurd hindex List.not_mem_nil
    unfold fold
    generalize p.codeFrom start = code at hrun
    split
    · rfl
    · rfl
    · rfl
    · rw [hrun]
  · rw [fold_of_any_readsVariable hcode, fold_of_any_readsVariable hcode]

/-! ## Tables with the same names -/

namespace SymbolTable

variable {t u : SymbolTable}

/-- Tables with the same names at the same indexes have the same size. -/
lemma size_eq_of_name? (hnames : ∀ index, t.name? index = u.name? index) : t.size = u.size := by
  have hle : ∀ t u : SymbolTable, (∀ index, t.name? index = u.name? index) → t.size ≤ u.size := by
    intro t u hnames
    by_contra hle
    have hlt : u.size < t.symbols.size := Nat.not_le.1 hle
    have hsome : t.name? u.size = some t.symbols[u.size].name :=
      congrArg (Option.map Symbol.name) (Array.getElem?_eq_getElem hlt)
    rw [hnames, name?_size] at hsome
    contradiction
  exact Nat.le_antisymm (hle t u hnames) (hle u t fun index => (hnames index).symm)

/-- They find all names at the same indexes, however many buckets each of them has. -/
lemma IsSound.lookup_eq_of_name? (ht : t.IsSound) (hu : u.IsSound)
    (hnames : ∀ index, t.name? index = u.name? index) (name : String) :
    t.lookup name = u.lookup name := by
  ext index
  rw [ht.lookup_eq_some_iff, hu.lookup_eq_some_iff, hnames]

end SymbolTable

/-! ## Two compilations -/

variable {t u : SymbolTable} {o : CompileOptions} {w v : Workplace} {name : String}

/-- Whether two workplaces have the same program, find the same names at the same indexes, and come
from these tables by the same installations. -/
structure Workplace.Parallels (t u : SymbolTable) (w v : Workplace) : Prop where
  program_eq : w.program = v.program
  size_eq : w.symbols.size = v.symbols.size
  lookup_eq : ∀ name, w.symbols.lookup name = v.symbols.lookup name
  exists_new : ∃ new : List String, w.symbols.register = t.register ++ new.map (·, 0) ∧
    v.symbols.register = u.register ++ new.map (·, 0)

namespace Workplace.Parallels

lemma clear (h : w.Parallels t u v) : w.clear.Parallels t u v.clear :=
  { h with program_eq := congrArg Program.clear h.program_eq }

/-- The same name is added on both sides. -/
lemma add (h : w.Parallels t u v) (name : String) :
    Parallels t u { w with symbols := w.symbols.add name }
      { v with symbols := v.symbols.add name } where
  program_eq := h.program_eq
  size_eq := by rw [size_add, size_add, h.size_eq]
  lookup_eq other := by
    by_cases hname : other = name
    · rw [hname, lookup_add_self, lookup_add_self, h.size_eq]
    · rw [lookup_add_of_ne hname, lookup_add_of_ne hname, h.lookup_eq]
  exists_new := by
    obtain ⟨new, hw, hv⟩ := h.exists_new
    refine ⟨new ++ [name], ?_, ?_⟩
    · rw [register_add, hw, List.map_append, List.append_assoc]
      rfl
    · rw [register_add, hv, List.map_append, List.append_assoc]
      rfl

end Workplace.Parallels

namespace Compilation

open Workplace

lemma inStep_emit (t u : SymbolTable) (i : Instruction) :
    InStep (fun _ => False) (Parallels t u) Eq (Compilation.emit i) (Compilation.emit i) := by
  intro w v h
  unfold Compilation.emit
  rw [h.program_eq]
  split
  · exact .ok rfl { h with program_eq := rfl }
  · exact .error h

/-- A name is found on both sides, or installed on both sides, or on neither. -/
lemma inStep_resolve (t u : SymbolTable) (name : String) (position : ℕ) :
    InStep (fun _ => False) (Parallels t u) Eq (resolve o name position)
      (resolve o name position) := by
  intro w v h
  unfold resolve SymbolTable.install
  rw [← h.lookup_eq, ← h.size_eq]
  rcases w.symbols.lookup name with _ | index
  · dsimp only
    split
    · by_cases hroom : w.symbols.size < SymbolTable.limit
      · rw [if_pos hroom, if_pos hroom]
        exact .ok rfl (h.add name)
      · rw [if_neg hroom, if_neg hroom]
        exact .error h
    · exact .error h
  · exact .ok rfl h

/-- Every step keeps the programs the same, whatever the values are. -/
lemma isLockstep_parallels (o : CompileOptions) (t u : SymbolTable) :
    IsLockstep o (fun _ => False) (Parallels t u) where
  clear _ _ h := h.clear
  emit i _ := inStep_emit t u i
  load name position := (inStep_resolve t u name position).bind fun index _ hindex =>
    hindex ▸ inStep_emit t u (.load index)
  folding _ := inStep_folding (fun _ _ h => congrArg Program.size h.program_eq) fun start w v h =>
    .ok rfl { h with
      program_eq := by
        dsimp only
        rw [h.program_eq, v.program.fold_eq_of_values w.symbols.value v.symbols.value] }

end Compilation

/-- Two tables have the same names at the same indexes, whatever the values and however many the
buckets.  Then a source compiles with the same figures or the same error in both, to the same
program, and the same new names are installed behind those that were there, all with the value zero.
Nothing else changes in either table. -/
theorem Expr.compile_eq_of_values (o : CompileOptions) (source : String) (p q : Program)
    (ht : t.IsSound) (hu : u.IsSound) (hnames : ∀ index, t.name? index = u.name? index)
    (hcapacity : p.capacity = q.capacity) :
    let r := compile o source ⟨t, p⟩
    let r' := compile o source ⟨u, q⟩
    answer r = answer r' ∧ (final r).program = (final r').program ∧
      ∃ new : List String, (final r).symbols.register = t.register ++ new.map (·, 0) ∧
        (final r').symbols.register = u.register ++ new.map (·, 0) := by
  intro r r'
  have hstart : Workplace.Parallels t u (Workplace.clear ⟨t, p⟩) (Workplace.clear ⟨u, q⟩) :=
    ⟨congrArg Program.empty hcapacity, size_eq_of_name? hnames, ht.lookup_eq_of_name? hu hnames,
      [], (List.append_nil _).symm, (List.append_nil _).symm⟩
  have hcompile := (Compilation.isLockstep_parallels o t u).coincides_compile
    (fun _ _ h => congrArg Program.summary h.program_eq) source hstart
  obtain ⟨hanswer, hrelated⟩ := hcompile.answer_eq nofun nofun
  exact ⟨hanswer, hrelated.program_eq, hrelated.exists_new⟩

/-- One variable is one in a table with a single bucket, and five in a table with seven; in both
tables a source is compiled to the same program, and a second variable is installed. -/
theorem Expr.compile_eq_of_one_and_five :
    let o : CompileOptions := ⟨true, 64, 30⟩
    let t := ((withBuckets 1).add "x").set 0 1
    let u := ((withBuckets 7).add "x").set 0 5
    let r := compile o "x*(1+2)+y" ⟨t, .empty 100⟩
    let r' := compile o "x*(1+2)+y" ⟨u, .empty 100⟩
    t.IsSound ∧ u.IsSound ∧ (∀ index, t.name? index = u.name? index) ∧ isSuccess r = true ∧
      answer r = answer r' ∧ (final r).program = (final r').program := by
  intro o t u r r'
  have hempty (count : ℕ) : (withBuckets count).lookup "x" = none :=
    Option.eq_none_iff_forall_ne_some.2 fun index hindex =>
      nomatch (IsSound.withBuckets count).lookup_eq_some_iff.1 hindex
  have hsound (count : ℕ) (x : Float) : (((withBuckets count).add "x").set 0 x).IsSound :=
    ((IsSound.withBuckets count).add (hempty count)).set 0 x
  have hnames : ∀ index, t.name? index = u.name? index := by
    intro index
    rw [name?_set, name?_set, name?_add, name?_add]
    rfl
  obtain ⟨hanswer, hprogram, -⟩ :=
    compile_eq_of_values o "x*(1+2)+y" (.empty 100) (.empty 100) (hsound 1 1) (hsound 7 5) hnames
      rfl
  exact ⟨hsound 1 1, hsound 7 5, hnames, by decide +kernel, hanswer, hprogram⟩

end Reckon
