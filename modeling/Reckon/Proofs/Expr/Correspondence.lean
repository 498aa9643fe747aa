import Reckon.Proofs.Expr.Lockstep
import Reckon.Proofs.Program.Correspondence

/-!
# Compilations with different tables

A source is compiled with two tables of variables, which may hold different variables at different
indexes.  The two compilations run in step: what one does to its program, the other does to its own,
and both programs mirror each other all the time (`Workplace.Mirrors`).  They fail alike, except
that a table may be full.  If names are not installed, the tables must know the same names.  No
value of a variable plays a part (`Expr.coincides_compile`).
-/

namespace Reckon

open Outcome Compilation

/-- Whether an error says that there is no room for a variable. -/
def Error.IsAllocation (e : Error) : Prop := ∃ name, e = .symbolAllocation name

/-- Whether the programs of two workplaces mirror each other, and both know the same names if none
are installed. -/
structure Workplace.Mirrors (o : CompileOptions) (w v : Workplace) : Prop where
  program : w.program.Mirrors w.symbols v.symbols v.program
  lookup_iff : o.autoInstall = false →
    ∀ name, w.symbols.lookup name = none ↔ v.symbols.lookup name = none

variable {o : CompileOptions} {w v : Workplace} {i j : Instruction}

namespace Workplace.Mirrors

lemma clear (h : w.Mirrors o v) : w.clear.Mirrors o v.clear :=
  ⟨.clear h.program.capacity_eq, h.lookup_iff⟩

lemma emit (h : w.Mirrors o v) (hij : Instruction.Mirrors w.symbols v.symbols i j) :
    Coincides Error.IsAllocation (Mirrors o) Eq (Compilation.emit i w) (Compilation.emit j v) := by
  unfold Compilation.emit
  rcases h.program.emit hij with ⟨p, q, hp, hq, hpq⟩ | ⟨e, hp, hq⟩
  · rw [hp, hq]
    exact .ok rfl ⟨hpq, h.lookup_iff⟩
  · rw [hp, hq]
    exact .error h

end Workplace.Mirrors

namespace Compilation

lemma resolve_of_unknown {name : String} (hoff : o.autoInstall = false)
    (hnone : w.symbols.lookup name = none) (position : ℕ) :
    resolve o name position w = .error (.unknownIdentifier name position) w := by
  unfold resolve
  rw [hnone, hoff]
  rfl

/-- A name that is known or can be installed is resolved, unless the table is full. -/
lemma resolve_of_not_unknown {name : String}
    (h : ¬(o.autoInstall = false ∧ w.symbols.lookup name = none)) (position : ℕ) :
    (∃ index w₁, resolve o name position w = .ok index w₁) ∨
      ∃ e w₁, e.IsAllocation ∧ resolve o name position w = .error e w₁ := by
  unfold resolve
  split
  · exact .inl ⟨_, _, rfl⟩
  · rename_i hnone
    have hon : o.autoInstall = true := by
      rw [← Bool.not_eq_false]
      exact fun hoff => h ⟨hoff, hnone⟩
    rw [if_pos hon]
    split
    · exact .inl ⟨_, _, rfl⟩
    · rename_i hresult
      exact .inr ⟨_, _, ⟨name, SymbolTable.eq_of_install_eq_error hresult⟩, rfl⟩

/-- The variables of one name are loaded, whatever their indexes are. -/
lemma inStep_load (name : String) (position : ℕ) :
    InStep Error.IsAllocation (Workplace.Mirrors o) Eq
      (resolve o name position >>= fun index => Compilation.emit (.load index))
      (resolve o name position >>= fun index => Compilation.emit (.load index)) := by
  intro w v h
  rw [bind_apply, bind_apply]
  by_cases hunknown : o.autoInstall = false ∧ w.symbols.lookup name = none
  · obtain ⟨hoff, hnone⟩ := hunknown
    rw [resolve_of_unknown hoff hnone, resolve_of_unknown hoff ((h.lookup_iff hoff name).1 hnone)]
    exact .error h
  · have hunknown' : ¬(o.autoInstall = false ∧ v.symbols.lookup name = none) :=
      fun ⟨hoff, hnone⟩ => hunknown ⟨hoff, (h.lookup_iff hoff name).2 hnone⟩
    rcases resolve_of_not_unknown hunknown position with ⟨index, w₁, hw⟩ | ⟨e, w₁, he, hw⟩
    · rcases resolve_of_not_unknown hunknown' position with ⟨index', v₁, hv⟩ | ⟨e, v₁, he, hv⟩
      · obtain ⟨hprogram, hextends, hsame, hlookup⟩ := resolved_of_resolve hw
        obtain ⟨hprogram', hextends', hsame', hlookup'⟩ := resolved_of_resolve hv
        have hmirrors : w₁.Mirrors o v₁ := by
          refine ⟨?_, fun hoff => ?_⟩
          · rw [hprogram, hprogram']
            exact h.program.mono hextends hextends'
          · rw [hsame hoff, hsame' hoff]
            exact h.lookup_iff hoff
        rw [hw, hv]
        exact hmirrors.emit (.load ⟨name, hlookup, hlookup'⟩)
      · rw [hv]
        exact .right he
    · rw [hw]
      exact .left he

/-- Programs that mirror each other still do so after the same step. -/
lemma isLockstep_mirrors (o : CompileOptions) :
    IsLockstep o Error.IsAllocation (Workplace.Mirrors o) where
  clear _ _ h := h.clear
  emit _ hvariable _ _ h := h.emit (.same hvariable)
  load := inStep_load
  folding _ := inStep_folding (fun _ _ h => h.program.size_eq) fun _ _ _ h =>
    .ok rfl ⟨h.program.fold _ _ _ _, h.lookup_iff⟩

end Compilation

/-- A source is compiled with different tables in step. -/
theorem Expr.coincides_compile (o : CompileOptions) (source : String)
    (hcapacity : w.program.capacity = v.program.capacity)
    (hlookup : o.autoInstall = false →
      ∀ name, w.symbols.lookup name = none ↔ v.symbols.lookup name = none) :
    Coincides Error.IsAllocation (Workplace.Mirrors o) Eq (compile o source w)
      (compile o source v) :=
  (isLockstep_mirrors o).coincides_compile (fun _ _ h => h.program.summary_eq) source
    ⟨.clear hcapacity, hlookup⟩

end Reckon
