import Mathlib.Data.Finset.Card
import Reckon.Proofs.Expr.Emission
import Reckon.Proofs.Symbol.Growth

/-!
# Names that can be resolved

A table can resolve names if it knows all of them, or if names may be installed and there is room
for all those it does not know (`SymbolTable.CanResolve`).  This is kept while names are resolved:
whatever is installed is no longer unknown.  So the compilation of expressions whose names can be
resolved is never stopped by a name, but only by the capacity of the program
(`Compilation.IsStoppedByCapacity`).
-/

namespace Reckon

open Outcome Compilation

namespace SymbolTable

variable {o : CompileOptions} {t : SymbolTable} {names : List String} {name : String}

/-- The names among these that a table does not know. -/
def unknown (t : SymbolTable) (names : List String) : Finset String :=
  names.toFinset.filter fun name => t.lookup name = none

/-- Whether a table knows all these names, or can take in those that it does not know. -/
def CanResolve (o : CompileOptions) (t : SymbolTable) (names : List String) : Prop :=
  (∀ name ∈ names, t.lookup name ≠ none) ∨
    o.autoInstall = true ∧ t.size + (t.unknown names).card ≤ limit

/-- The unknown names are those among the names that the table does not have. -/
lemma mem_unknown_iff : name ∈ t.unknown names ↔ name ∈ names ∧ t.lookup name = none := by
  rw [unknown, Finset.mem_filter, List.mem_toFinset]

/-- A name that is added is not unknown any more, and all others are as before. -/
lemma unknown_add (t : SymbolTable) (names : List String) (name : String) :
    (t.add name).unknown names = (t.unknown names).erase name := by
  ext other
  rw [Finset.mem_erase, mem_unknown_iff, mem_unknown_iff]
  by_cases hother : other = name
  · subst hother
    simp [lookup_add_self]
  · simp [lookup_add_of_ne hother, hother]

end SymbolTable

namespace Compilation

open SymbolTable

variable {o : CompileOptions} {names : List String} {name : String} {w : Workplace}

/-- A name is resolved, and the others still can be. -/
lemma exists_resolve (h : CanResolve o w.symbols names) (hname : name ∈ names) (position : ℕ) :
    ∃ index w', resolve o name position w = .ok index w' ∧ CanResolve o w'.symbols names := by
  unfold resolve
  split
  · exact ⟨_, _, rfl, h⟩
  · rename_i hnone
    rcases h with hknown | ⟨ho, hroom⟩
    · exact absurd hnone (hknown name hname)
    · have hmem : name ∈ w.symbols.unknown names := mem_unknown_iff.2 ⟨hname, hnone⟩
      have hcard := Finset.card_erase_add_one hmem
      have hinstall : w.symbols.install name = .ok (w.symbols.size, w.symbols.add name) := by
        rw [install, hnone]
        exact if_pos (by omega)
      rw [if_pos ho, hinstall]
      refine ⟨_, _, rfl, .inr ⟨ho, ?_⟩⟩
      rw [unknown_add, size_add]
      omega

/-- Whether a part of a compilation is stopped only by the capacity where these names can be
resolved, and leaves them so. -/
def IsStoppedByCapacity (o : CompileOptions) (names : List String) (body : Compilation Unit) :
    Prop :=
  ∀ w, CanResolve o w.symbols names →
    (∃ w', body w = .ok () w' ∧ CanResolve o w'.symbols names) ∨
      ∃ capacity w', body w = .error (.programTooLarge capacity) w'

namespace IsStoppedByCapacity

variable {body next : Compilation Unit}

/-- If two parts are stopped only by the capacity, so are both together. -/
lemma seq (h : IsStoppedByCapacity o names body) (h' : IsStoppedByCapacity o names next) :
    IsStoppedByCapacity o names (body >>= fun _ => next) := by
  intro w hw
  rw [bind_apply]
  rcases h w hw with ⟨w', hbody, hw'⟩ | ⟨capacity, w', hbody⟩
  · rw [hbody]
    exact h' w' hw'
  · rw [hbody]
    exact .inr ⟨capacity, w', rfl⟩

/-- Only the capacity stops the emission of an instruction. -/
lemma emit (i : Instruction) : IsStoppedByCapacity o names (Compilation.emit i) := by
  intro w hw
  unfold Compilation.emit
  split
  · exact .inl ⟨_, rfl, hw⟩
  · rename_i e hemit
    obtain ⟨-, rfl⟩ := Program.emit_eq_error_iff.1 hemit
    exact .inr ⟨_, _, rfl⟩

/-- Only the capacity stops a folding whose body nothing else stops. -/
lemma folding (h : IsStoppedByCapacity o names body) :
    IsStoppedByCapacity o names (Compilation.folding o body) := by
  have hfold : ∀ start, IsStoppedByCapacity o names (Compilation.fold o start) :=
    fun _ _ hw => .inl ⟨_, rfl, hw⟩
  exact fun w hw => h.seq (hfold w.program.size) w hw

/-- Only the capacity stops the loading of a variable that can be resolved. -/
lemma load (hname : name ∈ names) (position : ℕ) : IsStoppedByCapacity o names
    (resolve o name position >>= fun index => Compilation.emit (.load index)) := by
  intro w hw
  obtain ⟨index, w', hresolve, hw'⟩ := exists_resolve hw hname position
  rw [bind_apply, hresolve]
  exact emit (.load index) w' hw'

/-- Where there is room for what is emitted, and all names can be resolved, nothing is in the
way. -/
lemma exists_ok {names' : List String} {code : (String → ℕ) → List Instruction} {bound : ℕ}
    (h : IsStoppedByCapacity o names body) (hemits : Emits o names' code bound body)
    (hnames : CanResolve o w.symbols names) (hw : w.program.IsConsistent)
    (hroom : w.program.width + bound ≤ w.program.capacity) : ∃ w', body w = .ok () w' := by
  rcases h w hnames with ⟨w', hbody, -⟩ | ⟨capacity, w', hbody⟩
  · exact ⟨w', hbody⟩
  · cases hemits.error hw hbody with
    | programTooLarge hlt => omega

end IsStoppedByCapacity

end Compilation

namespace Expr

variable {o : CompileOptions} {names : List String}

/-- Only the capacity stops an expression whose names can be resolved. -/
lemma isStoppedByCapacity_emit (o : CompileOptions) (e : Expr) (h : e.names ⊆ names) :
    IsStoppedByCapacity o names (e.emit o) := by
  induction e with
  | number x => exact .emit _
  | constant c => exact .folding (.emit _)
  | var name position => exact .load (h List.mem_cons_self) position
  | unary f operand ih => exact ((ih h).seq (.emit _)).folding
  | binary f left right ihleft ihright =>
    obtain ⟨hleft, hright⟩ := List.append_subset.1 h
    exact ((ihleft hleft).seq ((ihright hright).seq (.emit _))).folding
  | choice test yes no ihtest ihyes ihno =>
    obtain ⟨hbranches, hno⟩ := List.append_subset.1 h
    obtain ⟨htest, hyes⟩ := List.append_subset.1 hbranches
    exact ((ihtest htest).seq ((ihyes hyes).seq ((ihno hno).seq (.emit _)))).folding

/-- Only the capacity stops expressions whose names can be resolved. -/
lemma isStoppedByCapacity_emitAll (o : CompileOptions) {done : List Expr}
    (h : done.flatMap Expr.names ⊆ names) : IsStoppedByCapacity o names (emitAll o done) := by
  have hforM : ∀ es : List Expr, es ⊆ done →
      IsStoppedByCapacity o names (es.forM fun e => e.emit o) := by
    intro es hes
    induction es with
    | nil => exact fun w hw => .inl ⟨w, rfl, hw⟩
    | cons e es ih =>
      obtain ⟨he, hes⟩ := List.cons_subset.1 hes
      have hnames : e.names ⊆ names := fun name hname =>
        h (List.mem_flatMap.2 ⟨e, he, hname⟩)
      exact (isStoppedByCapacity_emit o e hnames).seq (ih hes)
  exact hforM done.reverse fun e he => List.mem_reverse.1 he

end Expr

end Reckon
