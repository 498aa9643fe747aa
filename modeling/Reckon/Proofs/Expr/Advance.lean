import Reckon.Expr.Compilation
import Reckon.Proofs.Outcome
import Reckon.Proofs.Program.Folding
import Reckon.Proofs.Symbol.Growth

/-!
# What compilations leave alone

A relation between workplaces that holds of every single step of a compilation
(`Compilation.IsStepRelation`) holds of whole compilations, whether they succeed or fail.

A compilation installs variables and edits its program.  It changes no variable that was there
before, does not touch the capacity of the program, and keeps the account of its width
(`Workplace.Advances`).  Unless it is told to, it installs nothing
(`Expr.symbols_eq_of_autoInstall`).
-/

namespace Reckon

open Outcome

namespace Compilation

variable {α β : Type} {o : CompileOptions} {R : Workplace → Workplace → Prop} {x : Compilation α}
  {f : α → Compilation β}

/-- Whether a relation holds of every single step of a compilation. -/
structure IsStepRelation (o : CompileOptions) (R : Workplace → Workplace → Prop) : Prop where
  refl : ∀ w, R w w
  trans : ∀ w w' w'', R w w' → R w' w'' → R w w''
  clear : ∀ w : Workplace, R w { w with program := w.program.clear }
  emit : ∀ i, Moves R (Compilation.emit i)
  resolve : ∀ name position, Moves R (resolve o name position)
  fold : ∀ start, Moves R (Compilation.fold o start)

namespace IsStepRelation

variable (h : IsStepRelation o R)

include h

/-- The relation holds of a sequence if it holds of its steps. -/
lemma moves_bind (hx : Moves R x) (hf : ∀ a, Moves R (f a)) : Moves R (x >>= f) :=
  .bind h.trans hx hf

/-- To succeed is to take no step. -/
lemma moves_pure (a : α) : Moves R (pure a : Compilation α) := .pure h.refl a

/-- To fail is to take no step. -/
lemma moves_throw (e : Error) : Moves R (throw e : Compilation α) := .throw h.refl e

/-- To look at the workplace is to take no step. -/
lemma moves_get : Moves R (get : Compilation Workplace) := h.refl

/-- Folding takes the steps of its body and one more. -/
lemma moves_folding {body : Compilation Unit} (hbody : Moves R body) : Moves R (folding o body) :=
  h.moves_bind h.moves_get fun w => h.moves_bind hbody fun _ => h.fold w.program.size

/-- Clearing after a failure is a step. -/
lemma moves_clearingOnError (hx : Moves R x) : Moves R (clearingOnError x) := by
  intro w
  unfold clearingOnError
  split
  · rename_i hbody
    exact hx.of_ok hbody
  · rename_i hbody
    exact h.trans _ _ _ (hx.of_error hbody) (h.clear _)

/-- The emission of an expression is made of such steps. -/
lemma moves_emit (e : Expr) : Moves R (e.emit o) := by
  induction e with
  | number x => exact h.emit _
  | constant c => exact h.moves_folding (h.emit _)
  | var name position => exact h.moves_bind (h.resolve name position) fun _ => h.emit _
  | unary f operand ih => exact h.moves_folding (h.moves_bind ih fun _ => h.emit _)
  | binary f left right ihleft ihright =>
    exact h.moves_folding (h.moves_bind ihleft fun _ => h.moves_bind ihright fun _ => h.emit _)
  | choice test yes no ihtest ihyes ihno =>
    exact h.moves_folding (h.moves_bind ihtest fun _ => h.moves_bind ihyes fun _ =>
      h.moves_bind ihno fun _ => h.emit _)

/-- The emission of expressions is made of such steps. -/
lemma moves_forM (es : List Expr) : Moves R (es.forM fun e => e.emit o) := by
  induction es with
  | nil => exact h.moves_pure _
  | cons e es ih => exact h.moves_bind (h.moves_emit e) fun _ => ih

/-- The relation holds of compilations of the expression at a cursor. -/
lemma moves_compileAt (c : Cursor) : Moves R (Expr.compileAt o c) := by
  refine h.moves_clearingOnError (h.moves_bind h.clear fun _ => ?_)
  split
  · exact h.moves_bind (h.moves_forM _) fun _ => h.moves_bind (h.fold 0) fun _ => h.moves_pure _
  · exact h.moves_bind (h.moves_forM _) fun _ => h.moves_throw _

/-- The relation holds of compilations of a source. -/
lemma moves_compile (source : String) : Moves R (Expr.compile o source) := by
  refine h.moves_clearingOnError (h.moves_bind (h.moves_compileAt _) fun c => ?_)
  have hsummary : Moves R (get >>= fun w : Workplace => pure w.program.summary) :=
    h.moves_bind h.moves_get fun w => h.moves_pure w.program.summary
  dsimp only
  split
  · exact hsummary
  · exact h.moves_bind (h.moves_throw _) fun _ => hsummary

end IsStepRelation

end Compilation

/-! ## Growth -/

/-- Whether a workplace comes from another by what compilations may do. -/
structure Workplace.Advances (w w' : Workplace) : Prop where
  growsTo : w.symbols.GrowsTo w'.symbols
  capacity_eq : w'.program.capacity = w.program.capacity
  isValid : w.program.IsValid → w'.program.IsValid

namespace Workplace.Advances

variable {w w' w'' : Workplace}

/-- A workplace comes from itself. -/
lemma refl (w : Workplace) : w.Advances w := ⟨.refl, rfl, id⟩

/-- What comes from one workplace by another comes from the first. -/
lemma trans (h : w.Advances w') (h' : w'.Advances w'') : w.Advances w'' :=
  ⟨h.growsTo.trans h'.growsTo, h'.capacity_eq.trans h.capacity_eq, h'.isValid ∘ h.isValid⟩

/-- A program may be cleared. -/
lemma clear (w : Workplace) : w.Advances { w with program := w.program.clear } :=
  ⟨.refl, rfl, fun _ => Program.isValid_clear _⟩

end Workplace.Advances

namespace Compilation

open Workplace

variable {o : CompileOptions}

/-- Emitting an instruction advances the workplace. -/
lemma moves_emit (i : Instruction) : Moves Advances (Compilation.emit i) := by
  intro w
  unfold Compilation.emit
  split
  · rename_i p hemit
    obtain ⟨-, rfl⟩ := Program.emit_eq_ok_iff.1 hemit
    exact ⟨.refl, rfl, fun hw => hw.emit hemit⟩
  · exact .refl w

/-- Resolving a name advances the workplace. -/
lemma moves_resolve (o : CompileOptions) (name : String) (position : ℕ) :
    Moves Advances (resolve o name position) := by
  intro w
  unfold resolve
  split
  · exact .refl w
  · split
    · split
      · rename_i hinstall
        exact ⟨SymbolTable.growsTo_of_install hinstall, rfl, id⟩
      · exact .refl w
    · exact .refl w

/-- Every single step of a compilation advances the workplace. -/
lemma isStepRelation_advances (o : CompileOptions) : IsStepRelation o Advances where
  refl := .refl
  trans _ _ _ := .trans
  clear := .clear
  emit := moves_emit
  resolve := moves_resolve o
  fold _ w := ⟨.refl, w.program.capacity_fold _ _ _, fun hw => hw.fold⟩

end Compilation

namespace Expr

open Compilation Workplace

/-- Compiling an expression advances the workplace. -/
lemma moves_emit (o : CompileOptions) (e : Expr) : Moves Advances (e.emit o) :=
  (isStepRelation_advances o).moves_emit e

/-- Compiling the expression at a cursor changes no variable that was there before. -/
theorem moves_compileAt (o : CompileOptions) (c : Cursor) : Moves Advances (compileAt o c) :=
  (isStepRelation_advances o).moves_compileAt c

/-- Compiling a source changes no variable that was there before. -/
theorem moves_compile (o : CompileOptions) (source : String) :
    Moves Advances (compile o source) :=
  (isStepRelation_advances o).moves_compile source

/-- After a compilation every name is read as before. -/
lemma read_compile (o : CompileOptions) (source : String) (w : Workplace) (name : String) :
    (final (compile o source w)).symbols.read name = w.symbols.read name :=
  (moves_compile o source w).growsTo.read_eq name

end Expr

/-! ## Installation -/

namespace Compilation

/-- Where names are not installed, no step touches the variables. -/
lemma isStepRelation_symbols_eq {o : CompileOptions} (hoff : o.autoInstall = false) :
    IsStepRelation o fun w w' => w'.symbols = w.symbols where
  refl _ := rfl
  trans _ _ _ h h' := h'.trans h
  clear _ := rfl
  emit i w := by
    unfold Compilation.emit
    split <;> rfl
  resolve name position w := by
    unfold resolve
    rw [hoff, if_neg Bool.false_ne_true]
    split <;> rfl
  fold _ _ := rfl

end Compilation

/-- Where names are not installed, a compilation leaves the variables as they were. -/
theorem Expr.symbols_eq_of_autoInstall {o : CompileOptions} (hoff : o.autoInstall = false)
    (source : String) (w : Workplace) : (final (compile o source w)).symbols = w.symbols :=
  (Compilation.isStepRelation_symbols_eq hoff).moves_compile source w

end Reckon
