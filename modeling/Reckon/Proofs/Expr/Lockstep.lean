import Reckon.Proofs.Expr.Compilation
import Reckon.Proofs.Outcome

/-!
# Two compilations side by side

One source is compiled in two workplaces.  A relation between the workplaces that is kept when both
take the same single step (`Compilation.IsLockstep`) is kept by whole compilations, and these
succeed or fail together (`Compilation.IsLockstep.coincides_compile`): what is read does not depend
on the workplace, and what is emitted is a matter of single steps.
-/

namespace Reckon

open Outcome

namespace Compilation

variable {o : CompileOptions} {excused : Error → Prop} {R : Workplace → Workplace → Prop}
  {body : Compilation Unit} {w v : Workplace}

/-- Whether two compilations that begin in related workplaces keep them related with every single
step, unless one of them fails in a way that is excused. -/
structure IsLockstep (o : CompileOptions) (excused : Error → Prop)
    (R : Workplace → Workplace → Prop) : Prop where
  clear : ∀ w v, R w v → R w.clear v.clear
  emit : ∀ i : Instruction, i.readsVariable = false →
    InStep excused R Eq (Compilation.emit i) (Compilation.emit i)
  load : ∀ name position,
    InStep excused R Eq (resolve o name position >>= fun index => Compilation.emit (.load index))
      (resolve o name position >>= fun index => Compilation.emit (.load index))
  folding : ∀ body, InStep excused R Eq body body →
    InStep excused R Eq (folding o body) (folding o body)

/-- Where related programs have the same size, folding is a matter of what is folded from the same
position on. -/
lemma inStep_folding (hsize : ∀ w v, R w v → w.program.size = v.program.size)
    (hfold : ∀ start, InStep excused R Eq (fold o start) (fold o start))
    (h : InStep excused R Eq body body) :
    InStep excused R Eq (folding o body) (folding o body) := by
  intro w v hwv
  have hrun := (h.seq (hfold w.program.size)) w v hwv
  unfold folding
  rw [bind_apply, bind_apply, get_apply, get_apply]
  dsimp only
  rw [← hsize w v hwv]
  exact hrun

namespace IsLockstep

variable (h : IsLockstep o excused R)

include h

/-- The code of an expression is emitted in step. -/
theorem inStep_emit (e : Expr) : InStep excused R Eq (e.emit o) (e.emit o) := by
  induction e with
  | number x => exact h.emit _ rfl
  | constant c => exact h.folding _ (h.emit _ rfl)
  | var name position => exact h.load name position
  | unary f operand ih => exact h.folding _ (ih.seq (h.emit _ rfl))
  | binary f left right ihleft ihright =>
    exact h.folding _ (ihleft.seq (ihright.seq (h.emit _ rfl)))
  | choice test yes no ihtest ihyes ihno =>
    exact h.folding _ (ihtest.seq (ihyes.seq (ihno.seq (h.emit _ rfl))))

lemma inStep_forM (es : List Expr) :
    InStep excused R Eq (es.forM fun e => e.emit o) (es.forM fun e => e.emit o) := by
  induction es with
  | nil => exact fun _ _ hwv => .ok rfl hwv
  | cons e es ih => exact (h.inStep_emit e).seq ih

lemma inStep_emitAll (done : List Expr) :
    InStep excused R Eq (Expr.emitAll o done) (Expr.emitAll o done) :=
  h.inStep_forM done.reverse

/-- A source is compiled in step, and the summaries go together as the programs do. -/
theorem coincides_compile {A : Program.Summary → Program.Summary → Prop}
    (hsummary : ∀ w v, R w v → A w.program.summary v.program.summary) (source : String)
    (hclear : R w.clear v.clear) :
    Coincides excused R A (Expr.compile o source w) (Expr.compile o source v) := by
  rw [Expr.compile_apply, Expr.compile_apply]
  rcases Expr.read o.nestingLimit ⟨Cursor.ofString source, []⟩ with ⟨-, s⟩ | ⟨e, s⟩
  · have hemit := h.folding _ (h.inStep_emitAll s.done) _ _ hclear
    dsimp only
    generalize Compilation.folding o (Expr.emitAll o s.done) w.clear = r at hemit ⊢
    generalize Compilation.folding o (Expr.emitAll o s.done) v.clear = r' at hemit ⊢
    rcases hemit with ⟨-, hrelated⟩ | hrelated | he | he
    · dsimp only
      split
      · exact .ok (hsummary _ _ hrelated) hrelated
      · exact .error (h.clear _ _ hrelated)
    · exact .error (h.clear _ _ hrelated)
    · exact .left he
    · exact .right he
  · have hemit := h.inStep_emitAll s.done _ _ hclear
    dsimp only
    generalize Expr.emitAll o s.done w.clear = r at hemit ⊢
    generalize Expr.emitAll o s.done v.clear = r' at hemit ⊢
    rcases hemit with ⟨-, hrelated⟩ | hrelated | he | he
    · exact .error (h.clear _ _ hrelated)
    · exact .error (h.clear _ _ hrelated)
    · exact .left he
    · exact .right he

end IsLockstep

end Compilation

end Reckon
