import Reckon.Engine.Assignment
import Reckon.Proofs.Expr.Advance

/-!
# What assignments do to the variables

Up to the moment a value is assigned, a statement only adds variables: the value of none that was
there changes (`Assignment.moves_valueAt`).  Statements that are done change values, but no variable
is ever lost.
-/

namespace Reckon.Assignment

open Outcome SymbolTable

variable {s : Settings} {c : Cursor} {t t' : SymbolTable} {name : String}

lemma moves_install (name : String) : Moves GrowsTo (install name) := by
  intro t
  unfold install
  split
  · rename_i hinstall
    exact growsTo_of_install hinstall
  · exact .refl

/-- Computing a value only adds variables. -/
theorem moves_valueAt (s : Settings) (c : Cursor) : Moves GrowsTo (valueAt s c) := by
  intro t
  have hcompile := Expr.moves_compileAt s.compileOptions c
  unfold valueAt
  split
  · rename_i hrun
    exact (hcompile.of_error hrun).growsTo
  · rename_i hrun
    have hgrows := (hcompile.of_ok hrun).growsTo
    split
    · exact hgrows
    · exact hgrows

/-- What a statement does before it assigns: it finds its variable and computes the value. -/
def computeAt (s : Settings) (c : Cursor) : EStateM Error SymbolTable (ℕ × Float × Cursor) :=
  match targetAt c with
  | .error e => throw e
  | .ok (name, behind) => do
    let index ← install name
    let (x, rest) ← valueAt s behind
    return (index, x, rest)

/-- Until it assigns, a statement only adds variables. -/
theorem moves_computeAt (s : Settings) (c : Cursor) : Moves GrowsTo (computeAt s c) := by
  have htrans : ∀ t u v : SymbolTable, t.GrowsTo u → u.GrowsTo v → t.GrowsTo v :=
    fun _ _ _ => .trans
  unfold computeAt
  split
  · exact .throw (fun _ => .refl) _
  · exact .bind htrans (moves_install _) fun index => .bind htrans (moves_valueAt s _) fun value =>
      .pure (fun _ => .refl) _

/-- What a statement does. -/
lemma statementAt_apply (s : Settings) (c : Cursor) (t : SymbolTable) :
    statementAt s c t =
      match computeAt s c t with
      | .ok (index, x, rest) t' => .ok (⟨index, x⟩, rest) (t'.set index x)
      | .error e t' => .error e t' := by
  unfold statementAt computeAt
  cases targetAt c with
  | error e => rfl
  | ok target =>
    dsimp only
    simp only [bind_apply]
    cases install target.1 t with
    | error e t₁ => rfl
    | ok index t₁ =>
      dsimp only
      cases valueAt s target.2 t₁ with
      | error e t₂ => rfl
      | ok value t₂ => rfl

/-- What statements do: they are done one after the other. -/
lemma statementsAt_succ_apply (s : Settings) (turns : ℕ) (c : Cursor) (t : SymbolTable) :
    statementsAt s (turns + 1) c t =
      if c.atEnd then .ok [] t
      else
        match statementAt s c t with
        | .error e t' => .error e t'
        | .ok (done, rest) t' =>
          if (rest.eat ';').1 then
            match statementsAt s turns (rest.eat ';').2 t' with
            | .ok more t'' => .ok (done :: more) t''
            | .error e t'' => .error e t''
          else if (rest.eat ';').2.atEnd then .ok [done] t'
          else .error (.trailingInput (rest.eat ';').2.offset) t' := by
  rw [statementsAt]
  split
  · rfl
  · rw [bind_apply]
    cases statementAt s c t with
    | error e t₁ => rfl
    | ok done t₁ =>
      dsimp only
      cases done.2.eat ';' with
      | mk isThere behind =>
      cases isThere with
      | true =>
        dsimp only
        rw [bind_apply, if_pos rfl]
        cases statementsAt s turns behind t₁ with
        | error e t₂ => rfl
        | ok more t₂ => rfl
      | false =>
        dsimp only
        rw [if_neg Bool.false_ne_true]
        split
        · rfl
        · rfl

/-- A statement that fails only adds variables. -/
theorem growsTo_of_statementAt_eq_error {e : Error} (h : statementAt s c t = .error e t') :
    t.GrowsTo t' := by
  rw [statementAt_apply] at h
  split at h
  · cases h
  · rename_i hcompute
    cases h
    exact (moves_computeAt s c).of_error hcompute

/-- No variable is lost when a statement is done. -/
lemma size_le_of_statementAt_eq_ok {value : Assignment × Cursor}
    (h : statementAt s c t = .ok value t') : t.size ≤ t'.size := by
  rw [statementAt_apply] at h
  split at h
  · rename_i hcompute
    cases h
    rw [size_set]
    exact ((moves_computeAt s c).of_ok hcompute).size_le
  · cases h

/-- No variable is lost when statements are done, whether all of them succeed or not. -/
theorem moves_statementsAt (s : Settings) (turns : ℕ) (c : Cursor) :
    Moves (fun t t' : SymbolTable => t.size ≤ t'.size) (statementsAt s turns c) := by
  induction turns generalizing c with
  | zero => exact fun t => Nat.le_refl t.size
  | succ turns ih =>
    intro t
    rw [statementsAt_succ_apply]
    split
    · exact Nat.le_refl t.size
    · split
      · rename_i hfails
        exact (growsTo_of_statementAt_eq_error hfails).size_le
      · rename_i hdone
        have hle := size_le_of_statementAt_eq_ok hdone
        split
        · split
          · rename_i hmore
            exact Nat.le_trans hle ((ih _).of_ok hmore)
          · rename_i hmore
            exact Nat.le_trans hle ((ih _).of_error hmore)
        · split
          · exact hle
          · exact hle

theorem moves_runAll (s : Settings) (source : String) :
    Moves (fun t t' : SymbolTable => t.size ≤ t'.size) (runAll s source) :=
  moves_statementsAt s _ _

end Reckon.Assignment
