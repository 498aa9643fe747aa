import Mathlib.Data.List.Forall2
import Reckon.Expr.Compilation
import Reckon.Proofs.Outcome

/-!
# The places of variables

A variable keeps the place where it was written, and nothing but an error ever tells it.
Expressions that differ in nothing else (`Expr.Resembles`) are compiled alike: with the same effect
on variables and program, and with the same success (`Expr.Resembles.alike_emit`).
-/

namespace Reckon

open Outcome

namespace Compilation

variable {o : CompileOptions} {α α' : Type} {A : α → α' → Prop}

/-- Folding what is emitted alike. -/
lemma alike_folding {body body' : Compilation Unit} (h : Alike Eq Eq body body') :
    Alike Eq Eq (folding o body) (folding o body') :=
  .bind_of_eq .refl fun _ => .bind_of_eq h fun _ => .refl

/-- Clearing after a failure keeps compilations alike. -/
lemma alike_clearingOnError {x : Compilation α} {y : Compilation α'} (h : Alike Eq A x y) :
    Alike Eq A (clearingOnError x) (clearingOnError y) := by
  rintro w _ rfl
  have hbodies := h w w rfl
  unfold clearingOnError
  generalize x w = r at hbodies ⊢
  generalize y w = r' at hbodies ⊢
  rcases hbodies with ⟨hanswers, rfl⟩ | rfl
  · exact .ok hanswers rfl
  · exact .error rfl

end Compilation

/-- Whether two expressions differ at most in the places of their variables. -/
inductive Expr.Resembles : Expr → Expr → Prop
  | number (x : Float) : Resembles (number x) (number x)
  | constant (c : Constant) : Resembles (constant c) (constant c)
  | var (name : String) (position position' : ℕ) :
    Resembles (var name position) (var name position')
  | unary {f : UnaryOp} {operand operand' : Expr} :
      Resembles operand operand' → Resembles (unary f operand) (unary f operand')
  | binary {f : BinaryOp} {left left' right right' : Expr} : Resembles left left' →
      Resembles right right' → Resembles (binary f left right) (binary f left' right')
  | choice {test test' yes yes' no no' : Expr} : Resembles test test' → Resembles yes yes' →
      Resembles no no' → Resembles (choice test yes no) (choice test' yes' no')

/-- Applications of one built-in to such arguments resemble each other. -/
lemma Meaning.rel_build? (m : Meaning) {args args' : List Expr}
    (h : List.Forall₂ Expr.Resembles args args') :
    Option.Rel Expr.Resembles (m.build? args) (m.build? args') := by
  rcases h with _ | ⟨hfirst, _ | ⟨hsecond, _ | ⟨hthird, hmore⟩⟩⟩
  · cases m with
    | constant c => exact .some (.constant c)
    | unary | binary => exact .none
  · cases m with
    | unary f => exact .some (.unary hfirst)
    | constant | binary => exact .none
  · cases m with
    | binary f => exact .some (.binary hfirst hsecond)
    | constant | unary => exact .none
  · cases m with
    | constant | unary | binary => exact .none

namespace Expr

/-- Choices between expressions that resemble each other do so too. -/
lemma rel_choice? {args args' : List Expr} (h : List.Forall₂ Resembles args args') :
    Option.Rel Resembles (choice? args) (choice? args') := by
  rcases h with _ | ⟨hfirst, _ | ⟨hsecond, _ | ⟨hthird, _ | ⟨hfourth, hmore⟩⟩⟩⟩
  · exact .none
  · exact .none
  · exact .none
  · exact .some (.choice hfirst hsecond hthird)
  · exact .none

open Compilation

variable {e e' : Expr}

/-- The position of a name does not matter to what it resolves to. -/
lemma alike_resolve (o : CompileOptions) (name : String) (position position' : ℕ) :
    Alike Eq Eq (resolve o name position) (resolve o name position') := by
  rintro w _ rfl
  unfold resolve
  split
  · exact .ok rfl rfl
  · split
    · split
      · exact .ok rfl rfl
      · exact .error rfl
    · exact .error rfl

/-- Expressions that resemble each other have the same effect. -/
theorem Resembles.alike_emit (o : CompileOptions) (h : Resembles e e') :
    Alike Eq Eq (e.emit o) (e'.emit o) := by
  induction h with
  | number x => exact .refl
  | constant c => exact .refl
  | var name position position' =>
    exact .bind_of_eq (alike_resolve o name position position') fun _ => .refl
  | unary _ ih => exact alike_folding (.bind_of_eq ih fun _ => .refl)
  | binary _ _ ihleft ihright =>
    exact alike_folding (.bind_of_eq ihleft fun _ => .bind_of_eq ihright fun _ => .refl)
  | choice _ _ _ ihtest ihyes ihno =>
    exact alike_folding (.bind_of_eq ihtest fun _ => .bind_of_eq ihyes fun _ =>
      .bind_of_eq ihno fun _ => .refl)

/-- Expressions that resemble each other are emitted alike, one after the other. -/
lemma alike_forM (o : CompileOptions) {es es' : List Expr} (h : List.Forall₂ Resembles es es') :
    Alike Eq Eq (es.forM fun e => e.emit o) (es'.forM fun e => e.emit o) := by
  induction h with
  | nil => exact .refl
  | cons hfirst _ ih => exact .bind_of_eq (hfirst.alike_emit o) fun _ => ih

/-- Results that resemble each other are emitted alike. -/
lemma alike_emitAll (o : CompileOptions) {done done' : List Expr}
    (h : List.Forall₂ Resembles done done') :
    Alike Eq Eq (emitAll o done) (emitAll o done') :=
  alike_forM o (List.rel_reverse h)

end Expr

end Reckon
