import Reckon.Proofs.Expr.Compilation

/-!
# How much room a compilation needs

A number that folding leaves is never wider than the code that it replaces, except that a named
constant takes one unit and the number it stands for nine.  So a compilation needs no more than its
plain code and eight units for every named constant (`totalWidth_code`).  These eight units can be
needed: where the plain code alone has room, a named constant is still folded as soon as its number
fits, and may leave too little for what follows.
-/

namespace Reckon.Expr

open Compilation

/-- How many named constants an expression mentions, with repetitions. -/
def namedConstants : Expr → ℕ
  | constant _ => 1
  | number _ | var _ _ => 0
  | unary _ operand => operand.namedConstants
  | binary _ left right => left.namedConstants + right.namedConstants
  | choice test yes no => test.namedConstants + yes.namedConstants + no.namedConstants

/-- A named constant is eight units narrower than a number. -/
lemma totalWidth_code (indexOf : String → ℕ) (e : Expr) :
    Program.totalWidth (e.code indexOf) + 8 * e.namedConstants = e.expandedWidth := by
  induction e with
  | number | constant | var => rfl
  | unary f operand ih =>
    have hop : Program.totalWidth [.unary f] = 1 := rfl
    simp only [code, namedConstants, expandedWidth, Program.totalWidth_append, hop]
    omega
  | binary f left right ihleft ihright =>
    have hop : Program.totalWidth [.binary f] = 1 := rfl
    simp only [code, namedConstants, expandedWidth, Program.totalWidth_append, hop]
    omega
  | choice test yes no ihtest ihyes ihno =>
    have hop : Program.totalWidth [.choice] = 1 := rfl
    simp only [code, namedConstants, expandedWidth, Program.totalWidth_append, hop]
    omega

variable {o : CompileOptions} {source : String} {w : Workplace} {t : Tree}

/-- A sentence within the limit on the nesting, each of whose names is known or can be installed, is
compiled if its plain code has room and there are eight more units for every named constant.  In
particular folding costs no room where there are no named constants. -/
theorem compile_eq_ok_of_width_le (indexOf : String → ℕ) (h : Sentence source t)
    (hnesting : t.nesting ≤ o.nestingLimit)
    (hnames : ∀ name ∈ t.expr.names, o.autoInstall = true ∨ w.symbols.lookup name ≠ none)
    (halloc : ∀ name w', compile o source w ≠ .error (.symbolAllocation name) w')
    (hwidth : Program.totalWidth (t.expr.code indexOf) + 8 * t.expr.namedConstants ≤
      w.program.capacity) :
    ∃ summary w', compile o source w = .ok summary w' := by
  rw [totalWidth_code] at hwidth
  exact exists_compile_eq_ok h hnesting hwidth hnames halloc

/-- The sum of `pi` and a variable is compiled where there are nineteen units, which is what its
plain code takes with a number for `pi`. -/
theorem compile_eq_ok_of_nineteen_units :
    let o : CompileOptions := ⟨false, 64, 30⟩
    let w : Workplace := ⟨(SymbolTable.withBuckets 1).add "x", .empty 19⟩
    let t : Tree := .binary .add (.constant .pi) (.var "x" 3)
    Sentence "pi+x" t ∧ t.nesting ≤ o.nestingLimit ∧
      (∀ name ∈ t.expr.names, w.symbols.lookup name ≠ none) ∧
      (∀ indexOf, Program.totalWidth (t.expr.code indexOf) + 8 * t.expr.namedConstants = 19) ∧
      w.program.capacity = 19 ∧ ∃ summary w', compile o "pi+x" w = .ok summary w' := by
  intro o w t
  have hsentence : Sentence "pi+x" t := sentence_constant_add_var
  have hnesting : t.nesting ≤ o.nestingLimit := by decide
  have hknown : ∀ name ∈ t.expr.names, w.symbols.lookup name ≠ none :=
    List.forall_mem_singleton.2 (SymbolTable.lookup_add_self_ne_none _ "x")
  refine ⟨hsentence, hnesting, hknown, fun _ => rfl, rfl, ?_⟩
  exact compile_eq_ok_of_width_le (fun _ => 0) hsentence hnesting
    (fun name hname => .inr (hknown name hname))
    (compile_ne_symbolAllocation hsentence hnesting hknown) (by decide)

/-- The plain code of the sum of `pi` and a variable takes eleven units, and yet it is not compiled
where there are eleven: `pi` is folded to a number of nine units, which leaves two. -/
theorem compile_eq_error_constant_add_var :
    let o : CompileOptions := ⟨false, 64, 30⟩
    let w : Workplace := ⟨(SymbolTable.withBuckets 1).add "x", .empty 11⟩
    let t : Tree := .binary .add (.constant .pi) (.var "x" 3)
    Sentence "pi+x" t ∧ t.nesting ≤ o.nestingLimit ∧
      (∀ name ∈ t.expr.names, w.symbols.lookup name ≠ none) ∧
      (∀ indexOf, Program.totalWidth (t.expr.code indexOf) = 11) ∧ w.program.capacity = 11 ∧
      ∃ w', compile o "pi+x" w = .error (.programTooLarge 11) w' := by
  have hemit : Compilation.folding ⟨false, 64, 30⟩
      (emitAll ⟨false, 64, 30⟩ [.binary .add (.constant .pi) (.var "x" 3)])
      ⟨(SymbolTable.withBuckets 1).add "x", .empty 11⟩ =
      .error (.programTooLarge 11)
        ⟨(SymbolTable.withBuckets 1).add "x", ⟨#[.const Constant.pi.value], 9, 11⟩⟩ := by rfl
  intro o w t
  have hsentence : Sentence "pi+x" t := sentence_constant_add_var
  have hnesting : t.nesting ≤ o.nestingLimit := by decide
  refine ⟨hsentence, hnesting, ?_, fun _ => rfl, rfl, ?_⟩
  · exact List.forall_mem_singleton.2 (SymbolTable.lookup_add_self_ne_none _ "x")
  · obtain ⟨c, hread, -⟩ := exists_read_of_sentence hsentence hnesting
    have hfolding : Compilation.folding o (emitAll o [t.expr]) w.clear = _ := hemit
    rw [compile_apply, hread]
    dsimp only
    rw [hfolding]
    exact ⟨_, rfl⟩

end Reckon.Expr
