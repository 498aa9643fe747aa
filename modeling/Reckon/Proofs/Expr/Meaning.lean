import Reckon.Proofs.Expr.Compilation

/-!
# Compilation preserves the meaning

The plain code of an expression leaves its value on the stack (`steps_code`).  The program that a
compilation makes refines the plain code, however much of it was folded, so that it computes the
value of the expression wherever the plain code runs.
-/

namespace Reckon.Expr

open Instruction

/-- The plain code of an expression leaves the value of the expression on the stack. -/
theorem steps_code {values : ℕ → Float} {capacity : ℕ} {indexOf : String → ℕ} {e : Expr}
    {stack s : List Float} (h : steps values capacity (e.code indexOf) stack = .ok s) :
    s = e.eval (fun name => values (indexOf name)) :: stack := by
  induction e generalizing stack s with
  | number x | constant c | var name position =>
    obtain ⟨t, hstep, hrest⟩ := steps_cons_eq_ok_iff.1 h
    rw [steps_nil_eq_ok_iff.1 hrest]
    exact (push_eq_ok_iff.1 hstep).2
  | unary f operand ih =>
    obtain ⟨t, hoperand, hrest⟩ := steps_append_eq_ok_iff.1 h
    rw [ih hoperand] at hrest
    obtain ⟨u, hstep, hrest⟩ := steps_cons_eq_ok_iff.1 hrest
    rw [steps_nil_eq_ok_iff.1 hrest]
    cases hstep
    rfl
  | binary f left right ihleft ihright =>
    obtain ⟨t, hoperands, hrest⟩ := steps_append_eq_ok_iff.1 h
    obtain ⟨u, hleft, hright⟩ := steps_append_eq_ok_iff.1 hoperands
    rw [ihleft hleft] at hright
    rw [ihright hright] at hrest
    obtain ⟨v, hstep, hrest⟩ := steps_cons_eq_ok_iff.1 hrest
    rw [steps_nil_eq_ok_iff.1 hrest]
    cases hstep
    rfl
  | choice test yes no ihtest ihyes ihno =>
    obtain ⟨t, hoperands, hrest⟩ := steps_append_eq_ok_iff.1 h
    obtain ⟨u, hbranches, hno⟩ := steps_append_eq_ok_iff.1 hoperands
    obtain ⟨v, htest, hyes⟩ := steps_append_eq_ok_iff.1 hbranches
    rw [ihtest htest] at hyes
    rw [ihyes hyes] at hno
    rw [ihno hno] at hrest
    obtain ⟨r, hstep, hrest⟩ := steps_cons_eq_ok_iff.1 hrest
    rw [steps_nil_eq_ok_iff.1 hrest]
    cases hstep
    rfl

/-- A source that is compiled has exactly one derivation.  With the indexes that its variables have
then, and for all values of the variables and every capacity of the stack with which the plain code
of the expression runs, the program runs too, and it computes the value of the expression. -/
theorem run_compiled {o : CompileOptions} {source : String} {w w' : Workplace}
    {summary : Program.Summary} (h : compile o source w = .ok summary w') :
    ∃ t : Tree, Sentence source t ∧ (∀ u, Sentence source u → u = t) ∧
      ∃ indexOf : String → ℕ,
        (∀ name ∈ t.expr.names, w'.symbols.lookup name = some (indexOf name)) ∧
        ∀ (values : ℕ → Float) (capacity : ℕ) (x : Float),
          Instruction.run values capacity (t.expr.code indexOf) = .ok x →
          w'.program.run values capacity = .ok x ∧
            x = t.expr.eval fun name => values (indexOf name) := by
  obtain ⟨t, hsentence, -, hemitted⟩ := emitted_of_compile_eq_ok h
  obtain ⟨emitted, hcode, -, hrefines⟩ := hemitted.exists_code
  have hindex : ∀ name ∈ t.expr.names,
      w'.symbols.lookup name = some ((w'.symbols.lookup name).getD 0) := by
    intro name hname
    obtain ⟨index, hlookup⟩ := Option.ne_none_iff_exists'.1 (hemitted.lookup_ne_none name hname)
    rw [hlookup]
    rfl
  refine ⟨t, hsentence, fun u hu => hu.unique hsentence, _, hindex, ?_⟩
  intro values capacity x hrun
  have hprogram : w'.program.code.toList = emitted := hcode
  constructor
  · rw [Program.run, hprogram]
    exact (hrefines _ hindex).run hrun
  · have hvalue := steps_code (run_eq_ok_iff.1 hrun)
    exact (List.cons.inj hvalue).1

/-- The sum of `pi` and a known variable is compiled to a program that computes this sum. -/
theorem run_compiled_constant_add_var :
    let o : CompileOptions := ⟨false, 64, 30⟩
    let w : Workplace := ⟨(SymbolTable.withBuckets 1).add "x", .empty 1024⟩
    ∃ summary w', compile o "pi+x" w = .ok summary w' ∧ ∃ indexOf : String → ℕ,
      ∀ values : ℕ → Float,
        w'.program.run values 2 = .ok (Constant.pi.value + values (indexOf "x")) := by
  intro o w
  have hsentence := sentence_constant_add_var
  have hknown : ∀ name ∈ ["x"], w.symbols.lookup name ≠ none :=
    List.forall_mem_singleton.2 (SymbolTable.lookup_add_self_ne_none _ "x")
  obtain ⟨summary, w', hcompile⟩ := exists_compile_eq_ok (o := o) (w := w) hsentence (by decide)
    (by decide) (fun name hname => .inr (hknown name hname))
    (compile_ne_symbolAllocation hsentence (by decide) hknown)
  obtain ⟨t, ht, hunique, indexOf, -, hrun⟩ := run_compiled hcompile
  refine ⟨summary, w', hcompile, indexOf, fun values => ?_⟩
  obtain rfl := hunique _ hsentence
  exact (hrun values 2 _ rfl).1

end Reckon.Expr
