import Reckon.Proofs.Expr.Advance
import Reckon.Proofs.Expr.Compilation
import Reckon.Proofs.Expr.Room

/-!
# What folding leaves of an expression

However much is folded on the way, what the compilation of an expression appends is the plain code
of an expression again: of one in which some parts without variables are replaced by their values
(`Expr.FoldsTo`, `Expr.exists_foldsTo_of_emit`).  So compiled code mentions the same variables in
the same order, never lacks an operand, and leaves one value on the stack.
-/

namespace Reckon

open Outcome Instruction Compilation

namespace Compilation

variable {o : CompileOptions} {body : Compilation Unit} {i : Instruction} {w w' : Workplace}

/-- An instruction is emitted into the program, and nothing else changes. -/
lemma emit_eq_ok_iff : Compilation.emit i w = .ok () w' ↔
    ∃ p, Program.emit w.program i = .ok p ∧ w' = { w with program := p } := by
  unfold Compilation.emit
  cases w.program.emit i with
  | ok p => simp [eq_comm]
  | error e => simp

/-- Folding is done on the program that the body leaves. -/
lemma folding_eq_ok_iff : folding o body w = .ok () w' ↔ ∃ w₁, body w = .ok () w₁ ∧
    w' = { w₁ with program :=
      w₁.program.fold w₁.symbols.value o.stackCapacity w.program.code.toList.length } := by
  have hsize : w.program.size = w.program.code.toList.length := Array.length_toList.symm
  rw [← hsize]
  constructor
  · intro h
    obtain ⟨_, w₁, hget, h⟩ := bind_eq_ok_iff.1 h
    obtain ⟨_, w₂, hbody, hfold⟩ := bind_eq_ok_iff.1 h
    cases hget
    cases hfold
    exact ⟨w₂, hbody, rfl⟩
  · rintro ⟨w₁, hbody, rfl⟩
    exact bind_eq_ok_iff.2 ⟨w, w, rfl, bind_eq_ok_iff.2 ⟨(), w₁, hbody, rfl⟩⟩

end Compilation

namespace Expr

section Steps

variable {o : CompileOptions} {w w' : Workplace} {operand left right test yes no : Expr}

/-! ## The steps of an emission -/

/-- A named constant is compiled by emitting and folding its instruction. -/
lemma exists_of_emit_constant {c : Constant} (h : (constant c).emit o w = .ok () w') :
    ∃ p, Program.emit w.program (.named c) = .ok p ∧
      w' = { w with
        program := p.fold w.symbols.value o.stackCapacity w.program.code.toList.length } := by
  obtain ⟨w₁, hemit, rfl⟩ := folding_eq_ok_iff.1 h
  obtain ⟨p, hp, rfl⟩ := emit_eq_ok_iff.1 hemit
  exact ⟨p, hp, rfl⟩

/-- An operator with one operand is compiled behind it. -/
lemma exists_of_emit_unary {f : UnaryOp} (h : (unary f operand).emit o w = .ok () w') :
    ∃ w₁ p, operand.emit o w = .ok () w₁ ∧ Program.emit w₁.program (.unary f) = .ok p ∧
      w' = { w₁ with
        program := p.fold w₁.symbols.value o.stackCapacity w.program.code.toList.length } := by
  obtain ⟨w₂, hbody, rfl⟩ := folding_eq_ok_iff.1 h
  obtain ⟨_, w₁, hoperand, hemit⟩ := bind_eq_ok_iff.1 hbody
  obtain ⟨p, hp, rfl⟩ := emit_eq_ok_iff.1 hemit
  exact ⟨w₁, p, hoperand, hp, rfl⟩

/-- An operator with two operands is compiled behind both. -/
lemma exists_of_emit_binary {f : BinaryOp} (h : (binary f left right).emit o w = .ok () w') :
    ∃ w₁ w₂ p, left.emit o w = .ok () w₁ ∧ right.emit o w₁ = .ok () w₂ ∧
      Program.emit w₂.program (.binary f) = .ok p ∧
      w' = { w₂ with
        program := p.fold w₂.symbols.value o.stackCapacity w.program.code.toList.length } := by
  obtain ⟨w₃, hbody, rfl⟩ := folding_eq_ok_iff.1 h
  obtain ⟨_, w₁, hleft, hrest⟩ := bind_eq_ok_iff.1 hbody
  obtain ⟨_, w₂, hright, hemit⟩ := bind_eq_ok_iff.1 hrest
  obtain ⟨p, hp, rfl⟩ := emit_eq_ok_iff.1 hemit
  exact ⟨w₁, w₂, p, hleft, hright, hp, rfl⟩

/-- A choice is compiled behind its three parts. -/
lemma exists_of_emit_choice (h : (choice test yes no).emit o w = .ok () w') :
    ∃ w₁ w₂ w₃ p, test.emit o w = .ok () w₁ ∧ yes.emit o w₁ = .ok () w₂ ∧
      no.emit o w₂ = .ok () w₃ ∧ Program.emit w₃.program .choice = .ok p ∧
      w' = { w₃ with
        program := p.fold w₃.symbols.value o.stackCapacity w.program.code.toList.length } := by
  obtain ⟨w₄, hbody, rfl⟩ := folding_eq_ok_iff.1 h
  obtain ⟨_, w₁, htest, hrest⟩ := bind_eq_ok_iff.1 hbody
  obtain ⟨_, w₂, hyes, hrest⟩ := bind_eq_ok_iff.1 hrest
  obtain ⟨_, w₃, hno, hemit⟩ := bind_eq_ok_iff.1 hrest
  obtain ⟨p, hp, rfl⟩ := emit_eq_ok_iff.1 hemit
  exact ⟨w₁, w₂, w₃, p, htest, hyes, hno, hp, rfl⟩

end Steps

/-- The value of an expression without variables is the same for all values of variables. -/
lemma eval_of_names_eq_nil {e : Expr} (h : e.names = []) (u v : String → Float) :
    e.eval u = e.eval v := by
  refine eval_congr fun name hname => ?_
  rw [h] at hname
  exact absurd hname List.not_mem_nil

/-- The plain code of an expression reads no variable exactly if the expression mentions none. -/
lemma any_readsVariable_code (indexOf : String → ℕ) (e : Expr) :
    (e.code indexOf).any readsVariable = false ↔ e.names = [] := by
  rw [any_readsVariable_eq_false_iff, filterMap_loaded_code, List.map_eq_nil_iff]

/-- Whether an expression comes from another by replacing some parts without variables by their
values. -/
inductive FoldsTo : Expr → Expr → Prop
  | refl (e : Expr) : FoldsTo e e
  | value {e : Expr} : e.names = [] → FoldsTo e (number (e.eval fun _ => 0))
  | unary {f : UnaryOp} {operand operand' : Expr} :
      FoldsTo operand operand' → FoldsTo (unary f operand) (unary f operand')
  | binary {f : BinaryOp} {left left' right right' : Expr} : FoldsTo left left' →
      FoldsTo right right' → FoldsTo (binary f left right) (binary f left' right')
  | choice {test test' yes yes' no no' : Expr} : FoldsTo test test' → FoldsTo yes yes' →
      FoldsTo no no' → FoldsTo (choice test yes no) (choice test' yes' no')

namespace FoldsTo

variable {e e' : Expr}

/-- The variables stay, in their order. -/
lemma names_eq (h : FoldsTo e e') : e'.names = e.names := by
  induction h with
  | refl => rfl
  | value hnames => rw [hnames, names]
  | unary _ ih => exact ih
  | binary _ _ ihleft ihright => rw [names, names, ihleft, ihright]
  | choice _ _ _ ihtest ihyes ihno => rw [names, names, ihtest, ihyes, ihno]

/-- The value stays. -/
lemma eval_eq (h : FoldsTo e e') (values : String → Float) : e'.eval values = e.eval values := by
  induction h with
  | refl => rfl
  | value hnames =>
    exact eval_of_names_eq_nil hnames _ _
  | unary _ ih => rw [eval, eval, ih]
  | binary _ _ ihleft ihright => rw [eval, eval, ihleft, ihright]
  | choice _ _ _ ihtest ihyes ihno => rw [eval, eval, ihtest, ihyes, ihno]

end FoldsTo

variable {o : CompileOptions} {e e₀ : Expr} {w w' : Workplace} {p : Program}
  {before : List Instruction} {indexOf : String → ℕ}

/-- Folding the code of an expression leaves the code of one that is folded further. -/
lemma exists_foldsTo_fold (hcode : p.code.toList = before ++ e₀.code indexOf) (h : FoldsTo e e₀)
    (values : ℕ → Float) (stackCapacity : ℕ) :
    ∃ e', FoldsTo e e' ∧
      (p.fold values stackCapacity before.length).code.toList = before ++ e'.code indexOf := by
  rcases p.fold_cases values stackCapacity before.length with
    hsame | ⟨x, hvariables, hrun, -, hfold⟩
  · rw [hsame]
    exact ⟨e₀, h, hcode⟩
  · have hfrom : p.codeFrom before.length = e₀.code indexOf := by
      rw [Program.codeFrom_eq_drop, hcode, List.drop_left]
    rw [hfrom, any_readsVariable_code, h.names_eq] at hvariables
    rw [hfrom] at hrun
    have hx : x = e.eval fun _ => 0 := by
      rw [eq_eval_of_run_code hrun, h.eval_eq]
      exact eval_of_names_eq_nil hvariables _ _
    refine ⟨number x, ?_, ?_⟩
    · rw [hx]
      exact .value hvariables
    · rw [hfold]
      exact Program.toList_replaceFrom hcode (.const x)

/-- What the compilation of an expression appends is the plain code of the expression with some
parts folded.  The indexes are those that its names have afterwards. -/
theorem exists_foldsTo_of_emit (hw : w.program.IsConsistent) (h : e.emit o w = .ok () w')
    (hindex : ∀ name ∈ e.names, w'.symbols.lookup name = some (indexOf name)) :
    ∃ e', FoldsTo e e' ∧ w'.program.code.toList = w.program.code.toList ++ e'.code indexOf := by
  induction e generalizing w w' with
  | number x =>
    obtain ⟨p, hp, rfl⟩ := emit_eq_ok_iff.1 h
    exact ⟨number x, .refl _, (hw.emit hp).2.1⟩
  | var name position =>
    obtain ⟨index, w₁, hresolve, hemit⟩ := bind_eq_ok_iff.1 h
    obtain ⟨p, hp, rfl⟩ := emit_eq_ok_iff.1 hemit
    obtain ⟨hprogram, -, -, hlookup⟩ := resolved_of_resolve hresolve
    have hname := hindex name List.mem_cons_self
    rw [hlookup] at hname
    refine ⟨var name position, .refl _, ?_⟩
    rw [code, ← Option.some.inj hname, ← hprogram]
    exact ((hprogram ▸ hw).emit hp).2.1
  | constant c =>
    obtain ⟨p, hp, rfl⟩ := exists_of_emit_constant h
    exact exists_foldsTo_fold (hw.emit hp).2.1 (.refl (constant c)) _ _
  | unary f operand ih =>
    obtain ⟨w₁, p, hoperand, hp, rfl⟩ := exists_of_emit_unary h
    have hemitted := (emits_emit o operand).ok hw hoperand
    obtain ⟨operand', hfolds, hcode⟩ := ih hw hoperand hindex
    have hwhole : p.code.toList =
        w.program.code.toList ++ (unary f operand').code indexOf := by
      rw [(hemitted.isConsistent.emit hp).2.1, hcode, code, List.append_assoc]
    exact exists_foldsTo_fold hwhole (.unary hfolds) _ _
  | binary f left right ihleft ihright =>
    obtain ⟨w₁, w₂, p, hleft, hright, hp, rfl⟩ := exists_of_emit_binary h
    have hfirst := (emits_emit o left).ok hw hleft
    have hsecond := (emits_emit o right).ok hfirst.isConsistent hright
    have hnames := List.forall_mem_append.1 hindex
    obtain ⟨left', hleft', hcode⟩ :=
      ihleft hw hleft (hfirst.lookup_eq hsecond.extendsSymbols hnames.1)
    obtain ⟨right', hright', hcode'⟩ := ihright hfirst.isConsistent hright hnames.2
    have hwhole : p.code.toList =
        w.program.code.toList ++ (binary f left' right').code indexOf := by
      rw [(hsecond.isConsistent.emit hp).2.1, hcode', hcode, code]
      simp only [List.append_assoc]
    exact exists_foldsTo_fold hwhole (.binary hleft' hright') _ _
  | choice test yes no ihtest ihyes ihno =>
    obtain ⟨w₁, w₂, w₃, p, htest, hyes, hno, hp, rfl⟩ := exists_of_emit_choice h
    have hfirst := (emits_emit o test).ok hw htest
    have hsecond := (emits_emit o yes).ok hfirst.isConsistent hyes
    have hthird := (emits_emit o no).ok hsecond.isConsistent hno
    have hnames := List.forall_mem_append.1 hindex
    have hnames' := List.forall_mem_append.1 hnames.1
    obtain ⟨test', htest', hcode⟩ := ihtest hw htest
      (hfirst.lookup_eq (hthird.extendsSymbols.trans hsecond.extendsSymbols) hnames'.1)
    obtain ⟨yes', hyes', hcode'⟩ := ihyes hfirst.isConsistent hyes
      (hsecond.lookup_eq hthird.extendsSymbols hnames'.2)
    obtain ⟨no', hno', hcode''⟩ := ihno hsecond.isConsistent hno hnames.2
    have hwhole : p.code.toList =
        w.program.code.toList ++ (choice test' yes' no').code indexOf := by
      rw [(hthird.isConsistent.emit hp).2.1, hcode'', hcode', hcode, code]
      simp only [List.append_assoc]
    exact exists_foldsTo_fold hwhole (.choice htest' hyes' hno') _ _

/-! ## Whole sources -/

variable {source : String} {summary : Program.Summary}

/-- A source that is compiled is a sentence.  Its expression is emitted into the empty program and
folded once more as a whole. -/
lemma exists_emit_of_compile (h : compile o source w = .ok summary w') :
    ∃ t w₁, Sentence source t ∧ t.expr.emit o w.clear = .ok () w₁ ∧
      w' = { w₁ with program := w₁.program.fold w₁.symbols.value o.stackCapacity 0 } ∧
      summary = w'.program.summary := by
  rw [compile_apply] at h
  split at h
  · rename_i s hread
    obtain ⟨t, -, hdone, hsentence⟩ := sentence_of_read hread
    rw [hdone] at h
    split at h
    · rename_i w₂ hfolding
      split at h
      · rename_i hend
        cases h
        obtain ⟨w₁, hall, hfold⟩ := folding_eq_ok_iff.1 hfolding
        obtain ⟨_, w₃, hemit, hpure⟩ := bind_eq_ok_iff.1 hall
        cases hpure
        exact ⟨t, w₁, hsentence hend, hemit, hfold, rfl⟩
      · cases h
    · cases h
  · split at h <;> cases h

/-- A compilation that fails leaves an empty program. -/
lemma code_eq_nil_of_compile_eq_error {e : Error} (h : compile o source w = .error e w') :
    w'.program.code.toList = [] := by
  have hcleared : ∃ w₁ : Workplace, w' = w₁.clear := by
    rw [compile_apply] at h
    split at h
    · split at h
      · split at h
        · cases h
        · cases h
          exact ⟨_, rfl⟩
      · cases h
        exact ⟨_, rfl⟩
    · split at h
      · cases h
        exact ⟨_, rfl⟩
      · cases h
        exact ⟨_, rfl⟩
  obtain ⟨w₁, rfl⟩ := hcleared
  rfl

/-- The account of the width of a program that is compiled is right and within the capacity. -/
lemma isValid_of_compile (h : compile o source w = .ok summary w') : w'.program.IsValid := by
  obtain ⟨t, w₁, -, hemit, rfl, -⟩ := exists_emit_of_compile h
  exact (((moves_emit o t.expr).of_ok hemit).isValid (Program.isValid_clear _)).fold

/-- The program of a source that is compiled is the plain code of its expression with some parts
folded. -/
theorem exists_foldsTo_of_compile (h : compile o source w = .ok summary w') :
    ∃ t e' indexOf, Sentence source t ∧ FoldsTo t.expr e' ∧
      (∀ name ∈ t.expr.names, w'.symbols.lookup name = some (indexOf name)) ∧
      w'.program.code.toList = e'.code indexOf := by
  obtain ⟨t, w₁, hsentence, hemit, rfl, -⟩ := exists_emit_of_compile h
  have hclear : w.clear.program.IsConsistent := Program.isConsistent_clear _
  have hemitted := (emits_emit o t.expr).ok hclear hemit
  obtain ⟨indexOf, hindex⟩ := hemitted.exists_indexOf
  obtain ⟨e₁, hfolds, hcode⟩ := exists_foldsTo_of_emit hclear hemit hindex
  have hbefore : w₁.program.code.toList = [] ++ e₁.code indexOf := hcode
  obtain ⟨e', hfolds', hcode'⟩ :=
    exists_foldsTo_fold hbefore hfolds w₁.symbols.value o.stackCapacity
  exact ⟨t, e', indexOf, hsentence, hfolds', hindex, hcode'⟩

end Expr

end Reckon
