import Reckon.Proofs.Expr.Folding

/-!
# The code of the folded expression

With room to spare, what is compiled does not depend on the order in which it was folded: it is the
plain code of `Expr.folded`, in which every largest part without variables is one number.

The compilation goes from the leaves to the root.  When it folds the code of an operation, the code
of the operands is folded already.  If the operation mentions no variable, its operands are single
numbers by then, so that three places on the stack are enough to compute it, and the number that it
computes fits where the first operand stood (`Expr.toList_fold_eq_folded`).  If it does mention one,
its code loads a variable and stays.
-/

namespace Reckon

open Outcome Instruction Compilation

namespace Expr

/-! ## The folded expression -/

/-- An expression without variables is folded into its value. -/
lemma folded_of_names_eq_nil {e : Expr} (h : e.names = []) :
    e.folded = number (e.eval fun _ => 0) := by
  have hclosed : e.isClosed = true := List.isEmpty_iff.2 h
  unfold folded
  rw [if_pos hclosed]

/-- An expression with variables is not closed. -/
lemma not_isClosed {e : Expr} (h : e.names ≠ []) : ¬e.isClosed = true :=
  fun hclosed => h (List.isEmpty_iff.1 hclosed)

/-- Where there are variables, only the operand is folded. -/
lemma folded_unary {f : UnaryOp} {operand : Expr} (h : (unary f operand).names ≠ []) :
    (unary f operand).folded = unary f operand.folded := by
  rw [folded, if_neg (not_isClosed h)]

/-- Where there are variables, only the operands are folded. -/
lemma folded_binary {f : BinaryOp} {left right : Expr} (h : (binary f left right).names ≠ []) :
    (binary f left right).folded = binary f left.folded right.folded := by
  rw [folded, if_neg (not_isClosed h)]

/-- Where there are variables, only the three parts of a choice are folded. -/
lemma folded_choice {test yes no : Expr} (h : (choice test yes no).names ≠ []) :
    (choice test yes no).folded = choice test.folded yes.folded no.folded := by
  rw [folded, if_neg (not_isClosed h)]

/-- A folded number takes one place of the stack. -/
lemma room_folded {e : Expr} (h : e.names = []) : e.folded.room = 1 := by
  rw [folded_of_names_eq_nil h, room]

/-- Complete folding is folding. -/
lemma foldsTo_folded (e : Expr) : FoldsTo e e.folded := by
  induction e with
  | number x => exact .refl _
  | constant c => exact .value rfl
  | var name position => exact .refl _
  | unary f operand ih =>
    by_cases h : (unary f operand).names = []
    · rw [folded_of_names_eq_nil h]
      exact .value h
    · rw [folded_unary h]
      exact .unary ih
  | binary f left right ihleft ihright =>
    by_cases h : (binary f left right).names = []
    · rw [folded_of_names_eq_nil h]
      exact .value h
    · rw [folded_binary h]
      exact .binary ihleft ihright
  | choice test yes no ihtest ihyes ihno =>
    by_cases h : (choice test yes no).names = []
    · rw [folded_of_names_eq_nil h]
      exact .value h
    · rw [folded_choice h]
      exact .choice ihtest ihyes ihno

/-! ## What is emitted -/

variable {o : CompileOptions} {e e₀ : Expr} {w w' : Workplace} {p : Program}
  {before : List Instruction} {indexOf : String → ℕ}

/-- The number of instructions does not depend on the indexes. -/
lemma length_code_eq (indexOf indexOf' : String → ℕ) (e : Expr) :
    (e.code indexOf).length = (e.code indexOf').length := by
  induction e with
  | number x | constant c | var name position => rfl
  | unary f operand ih => simp only [code, List.length_append, ih]
  | binary f left right ihleft ihright => simp only [code, List.length_append, ihleft, ihright]
  | choice test yes no ihtest ihyes ihno =>
    simp only [code, List.length_append, ihtest, ihyes, ihno]

/-- An instruction of the plain code takes at most nine units. -/
lemma expandedWidth_le (indexOf : String → ℕ) (e : Expr) :
    e.expandedWidth ≤ 9 * (e.code indexOf).length := by
  induction e with
  | number x | constant c | var name position => exact Nat.le_refl 9
  | unary f operand ih =>
    rw [expandedWidth, code, List.length_append, List.length_singleton]
    omega
  | binary f left right ihleft ihright =>
    rw [expandedWidth, code, List.length_append, List.length_append, List.length_singleton]
    omega
  | choice test yes no ihtest ihyes ihno =>
    rw [expandedWidth, code, List.length_append, List.length_append, List.length_append,
      List.length_singleton]
    omega

/-- Folding code that is folded except for its last operation leaves it completely folded. -/
lemma toList_fold_eq_folded {values : ℕ → Float} {stackCapacity : ℕ}
    (hcode : p.code.toList = before ++ e₀.code indexOf) (hfolds : FoldsTo e e₀)
    (hroom : e.names = [] → e₀.room ≤ stackCapacity)
    (hwidth : Program.totalWidth before + 9 ≤ p.capacity) (hopen : e.names ≠ [] → e.folded = e₀) :
    (p.fold values stackCapacity before.length).code.toList =
      before ++ e.folded.code indexOf := by
  by_cases hnames : e.names = []
  · have hclosed : (e₀.code indexOf).any readsVariable = false :=
      (any_readsVariable_code indexOf e₀).2 (hfolds.names_eq.trans hnames)
    have hvalue : e₀.eval (fun name => values (indexOf name)) = e.eval fun _ => 0 :=
      (hfolds.eval_eq _).trans (eval_of_names_eq_nil hnames _ _)
    rw [Program.toList_fold_of_run hcode hclosed (run_code_of_room_le (hroom hnames)) hwidth,
      hvalue, folded_of_names_eq_nil hnames, code]
  · have hvariables : (p.codeFrom before.length).any readsVariable = true := by
      rw [Program.codeFrom_eq_drop, hcode, List.drop_left, ← Bool.not_eq_false,
        any_readsVariable_code, hfolds.names_eq]
      exact hnames
    rw [Program.fold_of_any_readsVariable hvariables, hcode, hopen hnames]

/-- Where there are nine units for every instruction of the plain code, there are nine. -/
lemma totalWidth_add_nine_le (hw : w.program.IsConsistent)
    (hcapacity : w.program.width + 9 * (e.code indexOf).length ≤ w.program.capacity) :
    Program.totalWidth w.program.code.toList + 9 ≤ w.program.capacity := by
  have hlength := (e.room_le indexOf).2
  rw [← hw]
  omega

/-- A part that was emitted leaves nine units for every instruction of the others. -/
lemma width_add_le (hw : w.program.IsConsistent) (h : e.emit o w = .ok () w') {n : ℕ}
    (hcapacity : w.program.width + 9 * ((e.code indexOf).length + n) ≤ w.program.capacity) :
    w'.program.width + 9 * n ≤ w'.program.capacity := by
  have hemitted := (emits_emit o e).ok hw h
  have hwidth := hemitted.width_le hw
  have hexpanded := e.expandedWidth_le indexOf
  rw [hemitted.capacity_eq]
  omega

/-- Where nine units are left for every instruction of the plain code, and three places on the
stack, the code of the folded expression is emitted. -/
theorem toList_emit_eq_folded (hstack : 3 ≤ o.stackCapacity) (hw : w.program.IsConsistent)
    (hcapacity : w.program.width + 9 * (e.code indexOf).length ≤ w.program.capacity)
    (h : e.emit o w = .ok () w')
    (hindex : ∀ name ∈ e.names, w'.symbols.lookup name = some (indexOf name)) :
    w'.program.code.toList = w.program.code.toList ++ e.folded.code indexOf := by
  induction e generalizing w w' with
  | number x =>
    obtain ⟨p, hp, rfl⟩ := emit_eq_ok_iff.1 h
    exact (hw.emit hp).2.1
  | var name position =>
    obtain ⟨e', hfolds, hcode⟩ := exists_foldsTo_of_emit hw h hindex
    rcases hfolds with _ | hnames
    · exact hcode
    · contradiction
  | constant c =>
    have hfit := totalWidth_add_nine_le hw hcapacity
    obtain ⟨p, hp, rfl⟩ := exists_of_emit_constant h
    obtain ⟨-, hcode, hcap⟩ := hw.emit hp
    have hwhole : p.code.toList = w.program.code.toList ++ (constant c).code indexOf := hcode
    refine toList_fold_eq_folded hwhole (.refl _) (fun _ => ?_) (hcap ▸ hfit)
      fun hopen => absurd rfl hopen
    rw [room]
    omega
  | unary f operand ih =>
    have hfit := totalWidth_add_nine_le hw hcapacity
    rw [code, List.length_append, List.length_singleton] at hcapacity
    obtain ⟨w₁, p, hoperand, hp, rfl⟩ := exists_of_emit_unary h
    have hemitted := (emits_emit o operand).ok hw hoperand
    obtain ⟨-, hcode, hcap⟩ := hemitted.isConsistent.emit hp
    have hwhole : p.code.toList =
        w.program.code.toList ++ (unary f operand.folded).code indexOf := by
      rw [hcode, ih hw (by omega) hoperand hindex, code, List.append_assoc]
    refine toList_fold_eq_folded hwhole (.unary (foldsTo_folded operand)) (fun hclosed => ?_)
      (hcap.trans hemitted.capacity_eq ▸ hfit) folded_unary
    have hnil : operand.names = [] := hclosed
    rw [room, room_folded hnil]
    omega
  | binary f left right ihleft ihright =>
    have hfit := totalWidth_add_nine_le hw hcapacity
    rw [code, List.append_assoc, List.length_append, List.length_append, List.length_singleton]
      at hcapacity
    obtain ⟨w₁, w₂, p, hleft, hright, hp, rfl⟩ := exists_of_emit_binary h
    have hfirst := (emits_emit o left).ok hw hleft
    have hsecond := (emits_emit o right).ok hfirst.isConsistent hright
    have hrest := width_add_le hw hleft hcapacity
    have hnames := List.forall_mem_append.1 hindex
    have hleftcode := ihleft hw (by omega) hleft
      (hfirst.lookup_eq hsecond.extendsSymbols hnames.1)
    have hrightcode := ihright hfirst.isConsistent (by omega) hright hnames.2
    obtain ⟨-, hcode, hcap⟩ := hsecond.isConsistent.emit hp
    have hwhole : p.code.toList =
        w.program.code.toList ++ (binary f left.folded right.folded).code indexOf := by
      rw [hcode, hrightcode, hleftcode, code]
      simp only [List.append_assoc]
    refine toList_fold_eq_folded hwhole (.binary (foldsTo_folded left) (foldsTo_folded right))
      (fun hclosed => ?_)
      (hcap.trans (hsecond.capacity_eq.trans hfirst.capacity_eq) ▸ hfit) folded_binary
    obtain ⟨hleftnil, hrightnil⟩ := List.append_eq_nil_iff.1 hclosed
    rw [room, room_folded hleftnil, room_folded hrightnil]
    omega
  | choice test yes no ihtest ihyes ihno =>
    have hfit := totalWidth_add_nine_le hw hcapacity
    rw [code, List.append_assoc, List.append_assoc, List.length_append, List.length_append,
      List.length_append, List.length_singleton] at hcapacity
    obtain ⟨w₁, w₂, w₃, p, htest, hyes, hno, hp, rfl⟩ := exists_of_emit_choice h
    have hfirst := (emits_emit o test).ok hw htest
    have hsecond := (emits_emit o yes).ok hfirst.isConsistent hyes
    have hthird := (emits_emit o no).ok hsecond.isConsistent hno
    have hrest := width_add_le hw htest hcapacity
    have hlast := width_add_le hfirst.isConsistent hyes hrest
    have hnames := List.forall_mem_append.1 hindex
    have hnames' := List.forall_mem_append.1 hnames.1
    have htestcode := ihtest hw (by omega) htest
      (hfirst.lookup_eq (hthird.extendsSymbols.trans hsecond.extendsSymbols) hnames'.1)
    have hyescode := ihyes hfirst.isConsistent (by omega) hyes
      (hsecond.lookup_eq hthird.extendsSymbols hnames'.2)
    have hnocode := ihno hsecond.isConsistent (by omega) hno hnames.2
    obtain ⟨-, hcode, hcap⟩ := hthird.isConsistent.emit hp
    have hwhole : p.code.toList =
        w.program.code.toList ++ (choice test.folded yes.folded no.folded).code indexOf := by
      rw [hcode, hnocode, hyescode, htestcode, code]
      simp only [List.append_assoc]
    refine toList_fold_eq_folded hwhole
      (.choice (foldsTo_folded test) (foldsTo_folded yes) (foldsTo_folded no)) (fun hclosed => ?_)
      (hcap.trans ((hthird.capacity_eq.trans hsecond.capacity_eq).trans hfirst.capacity_eq) ▸ hfit)
      folded_choice
    obtain ⟨hnil, hnonil⟩ := List.append_eq_nil_iff.1 hclosed
    obtain ⟨htestnil, hyesnil⟩ := List.append_eq_nil_iff.1 hnil
    rw [room, room_folded htestnil, room_folded hyesnil, room_folded hnonil]
    omega

/-! ## Whole sources -/

variable {source : String} {t : Tree}

/-- A sentence within the limit on the nesting, each of whose names is known or can be installed, is
compiled to the code of its folded expression, if there are nine units for every instruction of its
plain code and three places on the stack. -/
theorem exists_compile_eq_ok_folded (indexOf : String → ℕ) (h : Sentence source t)
    (hnesting : t.nesting ≤ o.nestingLimit)
    (hnames : ∀ name ∈ t.expr.names, o.autoInstall = true ∨ w.symbols.lookup name ≠ none)
    (halloc : ∀ name w', compile o source w ≠ .error (.symbolAllocation name) w')
    (hstack : 3 ≤ o.stackCapacity)
    (hcapacity : 9 * (t.expr.code indexOf).length ≤ w.program.capacity) :
    ∃ summary w' indexOf', compile o source w = .ok summary w' ∧
      (∀ name ∈ t.expr.names, w'.symbols.lookup name = some (indexOf' name)) ∧
      w'.program.code.toList = t.expr.folded.code indexOf' := by
  have hwidth : t.expr.expandedWidth ≤ w.program.capacity :=
    (t.expr.expandedWidth_le indexOf).trans hcapacity
  obtain ⟨summary, w', hcompile⟩ := exists_compile_eq_ok h hnesting hwidth hnames halloc
  obtain ⟨u, w₁, hsentence, hemit, rfl, -⟩ := exists_emit_of_compile hcompile
  obtain rfl := hsentence.unique h
  have hclear : w.clear.program.IsConsistent := Program.isConsistent_clear _
  have hemitted := (emits_emit o u.expr).ok hclear hemit
  obtain ⟨indexOf', hindex⟩ := hemitted.exists_indexOf
  have hroom : w.clear.program.width + 9 * (u.expr.code indexOf').length ≤
      w.clear.program.capacity := by
    rw [w.width_clear, w.capacity_clear, length_code_eq indexOf' indexOf, Nat.zero_add]
    exact hcapacity
  have hcode : w₁.program.code.toList = [] ++ u.expr.folded.code indexOf' :=
    toList_emit_eq_folded hstack hclear hroom hemit hindex
  refine ⟨summary, _, indexOf', hcompile, hindex, ?_⟩
  -- The whole is folded once more, which leaves it as it is.
  have hfit := totalWidth_add_nine_le hclear hroom
  rw [← hemitted.capacity_eq] at hfit
  refine toList_fold_eq_folded hcode (foldsTo_folded u.expr) (fun hclosed => ?_) hfit fun _ => rfl
  rw [room_folded hclosed]
  omega

/-- The sum of `pi` and a variable is compiled to three instructions, the first of which pushes a
number, where there are nine units for each of them. -/
theorem compile_eq_ok_of_twenty_seven_units :
    let o : CompileOptions := ⟨false, 64, 3⟩
    let w : Workplace := ⟨(SymbolTable.withBuckets 1).add "x", .empty 27⟩
    let t : Tree := .binary .add (.constant .pi) (.var "x" 3)
    Sentence "pi+x" t ∧ t.nesting ≤ o.nestingLimit ∧
      (∀ name ∈ t.expr.names, w.symbols.lookup name ≠ none) ∧ 3 ≤ o.stackCapacity ∧
      9 * (t.expr.code fun _ => 0).length ≤ w.program.capacity ∧
      ∃ summary w' index, compile o "pi+x" w = .ok summary w' ∧
        w'.program.code.toList = [.const Constant.pi.value, .load index, .binary .add] := by
  intro o w t
  have hsentence : Sentence "pi+x" t := sentence_constant_add_var
  have hnesting : t.nesting ≤ o.nestingLimit := by decide
  have hknown : ∀ name ∈ t.expr.names, w.symbols.lookup name ≠ none :=
    List.forall_mem_singleton.2 (SymbolTable.lookup_add_self_ne_none _ "x")
  have hcapacity : 9 * (t.expr.code fun _ => 0).length ≤ w.program.capacity := by decide
  refine ⟨hsentence, hnesting, hknown, Nat.le_refl 3, hcapacity, ?_⟩
  obtain ⟨summary, w', indexOf, hcompile, -, hcode⟩ :=
    exists_compile_eq_ok_folded (o := o) (w := w) (fun _ => 0) hsentence hnesting
      (fun name hname => .inr (hknown name hname))
      (compile_ne_symbolAllocation hsentence hnesting hknown) (Nat.le_refl 3) hcapacity
  exact ⟨summary, w', indexOf "x", hcompile, hcode⟩

end Expr

end Reckon
