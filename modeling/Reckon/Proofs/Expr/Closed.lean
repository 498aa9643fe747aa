import Reckon.Proofs.Expr.Advance
import Reckon.Proofs.Expr.Folding

/-!
# Expressions without variables

An expression without variables is compiled to a single constant, as soon as the program has room
for a constant at all and the stack for seven numbers.

Where nine units are left, the code of every part becomes one constant, by induction: the first
operand has become one, and the others have too, or there is no room for them to.  In the latter
case their code takes less than nine units.  So it is at most eight instructions long and needs at
most five places on the stack, and the run that folds the whole needs at most seven.
-/

namespace Reckon

open Outcome Instruction

namespace Instruction

/-- Every instruction takes a unit. -/
lemma length_le_totalWidth (code : List Instruction) : code.length ≤ Program.totalWidth code := by
  induction code with
  | nil => exact Nat.le_refl 0
  | cons i code ih =>
    have hwidth : 1 ≤ i.width := by cases i <;> simp [width]
    rw [List.length_cons, Program.totalWidth]
    omega

end Instruction

namespace Expr

open Compilation

variable {o : CompileOptions} {e : Expr} {w w' : Workplace} {p : Program}
  {before : List Instruction} {indexOf : String → ℕ}

/-- Code of less than nine units needs at most five places on the stack. -/
lemma room_le_five (indexOf : String → ℕ) (h : Program.totalWidth (e.code indexOf) < 9) :
    e.room ≤ 5 := by
  have hroom := (e.room_le indexOf).1
  have hlength := length_le_totalWidth (e.code indexOf)
  omega

/-- Where nine units are left and there is room on the stack, folding leaves a constant of an
expression without variables. -/
lemma exists_const_of_room_le {values : ℕ → Float} (hw : w.program.IsValid)
    (hfit : w.program.width + 9 ≤ w.program.capacity) (hcapacity : p.capacity = w.program.capacity)
    (hcode : p.code.toList = w.program.code.toList ++ e.code indexOf) (hnames : e.names = [])
    (hroom : e.room ≤ o.stackCapacity) :
    ∃ x, (p.fold values o.stackCapacity w.program.code.toList.length).code.toList =
      w.program.code.toList ++ [.const x] := by
  rw [hw.isConsistent, ← hcapacity] at hfit
  exact ⟨_, Program.toList_fold_of_run hcode ((any_readsVariable_code indexOf e).2 hnames)
    (run_code_of_room_le hroom) hfit⟩

/-- What is emitted for an expression without variables needs at most five places on the stack: it
is a constant where nine units are left, and takes less than nine units where they are not. -/
lemma exists_room_le_five (indexOf : String → ℕ) (hw : w.program.IsValid) (hnames : e.names = [])
    (h : e.emit o w = .ok () w')
    (hconst : w.program.width + 9 ≤ w.program.capacity →
      ∃ x, w'.program.code.toList = w.program.code.toList ++ [.const x]) :
    ∃ e' : Expr, e'.names = [] ∧ e'.room ≤ 5 ∧
      w'.program.code.toList = w.program.code.toList ++ e'.code indexOf := by
  by_cases hfit : w.program.width + 9 ≤ w.program.capacity
  · obtain ⟨x, hcode⟩ := hconst hfit
    exact ⟨number x, rfl, Nat.le_add_left 1 4, hcode⟩
  · have hindex : ∀ name ∈ e.names, w'.symbols.lookup name = some (indexOf name) := by
      rw [hnames]
      exact nofun
    obtain ⟨e', hfolds, hcode⟩ := exists_foldsTo_of_emit hw.isConsistent h hindex
    have hadvances := (moves_emit o e).of_ok h
    have hvalid := hadvances.isValid hw
    have hwidth := hvalid.width_le
    rw [hvalid.isConsistent, hcode, Program.totalWidth_append, ← hw.isConsistent,
      hadvances.capacity_eq] at hwidth
    refine ⟨e', hfolds.names_eq.trans hnames, room_le_five indexOf ?_, hcode⟩
    omega

/-- Where nine units are left, a single constant is emitted for an expression without variables. -/
theorem exists_const_of_emit (ho : 7 ≤ o.stackCapacity) (hw : w.program.IsValid)
    (hfit : w.program.width + 9 ≤ w.program.capacity) (hnames : e.names = [])
    (h : e.emit o w = .ok () w') :
    ∃ x, w'.program.code.toList = w.program.code.toList ++ [.const x] := by
  induction e generalizing w w' with
  | number x =>
    obtain ⟨p, hp, rfl⟩ := emit_eq_ok_iff.1 h
    exact ⟨x, (hw.isConsistent.emit hp).2.1⟩
  | var name position => exact nomatch hnames
  | constant c =>
    obtain ⟨p, hp, rfl⟩ := exists_of_emit_constant h
    obtain ⟨-, hcode, hcapacity⟩ := hw.isConsistent.emit hp
    have hwhole : p.code.toList = w.program.code.toList ++ (constant c).code fun _ => 0 := hcode
    exact exists_const_of_room_le hw hfit hcapacity hwhole rfl (by rw [room]; omega)
  | unary f operand ih =>
    obtain ⟨w₁, p, hoperand, hp, rfl⟩ := exists_of_emit_unary h
    have hadvances := (moves_emit o operand).of_ok hoperand
    obtain ⟨x, hx⟩ := ih hw hfit hnames hoperand
    obtain ⟨-, hcode, hcapacity⟩ := (hadvances.isValid hw).isConsistent.emit hp
    have hwhole : p.code.toList =
        w.program.code.toList ++ (unary f (number x)).code fun _ => 0 := by
      rw [hcode, hx, List.append_assoc]
      rfl
    exact exists_const_of_room_le hw hfit (hcapacity.trans hadvances.capacity_eq) hwhole rfl
      (by rw [room, room]; omega)
  | binary f left right ihleft ihright =>
    obtain ⟨w₁, w₂, p, hleft, hright, hp, rfl⟩ := exists_of_emit_binary h
    have hfirst := (moves_emit o left).of_ok hleft
    have hsecond := (moves_emit o right).of_ok hright
    have hw₁ := hfirst.isValid hw
    obtain ⟨hleftnames, hrightnames⟩ := List.append_eq_nil_iff.1 hnames
    obtain ⟨x, hx⟩ := ihleft hw hfit hleftnames hleft
    obtain ⟨right', hright', hroom, hcode'⟩ := exists_room_le_five (fun _ => 0) hw₁ hrightnames
      hright fun hfit₁ => ihright hw₁ hfit₁ hrightnames hright
    obtain ⟨-, hcode, hcapacity⟩ := (hsecond.isValid hw₁).isConsistent.emit hp
    have hwhole : p.code.toList =
        w.program.code.toList ++ (binary f (number x) right').code fun _ => 0 := by
      rw [hcode, hcode', hx, code, code]
      simp only [List.append_assoc]
    exact exists_const_of_room_le hw hfit
      (hcapacity.trans (hfirst.trans hsecond).capacity_eq) hwhole hright'
      (by rw [room, room]; omega)
  | choice test yes no ihtest ihyes ihno =>
    obtain ⟨w₁, w₂, w₃, p, htest, hyes, hno, hp, rfl⟩ := exists_of_emit_choice h
    have hfirst := (moves_emit o test).of_ok htest
    have hsecond := (moves_emit o yes).of_ok hyes
    have hthird := (moves_emit o no).of_ok hno
    have hw₁ := hfirst.isValid hw
    have hw₂ := hsecond.isValid hw₁
    obtain ⟨hnames, hnonames⟩ := List.append_eq_nil_iff.1 hnames
    obtain ⟨htestnames, hyesnames⟩ := List.append_eq_nil_iff.1 hnames
    obtain ⟨x, hx⟩ := ihtest hw hfit htestnames htest
    obtain ⟨yes', hyes', hyesroom, hcode'⟩ := exists_room_le_five (fun _ => 0) hw₁ hyesnames
      hyes fun hfit₁ => ihyes hw₁ hfit₁ hyesnames hyes
    obtain ⟨no', hno', hnoroom, hcode''⟩ := exists_room_le_five (fun _ => 0) hw₂ hnonames
      hno fun hfit₂ => ihno hw₂ hfit₂ hnonames hno
    obtain ⟨-, hcode, hcapacity⟩ := (hthird.isValid hw₂).isConsistent.emit hp
    have hwhole : p.code.toList =
        w.program.code.toList ++ (choice (number x) yes' no').code fun _ => 0 := by
      rw [hcode, hcode'', hcode', hx, code, code]
      simp only [List.append_assoc]
    have hwholenames : (choice (number x) yes' no').names = [] := by
      rw [names, hyes', hno']
      rfl
    exact exists_const_of_room_le hw hfit
      (hcapacity.trans ((hfirst.trans hsecond).trans hthird).capacity_eq) hwhole hwholenames
      (by rw [room, room]; omega)

variable {source : String} {summary : Program.Summary}

/-- A program that is compiled and reads no variable comes from an expression that mentions none. -/
lemma names_eq_nil_of_variableCount_eq_zero {t : Expr} {e' : Expr}
    (hcode : p.code.toList = e'.code indexOf) (hfolds : FoldsTo t e')
    (hvariables : p.variableCount = 0) : t.names = [] := by
  rw [Program.variableCount, List.length_eq_zero_iff, hcode, filterMap_loaded_code,
    hfolds.names_eq] at hvariables
  cases hnames : t.names with
  | nil => rfl
  | cons name names =>
    rw [hnames, List.map_cons, List.eraseDups_cons] at hvariables
    exact nomatch hvariables

/-- A source without variables is compiled to one constant, the value of its expression, wherever
the program can hold a constant and seven numbers can be on the stack. -/
theorem code_eq_const_of_variableCount_eq_zero (hcapacity : 9 ≤ w.program.capacity)
    (hstack : 7 ≤ o.stackCapacity) (h : compile o source w = .ok summary w')
    (hvariables : summary.variableCount = 0) :
    ∃ t x, Sentence source t ∧ x = t.expr.eval (fun _ => 0) ∧
      w'.program.code.toList = [.const x] ∧ w'.program.asConstant? = some x ∧
      summary.size = 1 ∧ summary.width = 9 := by
  obtain ⟨t, e', indexOf, hsentence, hfolds, -, hcode⟩ := exists_foldsTo_of_compile h
  have hvalid := isValid_of_compile h
  obtain ⟨u, w₁, hsentence', hemit, rfl, rfl⟩ := exists_emit_of_compile h
  obtain rfl := hsentence'.unique hsentence
  have hnames := names_eq_nil_of_variableCount_eq_zero hcode hfolds hvariables
  have hclear : w.clear.program.IsValid := Program.isValid_clear _
  have hfit : w.clear.program.width + 9 ≤ w.clear.program.capacity := by
    rw [w.width_clear, w.capacity_clear]
    omega
  obtain ⟨y, hy⟩ := exists_const_of_emit hstack hclear hfit hnames hemit
  -- The whole is folded once more, which leaves a constant.
  have hwhole : w₁.program.code.toList =
      w.clear.program.code.toList ++ (number y).code indexOf := hy
  have hfolded : ∃ x, (w₁.program.fold w₁.symbols.value o.stackCapacity 0).code.toList =
      [.const x] :=
    exists_const_of_room_le hclear hfit ((moves_emit o u.expr).of_ok hemit).capacity_eq hwhole rfl
      (by rw [room]; omega)
  obtain ⟨x, hx⟩ := hfolded
  dsimp only at hcode hvalid
  rw [hx] at hcode
  have hrun : Instruction.run (fun _ => 0) 1 (e'.code indexOf) = .ok x := by
    rw [← hcode]
    rfl
  have hvalue : x = u.expr.eval fun _ => 0 := by
    rw [eq_eval_of_run_code hrun, hfolds.eval_eq]
  have hsize := congrArg List.length hx
  have hwidth := hvalid.isConsistent
  rw [Program.IsConsistent, hx] at hwidth
  refine ⟨u, x, hsentence, hvalue, hx, ?_, ?_, hwidth⟩
  · rw [Program.asConstant?, hx]
  · rw [Array.length_toList] at hsize
    exact hsize

lemma sentence_pi_add_e : Sentence "pi+e" (.binary .add (.constant .pi) (.constant .e)) := by
  have hpi : ("pi", .constant .pi) ∈ Builtin.dictionary := by decide
  have he : ("e", .constant .e) ∈ Builtin.dictionary := by decide
  have hleft : Derives (.level (levels.drop 8)) [⟨.name "pi", 0⟩] (.constant .pi) :=
    Derives.level_of_operand _ (.primary (.constant hpi))
  have hright : Derives (.level (levels.drop 9)) [⟨.name "e", 3⟩] (.constant .e) :=
    Derives.level_of_operand _ (.primary (.constant he))
  have hsum : Derives (.level (levels.drop 8))
      ([⟨.name "pi", 0⟩] ++ ⟨.symbol ['+'], 2⟩ :: [⟨.name "e", 3⟩])
      (.binary .add (.constant .pi) (.constant .e)) :=
    Derives.level_cons_iff.2 (.inr ⟨_, _, _, _, _, .add, 2, rfl, rfl, by decide, hleft, hright⟩)
  refine ⟨_, ⟨[], 4⟩, ?_, nofun, .simple (hsum.level_append (levels.take 8))⟩
  refine Lexes.cons_iff.2 ⟨by decide, by decide, ?_⟩
  refine Lexes.cons_iff.2 ⟨by decide, by decide, ?_⟩
  exact Lexes.cons_iff.2 ⟨by decide, by decide, Lexes.nil_iff.2 (by decide)⟩

/-- The sum of two named constants becomes one constant even where there is no room to fold the
second by itself. -/
theorem code_eq_const_of_eleven_units :
    let o : CompileOptions := ⟨false, 64, 7⟩
    let w : Workplace := ⟨SymbolTable.withBuckets 1, .empty 11⟩
    9 ≤ w.program.capacity ∧ 7 ≤ o.stackCapacity ∧ ∃ summary w',
      compile o "pi+e" w = .ok summary w' ∧ summary.variableCount = 0 ∧
        ∃ x, w'.program.code.toList = [.const x] := by
  have hemit : Compilation.folding ⟨false, 64, 7⟩
      (emitAll ⟨false, 64, 7⟩ [.binary .add (.constant .pi) (.constant .e)])
      ⟨SymbolTable.withBuckets 1, .empty 11⟩ =
      .ok () ⟨SymbolTable.withBuckets 1,
        ⟨#[.const (Constant.pi.value + Constant.e.value)], 9, 11⟩⟩ := by rfl
  intro o w
  let t : Tree := .binary .add (.constant .pi) (.constant .e)
  have hsentence : Sentence "pi+e" t := sentence_pi_add_e
  have hnesting : t.nesting ≤ o.nestingLimit := by decide
  obtain ⟨c, hread, hend⟩ := exists_read_of_sentence hsentence hnesting
  have hfolding : Compilation.folding o (emitAll o [t.expr]) w.clear = _ := hemit
  have hcompile : ∃ summary w', compile o "pi+e" w = .ok summary w' ∧
      summary.variableCount = 0 := by
    rw [compile_apply, hread]
    dsimp only
    rw [hfolding]
    dsimp only
    rw [if_pos hend]
    exact ⟨_, _, rfl, rfl⟩
  obtain ⟨summary, w', hcompile, hvariables⟩ := hcompile
  have hcapacity : 9 ≤ w.program.capacity := by decide
  have hstack : 7 ≤ o.stackCapacity := by decide
  obtain ⟨-, x, -, -, hcode, -⟩ :=
    code_eq_const_of_variableCount_eq_zero hcapacity hstack hcompile hvariables
  exact ⟨hcapacity, hstack, summary, w', hcompile, hvariables, x, hcode⟩

end Expr

end Reckon
