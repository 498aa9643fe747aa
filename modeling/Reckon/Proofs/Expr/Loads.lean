import Reckon.Proofs.Expr.Folding
import Reckon.Proofs.Expr.Mention
import Reckon.Proofs.Symbol.Growth

/-!
# What compiled programs load

Folding replaces the code behind some position by a constant, and decides by a run whether to do so.
Yet it takes no variable away, and neither repeats nor moves one: a compiled program loads exactly
the variables that are written in its source, from left to right, whatever the capacities are and
whichever foldings succeed (`Expr.loads_of_compile`).  Variables that are written several times are
counted once, so that the summary tells how many names there are.
-/

namespace Reckon.Expr

open Instruction

variable {o : CompileOptions} {source : String} {summary : Program.Summary} {w w' : Workplace}

/-- Different names are loaded from different indexes, so that there are as many. -/
lemma length_eraseDups_map_of_lookup {t : SymbolTable} {indexOf : String → ℕ} {names : List String}
    (h : ∀ name ∈ names, t.lookup name = some (indexOf name)) :
    (names.map indexOf).eraseDups.length = names.toFinset.card := by
  have himage : (names.map indexOf).toFinset = names.toFinset.image indexOf := by
    ext index
    simp
  rw [length_eraseDups, himage]
  refine Finset.card_image_of_injOn fun name hname other hother heq => ?_
  have hindex := SymbolTable.name?_of_lookup (h name (List.mem_toFinset.1 hname))
  have hindex' := SymbolTable.name?_of_lookup (h other (List.mem_toFinset.1 hother))
  rw [heq, hindex'] at hindex
  exact (Option.some.inj hindex).symm

/-- A program that is compiled loads the variables among the tokens of its source, from left to
right and as often as they are written; its summary counts the different ones, and it uses no
variable exactly if none is written. -/
theorem loads_of_compile (h : compile o source w = .ok summary w') :
    ∃ ts stop, Lexes (Cursor.ofString source) ts stop ∧ stop.atEnd ∧
      let loads := w'.program.code.toList.filterMap loaded?
      loads.map some = (variablesOf ts).map w'.symbols.lookup ∧
      loads.map w'.symbols.name? = (variablesOf ts).map some ∧
      summary.variableCount = (variablesOf ts).toFinset.card ∧
      (w'.program.usesVariables = false ↔ variablesOf ts = []) := by
  obtain ⟨t, e', indexOf, hsentence, hfolds, hindex, hcode⟩ := exists_foldsTo_of_compile h
  obtain ⟨-, -, -, -, -, hsummary⟩ := exists_emit_of_compile h
  obtain ⟨ts, stop, hlexes, hend, hnames⟩ := exists_lexes_of_sentence hsentence
  rw [hnames] at hindex
  have hloads : w'.program.code.toList.filterMap loaded? = (variablesOf ts).map indexOf := by
    rw [hcode, filterMap_loaded_code, hfolds.names_eq, hnames]
  refine ⟨ts, stop, hlexes, hend, ?_, ?_, ?_, ?_⟩
  · rw [hloads, List.map_map]
    exact List.map_congr_left fun name hname => (hindex name hname).symm
  · rw [hloads, List.map_map]
    exact List.map_congr_left fun name hname => SymbolTable.name?_of_lookup (hindex name hname)
  · rw [hsummary, Program.summary, Program.variableCount, hloads]
    exact length_eraseDups_map_of_lookup hindex
  · rw [Program.usesVariables, ← Array.any_toList, any_readsVariable_eq_false_iff, hloads,
      List.map_eq_nil_iff]

/-- The sum of `pi`, which is folded, and a known variable loads this variable. -/
theorem loads_of_constant_add_var :
    let o : CompileOptions := ⟨false, 64, 30⟩
    let w : Workplace := ⟨(SymbolTable.withBuckets 1).add "x", .empty 19⟩
    ∃ summary w', compile o "pi+x" w = .ok summary w' ∧
      (w'.program.code.toList.filterMap loaded?).map w'.symbols.name? = [some "x"] ∧
      summary.variableCount = 1 ∧ w'.program.usesVariables = true := by
  intro o w
  let t : Tree := .binary .add (.constant .pi) (.var "x" 3)
  have hsentence : Sentence "pi+x" t := sentence_constant_add_var
  have hnesting : t.nesting ≤ o.nestingLimit := by decide
  have hknown : ∀ name ∈ t.expr.names, w.symbols.lookup name ≠ none :=
    List.forall_mem_singleton.2 (SymbolTable.lookup_add_self_ne_none _ "x")
  have hwidth : t.expr.expandedWidth ≤ w.program.capacity := by decide
  obtain ⟨summary, w', hcompile⟩ := exists_compile_eq_ok hsentence hnesting hwidth
    (fun name hname => .inr (hknown name hname))
    (compile_ne_symbolAllocation hsentence hnesting hknown)
  obtain ⟨ts, stop, hlexes, hend, -, hnames, hcount, huses⟩ := loads_of_compile hcompile
  have htokens : Lexes (Cursor.ofString "pi+x")
      [⟨.name "pi", 0⟩, ⟨.symbol ['+'], 2⟩, ⟨.name "x", 3⟩] ⟨[], 4⟩ := by
    refine Lexes.cons_iff.2 ⟨by decide, by decide, ?_⟩
    refine Lexes.cons_iff.2 ⟨by decide, by decide, ?_⟩
    exact Lexes.cons_iff.2 ⟨by decide, by decide, Lexes.nil_iff.2 (by decide)⟩
  obtain ⟨rfl, -⟩ := hlexes.unique htokens (Cursor.halts_of_atEnd hend) (Cursor.halts_of_atEnd rfl)
  have hvariables : variablesOf
      [⟨.name "pi", 0⟩, ⟨.symbol ['+'], 2⟩, ⟨.name "x", 3⟩] = ["x"] := by decide +kernel
  rw [hvariables] at hnames hcount huses
  refine ⟨summary, w', hcompile, hnames, hcount, ?_⟩
  rw [← Bool.not_eq_false, huses]
  exact List.cons_ne_nil _ _

end Reckon.Expr
