import Mathlib.Data.List.Forall2
import Reckon.Proofs.Expr.Folding

/-!
# The code of phrases, folded here and there

Inside of a program stands the code of expressions, one behind the other, of which some parts
without variables have been folded already (`IsCodeOf`).  It remains the code of these expressions
while the table of symbols grows.  An instruction turns the code of its operands into that of the
expression it makes of them (`Joins`), and folding the code of one expression leaves the code of
that expression (`IsCodeOf.exists_fold`), which is complete (`IsCodeOf.isComplete`).
-/

namespace Reckon

open Instruction

namespace SymbolTable

variable {t u : SymbolTable} {name : String} {index : ℕ}

/-- The index of a name that is known. -/
def indexOf (t : SymbolTable) (name : String) : ℕ := (t.lookup name).getD 0

/-- The index of a name is where it is found. -/
lemma indexOf_eq (h : t.lookup name = some index) : t.indexOf name = index := by
  rw [indexOf, h, Option.getD_some]

/-- The index stays when other names are installed. -/
lemma Extends.indexOf_eq (h : t.Extends u) (hname : u.lookup name ≠ none) :
    t.indexOf name = u.indexOf name := by
  obtain ⟨index, hlookup⟩ := Option.ne_none_iff_exists'.1 hname
  rw [indexOf, indexOf, h name index hlookup, hlookup]

/-- A name that is known stays known. -/
lemma Extends.lookup_ne_none (h : t.Extends u) (hname : u.lookup name ≠ none) :
    t.lookup name ≠ none :=
  fun hnone => hname (h.lookup_eq_none hnone)

end SymbolTable

/-- The code of an expression depends on the indexes of the variables it mentions and on no
others. -/
lemma Expr.code_congr {e : Expr} {indexOf indexOf' : String → ℕ}
    (h : ∀ name ∈ e.names, indexOf name = indexOf' name) : e.code indexOf = e.code indexOf' := by
  induction e with
  | number | constant => rfl
  | var name => rw [code, code, h name List.mem_cons_self]
  | unary f operand ih => rw [code, code, ih h]
  | binary f left right ihleft ihright =>
    obtain ⟨hleft, hright⟩ := List.forall_mem_append.1 h
    rw [code, code, ihleft hleft, ihright hright]
  | choice test yes no ihtest ihyes ihno =>
    obtain ⟨hboth, hno⟩ := List.forall_mem_append.1 h
    obtain ⟨htest, hyes⟩ := List.forall_mem_append.1 hboth
    rw [code, code, ihtest htest, ihyes hyes, ihno hno]

/-- Whether code is that of these expressions, one behind the other, some parts of which may have
been folded. -/
structure IsCodeOf (symbols : SymbolTable) (es : List Expr) (code : List Instruction) : Prop where
  lookup_ne_none : ∀ e ∈ es, ∀ name ∈ e.names, symbols.lookup name ≠ none
  exists_foldsTo : ∃ es', List.Forall₂ Expr.FoldsTo es es' ∧
    code = es'.flatMap (Expr.code symbols.indexOf)

/-- Which expression an instruction makes of its operands. -/
inductive Joins (symbols : SymbolTable) : Instruction → List Expr → Expr → Prop
  | number (x : Float) : Joins symbols (.const x) [] (.number x)
  | constant (c : Constant) : Joins symbols (.named c) [] (.constant c)
  | var {name : String} {index : ℕ} (position : ℕ) : symbols.lookup name = some index →
      Joins symbols (.load index) [] (.var name position)
  | unary (f : UnaryOp) (operand : Expr) : Joins symbols (.unary f) [operand] (.unary f operand)
  | binary (f : BinaryOp) (left right : Expr) :
      Joins symbols (.binary f) [left, right] (.binary f left right)
  | choice (test yes no : Expr) : Joins symbols .choice [test, yes, no] (.choice test yes no)

namespace IsCodeOf

variable {symbols symbols' : SymbolTable} {e e' : Expr} {es fs : List Expr}
  {code code' before : List Instruction} {i : Instruction}

/-- No expressions have no code. -/
lemma nil : IsCodeOf symbols [] [] := ⟨List.forall_mem_nil _, [], .nil, rfl⟩

/-- The code of two lists is that of the first and then that of the second. -/
lemma append (h : IsCodeOf symbols es code) (h' : IsCodeOf symbols fs code') :
    IsCodeOf symbols (es ++ fs) (code ++ code') := by
  obtain ⟨es', hes, rfl⟩ := h.exists_foldsTo
  obtain ⟨fs', hfs, rfl⟩ := h'.exists_foldsTo
  exact ⟨List.forall_mem_append.2 ⟨h.lookup_ne_none, h'.lookup_ne_none⟩, es' ++ fs',
    List.rel_append hes hfs, List.flatMap_append.symm⟩

/-- The code of a single expression is that of one it folds to, with its names in the table. -/
lemma singleton_iff : IsCodeOf symbols [e] code ↔
    (∀ name ∈ e.names, symbols.lookup name ≠ none) ∧
      ∃ e', e.FoldsTo e' ∧ code = e'.code symbols.indexOf := by
  constructor
  · rintro ⟨hnames, _, _ | ⟨hfolds, _ | _⟩, hcode⟩
    rw [List.flatMap_singleton] at hcode
    exact ⟨List.forall_mem_singleton.1 hnames, _, hfolds, hcode⟩
  · rintro ⟨hnames, e', hfolds, hcode⟩
    refine ⟨List.forall_mem_singleton.2 hnames, [e'], .cons hfolds .nil, ?_⟩
    rw [hcode, List.flatMap_singleton]

/-- The names keep their indexes. -/
lemma mono (h : IsCodeOf symbols es code) (hextends : symbols'.Extends symbols) :
    IsCodeOf symbols' es code := by
  induction es generalizing code with
  | nil =>
    obtain ⟨-, _, _ | _, rfl⟩ := h
    exact nil
  | cons e es ih =>
    obtain ⟨hnames, _, _ | @⟨_, e', _, es', hfold, hfolds⟩, rfl⟩ := h
    obtain ⟨hfirst, hrest⟩ := List.forall_mem_cons.1 hnames
    -- folding leaves the names of an expression, and these were known before
    have hsame : e'.code symbols.indexOf = e'.code symbols'.indexOf :=
      Expr.code_congr fun name hname =>
        (hextends.indexOf_eq (hfirst name (hfold.names_eq ▸ hname))).symm
    have he : IsCodeOf symbols' [e] (e'.code symbols.indexOf) :=
      singleton_iff.2 ⟨fun name hname => hextends.lookup_ne_none (hfirst name hname), e', hfold,
        hsame⟩
    exact he.append (ih ⟨hrest, es', hfolds, rfl⟩)

/-- Behind the code of its operands an instruction completes that of the expression. -/
lemma joined (h : IsCodeOf symbols es code) (hjoins : Joins symbols i es e) :
    IsCodeOf symbols [e] (code ++ [i]) := by
  obtain ⟨hnames, _, hfolds, rfl⟩ := h
  rw [singleton_iff]
  cases hjoins with
  | number x =>
    cases hfolds
    exact ⟨List.forall_mem_nil _, _, .refl _, rfl⟩
  | constant c =>
    cases hfolds
    exact ⟨List.forall_mem_nil _, _, .refl _, rfl⟩
  | @var name index position hlookup =>
    cases hfolds
    refine ⟨List.forall_mem_singleton.2 ?_, .var name position, .refl _, ?_⟩
    · rw [hlookup]
      exact Option.some_ne_none index
    · rw [Expr.code, SymbolTable.indexOf_eq hlookup]
      rfl
  | unary f operand =>
    rcases hfolds with _ | ⟨hoperand, _ | _⟩
    refine ⟨List.forall_mem_singleton.1 hnames, _, .unary hoperand, ?_⟩
    rw [List.flatMap_singleton, Expr.code]
  | binary f left right =>
    rcases hfolds with _ | ⟨hleft, _ | ⟨hright, _ | _⟩⟩
    obtain ⟨hleftnames, hrest⟩ := List.forall_mem_cons.1 hnames
    refine ⟨List.forall_mem_append.2 ⟨hleftnames, List.forall_mem_singleton.1 hrest⟩, _,
      .binary hleft hright, ?_⟩
    rw [List.flatMap_cons, List.flatMap_singleton, Expr.code]
  | choice test yes no =>
    rcases hfolds with _ | ⟨htest, _ | ⟨hyes, _ | ⟨hno, _ | _⟩⟩⟩
    obtain ⟨htestnames, hrest⟩ := List.forall_mem_cons.1 hnames
    obtain ⟨hyesnames, hrest⟩ := List.forall_mem_cons.1 hrest
    refine ⟨List.forall_mem_append.2 ⟨List.forall_mem_append.2 ⟨htestnames, hyesnames⟩,
      List.forall_mem_singleton.1 hrest⟩, _, .choice htest hyes hno, ?_⟩
    rw [List.flatMap_cons, List.flatMap_cons, List.flatMap_singleton, Expr.code]
    simp only [List.append_assoc]

/-- The code of an expression leaves its one value. -/
lemma isComplete (h : IsCodeOf symbols [e] code) : IsComplete code := by
  obtain ⟨-, e', -, rfl⟩ := singleton_iff.1 h
  exact Expr.isComplete_code _ e'

/-- Folding leaves the code of the same expression. -/
lemma exists_fold {p : Program} (h : IsCodeOf symbols [e] code)
    (hcode : p.code.toList = before ++ code) (values : ℕ → Float) (stackCapacity : ℕ) :
    ∃ code', (p.fold values stackCapacity before.length).code.toList = before ++ code' ∧
      IsCodeOf symbols [e] code' := by
  obtain ⟨hnames, e₀, hfolds, rfl⟩ := singleton_iff.1 h
  obtain ⟨e', hfolds', hcode'⟩ := Expr.exists_foldsTo_fold hcode hfolds values stackCapacity
  exact ⟨_, hcode', singleton_iff.2 ⟨hnames, e', hfolds', rfl⟩⟩

end IsCodeOf

end Reckon
