import Mathlib.Logic.Function.Basic
import Reckon.Engine.Basic
import Reckon.Proofs.Engine.Assignment
import Reckon.Proofs.Symbol.Register

/-!
# What assignments store

Assignments that succeed are answered by the list of what was assigned, and this list says all that
happened to the values: each variable in it can be read back under its name, with the value it was
given last (`Engine.valueOf?_assign`), and all others have the values they had
(`Engine.value_assign_of_forall_ne`).

One statement gives a value to the variable whose name stands before the equals sign
(`Assignment.stores_statementAt`); for a list of statements this is an induction over their number.
-/

namespace Reckon

open Outcome

namespace SymbolTable

variable {t u : SymbolTable} {index : ℕ}

/-- A table that only adds names finds all others where they were. -/
lemma GrowsTo.extends (h : t.GrowsTo u) : u.Extends t := by
  induction h with
  | refl => exact .refl t
  | add _ hnone ih => exact (extends_add hnone).trans ih

/-- A value that is set is read back, and no other changes. -/
lemma value_set (h : index < t.size) (x : Float) :
    (t.set index x).value = Function.update t.value index x := by
  funext i
  by_cases hi : i = index
  · subst hi
    have hsymbol : t.symbols[i]? = some t.symbols[i] := Array.getElem?_eq_getElem h
    rw [Function.update_self, value, set, Array.getElem?_modify, if_pos rfl, hsymbol]
    rfl
  · rw [Function.update_of_ne hi, value_set_of_ne hi]

end SymbolTable

namespace Assignment

variable {s : Settings} {c : Cursor} {t t' : SymbolTable} {a : Assignment}
  {before after : List Assignment} {values : ℕ → Float} {index : ℕ}

/-- The values that are left when assignments were done one after the other. -/
def storeAll (values : ℕ → Float) (done : List Assignment) : ℕ → Float :=
  done.foldl (fun values a => Function.update values a.index a.value) values

/-- A variable that is not assigned keeps its value. -/
lemma storeAll_of_forall_ne (h : ∀ a ∈ after, a.index ≠ index) :
    storeAll values after index = values index := by
  induction after generalizing values with
  | nil => rfl
  | cons a after ih =>
    obtain ⟨hne, hafter⟩ := List.forall_mem_cons.1 h
    have hstep : storeAll values (a :: after) =
        storeAll (Function.update values a.index a.value) after := rfl
    rw [hstep, ih hafter, Function.update_of_ne hne.symm]

/-- A variable has the value that it was given last. -/
lemma storeAll_append_cons (h : ∀ b ∈ after, b.index ≠ a.index) :
    storeAll values (before ++ a :: after) a.index = a.value := by
  have hsplit : storeAll values (before ++ a :: after) =
      storeAll (Function.update (storeAll values before) a.index a.value) after :=
    List.foldl_append
  rw [hsplit, storeAll_of_forall_ne h, Function.update_self]

/-- What tables store when assignments are done: the values of these, under names that are found. -/
structure Stores (t : SymbolTable) (done : List Assignment) (t' : SymbolTable) : Prop where
  value_eq : t'.value = storeAll t.value done
  extends_table : t'.Extends t
  lookup_eq : ∀ a ∈ done, ∃ name, t'.lookup name = some a.index

/-- Where nothing is assigned nothing changes. -/
lemma Stores.nil (t : SymbolTable) : Stores t [] t := ⟨rfl, .refl t, nofun⟩

/-- An assignment is done before others. -/
lemma Stores.cons {t₁ : SymbolTable} {done : List Assignment} (h : Stores t [a] t₁)
    (hdone : Stores t₁ done t') : Stores t (a :: done) t' where
  value_eq := by
    rw [hdone.value_eq, h.value_eq]
    rfl
  extends_table := hdone.extends_table.trans h.extends_table
  lookup_eq := by
    obtain ⟨name, hname⟩ := h.lookup_eq a List.mem_cons_self
    exact List.forall_mem_cons.2 ⟨⟨name, hdone.extends_table name _ hname⟩, hdone.lookup_eq⟩

/-- A variable that is installed is found under its name, and all others where they were. -/
lemma extends_of_install {name : String} (h : install name t = .ok index t') :
    t'.Extends t ∧ t'.lookup name = some index := by
  unfold install at h
  split at h
  · rename_i hfound
    cases h
    exact SymbolTable.extends_of_install hfound
  · contradiction

/-- A statement gives its value to the variable before the equals sign. -/
theorem stores_statementAt {rest : Cursor} (h : statementAt s c t = .ok (a, rest) t') :
    Stores t [a] t' ∧ ∃ name behind, targetAt c = .ok (name, behind) ∧
      t'.lookup name = some a.index ∧ t'.valueOf? name = some a.value := by
  unfold statementAt at h
  cases htarget : targetAt c with
  | error e =>
    rw [htarget] at h
    contradiction
  | ok target =>
    obtain ⟨name, behind⟩ := target
    rw [htarget] at h
    dsimp only at h
    obtain ⟨index, t₁, hinstall, h⟩ := bind_eq_ok_iff.1 h
    obtain ⟨⟨x, rest'⟩, t₂, hvalue, h⟩ := bind_eq_ok_iff.1 h
    obtain ⟨⟨rfl, rfl⟩, rfl⟩ : (⟨index, x⟩ = a ∧ rest' = rest) ∧ t₂.set index x = t' := by
      cases h
      exact ⟨⟨rfl, rfl⟩, rfl⟩
    have hnamed := extends_of_install hinstall
    have hgrows₁ := (moves_install name).of_ok hinstall
    have hgrows₂ := (moves_valueAt s behind).of_ok hvalue
    have hlookup : t₂.lookup name = some index := hgrows₂.extends name index hnamed.2
    have hset := SymbolTable.value_set (SymbolTable.lt_size_of_lookup hlookup) x
    have hvalues : t₂.value = t.value := by
      funext i
      rw [hgrows₂.value_eq, hgrows₁.value_eq]
    have hlookup' : (t₂.set index x).lookup name = some index := by
      rw [SymbolTable.lookup_set, hlookup]
    refine ⟨⟨?_, ?_, ?_⟩, name, behind, rfl, hlookup', ?_⟩
    · rw [hset, hvalues]
      rfl
    · intro other i hi
      rw [SymbolTable.lookup_set]
      exact hgrows₂.extends other i (hnamed.1 other i hi)
    · exact List.forall_mem_singleton.2 ⟨name, hlookup'⟩
    · rw [SymbolTable.valueOf?, hlookup', Option.map_some, hset, Function.update_self]

/-- Statements that are all done store what they answer. -/
theorem stores_statementsAt {turns : ℕ} {done : List Assignment}
    (h : statementsAt s turns c t = .ok done t') : Stores t done t' := by
  induction turns generalizing c t done with
  | zero =>
    cases h
    exact .nil _
  | succ turns ih =>
    rw [statementsAt_succ_apply] at h
    split at h
    · cases h
      exact .nil _
    · split at h
      · contradiction
      · rename_i a rest t₁ hfirst
        have hstores := (stores_statementAt hfirst).1
        split at h
        · split at h
          · rename_i hmore
            cases h
            exact hstores.cons (ih hmore)
          · contradiction
        · split at h
          · cases h
            exact hstores
          · contradiction

end Assignment

namespace Engine

variable {source : String} {e e' : Engine} {a : Assignment} {done before after : List Assignment}

/-- Assignments that succeed store what they answer. -/
lemma stores_assign (h : assign source e = .ok done e') :
    Assignment.Stores e.symbols done e'.symbols := by
  unfold assign at h
  split at h
  · rename_i hrun
    cases h
    exact Assignment.stores_statementsAt hrun
  · contradiction

/-- A variable that was assigned can be read back: under its name it has the value it was given
last. -/
theorem valueOf?_assign (h : assign source e = .ok (before ++ a :: after) e')
    (hlast : ∀ b ∈ after, b.index ≠ a.index) :
    ∃ name, e'.lookup name = some a.index ∧ e'.valueOf? name = some a.value := by
  obtain ⟨hvalue, -, hlookup⟩ := stores_assign h
  obtain ⟨name, hname⟩ := hlookup a (List.mem_append_right before List.mem_cons_self)
  refine ⟨name, hname, ?_⟩
  rw [valueOf?, SymbolTable.valueOf?, hname, Option.map_some, hvalue,
    Assignment.storeAll_append_cons hlast]

/-- A variable that was not assigned keeps its value. -/
theorem value_assign_of_forall_ne {index : ℕ} (h : assign source e = .ok done e')
    (hdone : ∀ a ∈ done, a.index ≠ index) : e'.symbols.value index = e.symbols.value index := by
  rw [(stores_assign h).value_eq, Assignment.storeAll_of_forall_ne hdone]

end Engine

end Reckon
