import Mathlib.Data.List.Forall2
import Reckon.Program.Listing
import Reckon.Proofs.Program.Folding
import Reckon.Proofs.Symbol.Growth

/-!
# Programs that differ in the indexes of variables

A variable can have one index in one table and another index in another table.  Two programs mirror
each other if they are the same apart from that: where one loads a variable, the other loads the
variable of the same name in its own table (`Program.Mirrors`).  Programs still mirror each other
after both have been extended, cleared or folded; they have the same figures and the same listing,
and they compute the same where variables of the same name have the same value.
-/

namespace Reckon

open Instruction SymbolTable

/-- Values that go together one by one still do so when each list is rid of repetitions. -/
lemma forall₂_eraseDups {α β : Type} [DecidableEq α] [DecidableEq β] {R : α → β → Prop}
    (hunique : Relator.BiUnique R) {l : List α} {l' : List β} (h : List.Forall₂ R l l') :
    List.Forall₂ R l.eraseDups l'.eraseDups := by
  induction hlength : l.length using Nat.strongRecOn generalizing l l' with
  | ind n ih =>
    rcases h with _ | ⟨hab, hrest⟩
    · exact .nil
    · rename_i a b l l'
      rw [List.eraseDups_cons, List.eraseDups_cons]
      have hfilter : List.Forall₂ R (l.filter fun c => !c == a) (l'.filter fun d => !d == b) := by
        refine List.rel_filter (fun c d hcd => ?_) hrest
        have hiff : c = a ↔ d = b :=
          ⟨fun h => hunique.2 hcd (h ▸ hab), fun h => hunique.1 hcd (h ▸ hab)⟩
        simp [hiff]
      have hle := List.length_filter_le (fun c => !c == a) l
      rw [List.length_cons] at hlength
      exact .cons hab (ih _ (by omega) hfilter rfl)

/-- Lists that are related item by item are mapped to the same list. -/
lemma mapIdx_eq_of_forall₂ {α β γ : Type} {R : α → β → Prop} {f : ℕ → α → γ} {g : ℕ → β → γ}
    {l : List α} {l' : List β} (h : List.Forall₂ R l l')
    (hfg : ∀ n a b, R a b → f n a = g n b) : l.mapIdx f = l'.mapIdx g := by
  induction h generalizing f g with
  | nil => rfl
  | cons hfirst _ ih =>
    rw [List.mapIdx_cons, List.mapIdx_cons, hfg 0 _ _ hfirst, ih fun n => hfg (n + 1)]

variable {t t' u u' : SymbolTable} {i j : Instruction} {code code' : List Instruction}
  {values values' : ℕ → Float} {p q : Program}

/-- Whether two indexes are those of one name in two tables. -/
def SymbolTable.Shares (t u : SymbolTable) (index index' : ℕ) : Prop :=
  ∃ name, t.lookup name = some index ∧ u.lookup name = some index'

/-- An index belongs to one name, so it goes together with one index in another table. -/
lemma SymbolTable.biUnique_shares (t u : SymbolTable) : Relator.BiUnique (Shares t u) := by
  constructor
  · rintro i i' j ⟨name, hi, hj⟩ ⟨name', hi', hj'⟩
    have hname := (name?_of_lookup hj).symm.trans (name?_of_lookup hj')
    rw [Option.some.inj hname, hi'] at hi
    exact (Option.some.inj hi).symm
  · rintro i j j' ⟨name, hi, hj⟩ ⟨name', hi', hj'⟩
    have hname := (name?_of_lookup hi).symm.trans (name?_of_lookup hi')
    rw [Option.some.inj hname, hj'] at hj
    exact (Option.some.inj hj).symm

/-- Where all names are read alike, indexes that go together have the same value. -/
lemma SymbolTable.Shares.value_eq {index index' : ℕ} (h : Shares t u index index')
    (hread : ∀ name, t.read name = u.read name) : t.value index = u.value index' := by
  obtain ⟨name, hleft, hright⟩ := h
  have hname := hread name
  rwa [read, read, valueOf?, valueOf?, hleft, hright] at hname

/-! ## Instructions -/

namespace Instruction

/-- Whether two instructions are the same, or load the variables of one name in two tables. -/
inductive Mirrors (t u : SymbolTable) : Instruction → Instruction → Prop
  | load {index index' : ℕ} : Shares t u index index' → Mirrors t u (.load index) (.load index')
  | same {i : Instruction} : i.readsVariable = false → Mirrors t u i i

namespace Mirrors

/-- More variables make no difference. -/
lemma mono (h : Mirrors t u i j) (ht : t'.Extends t) (hu : u'.Extends u) : Mirrors t' u' i j := by
  rcases h with ⟨name, hleft, hright⟩ | hvariable
  · exact .load ⟨name, ht _ _ hleft, hu _ _ hright⟩
  · exact .same hvariable

lemma symm (h : Mirrors t u i j) : Mirrors u t j i := by
  rcases h with ⟨name, hleft, hright⟩ | hvariable
  · exact .load ⟨name, hright, hleft⟩
  · exact .same hvariable

/-- Instructions that mirror each other are equally wide. -/
lemma width_eq (h : Mirrors t u i j) : i.width = j.width := by
  rcases h with - | -
  · rfl
  · rfl

/-- Instructions that mirror each other read the same variable or none. -/
lemma loaded?_rel (h : Mirrors t u i j) : Option.Rel (Shares t u) i.loaded? j.loaded? := by
  rcases h with hshares | hvariable
  · exact .some hshares
  · cases i with
    | load index => exact nomatch hvariable
    | const | named | unary | binary | choice => exact .none

/-- Instructions that mirror each other are listed alike. -/
lemma line_eq (h : Mirrors t u i j) (number : ℕ) :
    i.line t.name? number = j.line u.name? number := by
  rcases h with ⟨name, hleft, hright⟩ | hvariable
  · rw [line, line, operandText, operandText, name?_of_lookup hleft, name?_of_lookup hright]
    rfl
  · cases i with
    | load index => exact nomatch hvariable
    | const | named | unary | binary | choice => rfl

/-- Instructions that mirror each other do the same if they load the same value. -/
lemma step_eq (h : Mirrors t u i j)
    (hvalues : ∀ index index', Shares t u index index' → values index = values' index')
    (capacity : ℕ) (stack : List Float) :
    i.step values capacity stack = j.step values' capacity stack := by
  rcases h with hshares | hvariable
  · exact congrArg (push capacity · stack) (hvalues _ _ hshares)
  · refine step_congr (fun index hloaded => ?_) capacity stack
    cases i with
    | load index => exact nomatch hvariable
    | const | named | unary | binary | choice => exact nomatch hloaded

end Mirrors

/-! ## Code -/

/-- Whether two lists of instructions mirror each other one by one. -/
abbrev MirrorsAll (t u : SymbolTable) : List Instruction → List Instruction → Prop :=
  List.Forall₂ (Mirrors t u)

namespace MirrorsAll

/-- Code that mirrors code is equally wide. -/
lemma totalWidth_eq (h : MirrorsAll t u code code') :
    Program.totalWidth code = Program.totalWidth code' := by
  induction h with
  | nil => rfl
  | cons hfirst _ ih => rw [Program.totalWidth, Program.totalWidth, hfirst.width_eq, ih]

/-- Code that reads no variable is mirrored by itself only. -/
lemma eq_of_any_readsVariable (h : MirrorsAll t u code code')
    (hvariables : code.any readsVariable = false) : code' = code := by
  induction h with
  | nil => rfl
  | cons hfirst _ ih =>
    rw [List.any_cons, Bool.or_eq_false_iff] at hvariables
    rcases hfirst with - | -
    · exact nomatch hvariables.1
    · rw [ih hvariables.2]

/-- Code that mirrors code computes the same where the variables have the same values. -/
lemma steps_eq (h : MirrorsAll t u code code')
    (hvalues : ∀ index index', Shares t u index index' → values index = values' index')
    (capacity : ℕ) (stack : List Float) :
    steps values capacity code stack = steps values' capacity code' stack := by
  induction h generalizing stack with
  | nil => rfl
  | cons hfirst _ ih =>
    rename_i i j code code' _
    have hcons : ∀ values (i : Instruction) code, steps values capacity (i :: code) stack =
        i.step values capacity stack >>= steps values capacity code := fun _ _ _ => rfl
    rw [hcons, hcons, hfirst.step_eq hvalues]
    exact bind_congr fun s => ih s

/-- Code that mirrors each other computes the same if it loads the same values. -/
lemma run_eq (h : MirrorsAll t u code code')
    (hvalues : ∀ index index', Shares t u index index' → values index = values' index')
    (capacity : ℕ) : run values capacity code = run values' capacity code' := by
  rw [run, run, h.steps_eq hvalues]

/-- The variables that are loaded go together one by one. -/
lemma forall₂_loaded (h : MirrorsAll t u code code') :
    List.Forall₂ (Shares t u) (code.filterMap loaded?) (code'.filterMap loaded?) :=
  List.rel_filterMap (fun _ _ hij => hij.loaded?_rel) h

end MirrorsAll

end Instruction

/-! ## Programs -/

/-- Whether two programs of the same capacity mirror each other. -/
structure Program.Mirrors (t u : SymbolTable) (p q : Program) : Prop where
  capacity_eq : p.capacity = q.capacity
  isConsistent_left : p.IsConsistent
  isConsistent_right : q.IsConsistent
  code : MirrorsAll t u p.code.toList q.code.toList

namespace Program.Mirrors

/-- Programs mirror each other in tables that extend the ones where they do. -/
lemma mono (h : p.Mirrors t u q) (ht : t'.Extends t) (hu : u'.Extends u) : p.Mirrors t' u' q :=
  { h with code := h.code.imp fun _ _ hij => hij.mono ht hu }

lemma size_eq (h : p.Mirrors t u q) : p.size = q.size := by
  simpa [size] using h.code.length_eq

lemma width_eq (h : p.Mirrors t u q) : p.width = q.width := by
  rw [h.isConsistent_left, h.isConsistent_right, h.code.totalWidth_eq]

/-- Cleared programs mirror each other, whatever they held. -/
lemma clear (hcapacity : p.capacity = q.capacity) : p.clear.Mirrors t u q.clear :=
  ⟨hcapacity, isConsistent_clear p, isConsistent_clear q, .nil⟩

/-- What one program has room for, the other has room for. -/
lemma emit (h : p.Mirrors t u q) (hij : Instruction.Mirrors t u i j) :
    (∃ p' q', p.emit i = .ok p' ∧ q.emit j = .ok q' ∧ p'.Mirrors t u q') ∨
      ∃ e, p.emit i = .error e ∧ q.emit j = .error e := by
  by_cases hroom : p.width + i.width ≤ p.capacity
  · have hp := emit_eq_ok_iff.2 ⟨hroom, rfl⟩
    rw [h.width_eq, h.capacity_eq, hij.width_eq] at hroom
    have hq := emit_eq_ok_iff.2 ⟨hroom, rfl⟩
    obtain ⟨hleft, hcode, -⟩ := h.isConsistent_left.emit hp
    obtain ⟨hright, hcode', -⟩ := h.isConsistent_right.emit hq
    refine .inl ⟨_, _, hp, hq, h.capacity_eq, hleft, hright, ?_⟩
    rw [hcode, hcode']
    exact List.rel_append h.code (.cons hij .nil)
  · have hp := emit_eq_error_iff.2 ⟨Nat.not_le.1 hroom, rfl⟩
    rw [h.width_eq, h.capacity_eq, hij.width_eq] at hroom
    have hq := emit_eq_error_iff.2 ⟨Nat.not_le.1 hroom, rfl⟩
    rw [← h.capacity_eq] at hq
    exact .inr ⟨_, hp, hq⟩

lemma symm (h : p.Mirrors t u q) : q.Mirrors u t p :=
  ⟨h.capacity_eq.symm, h.isConsistent_right, h.isConsistent_left,
    (h.code.imp fun _ _ hij => hij.symm).flip⟩

/-- Code that reads no variable is the same in both programs, so it can be folded in the one if it
can be folded in the other, and to the same number. -/
lemma isFoldable {x : Float} {stackCapacity start : ℕ} (h : p.Mirrors t u q)
    (hfold : p.IsFoldable values stackCapacity start x) :
    q.IsFoldable values' stackCapacity start x := by
  have hcode : q.codeFrom start = p.codeFrom start := by
    have hdrop := List.forall₂_drop start h.code
    rw [← codeFrom_eq_drop, ← codeFrom_eq_drop] at hdrop
    exact MirrorsAll.eq_of_any_readsVariable hdrop hfold.any_readsVariable
  have hbefore : MirrorsAll t u (p.code.toList.take start) (q.code.toList.take start) :=
    List.forall₂_take start h.code
  have hloaded : (p.codeFrom start).filterMap loaded? = [] :=
    any_readsVariable_eq_false_iff.1 hfold.any_readsVariable
  refine ⟨?_, ?_, ?_⟩
  · rw [hcode]
    exact hfold.any_readsVariable
  · rw [hcode, ← hfold.run_eq]
    refine run_congr (fun index hmem => ?_) stackCapacity
    rw [hloaded] at hmem
    exact nomatch hmem
  · rw [← hbefore.totalWidth_eq, ← h.capacity_eq]
    exact hfold.width_le

/-- What is folded in one program is folded in the other, to the same number. -/
lemma fold (h : p.Mirrors t u q) (values values' : ℕ → Float) (stackCapacity start : ℕ) :
    (p.fold values stackCapacity start).Mirrors t u (q.fold values' stackCapacity start) := by
  by_cases hfold : ∃ x, p.IsFoldable values stackCapacity start x
  · obtain ⟨x, hx⟩ := hfold
    refine ⟨?_, h.isConsistent_left.fold, h.isConsistent_right.fold, ?_⟩
    · rw [capacity_fold, capacity_fold, h.capacity_eq]
    · rw [hx.toList_fold, (h.isFoldable hx).toList_fold]
      exact List.rel_append (List.forall₂_take start h.code) (.cons (.same rfl) .nil)
  · have hfold' : ¬∃ x, q.IsFoldable values' stackCapacity start x :=
      fun ⟨x, hx⟩ => hfold ⟨x, h.symm.isFoldable hx⟩
    rw [fold_of_not_isFoldable hfold, fold_of_not_isFoldable hfold']
    exact h

/-- Programs that mirror each other have the same figures. -/
lemma summary_eq (h : p.Mirrors t u q) : p.summary = q.summary := by
  have hcount := (forall₂_eraseDups (biUnique_shares t u) h.code.forall₂_loaded).length_eq
  rw [summary, summary, h.size_eq, h.width_eq, variableCount, variableCount, hcount]

/-- Programs that mirror each other have the same listing. -/
lemma listing_eq (h : p.Mirrors t u q) : p.listing t.name? = q.listing u.name? :=
  congrArg String.join (mapIdx_eq_of_forall₂ h.code fun number _ _ hij => hij.line_eq number)

/-- Programs that mirror each other compute the same if they load the same values. -/
lemma run_eq (h : p.Mirrors t u q)
    (hvalues : ∀ index index', Shares t u index index' → values index = values' index')
    (capacity : ℕ) : p.run values capacity = q.run values' capacity :=
  h.code.run_eq hvalues capacity

end Program.Mirrors

end Reckon
