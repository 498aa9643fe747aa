import Mathlib.Tactic.Common
import Reckon.Symbol.Table

/-!
# Looking up names

A name that is added is found at the end of the table, and every other name is found where it was
(`SymbolTable.lookup_add_self`, `SymbolTable.lookup_add_of_ne`).  So indexes stay valid while names
are installed (`SymbolTable.Extends`).
-/

namespace Reckon.SymbolTable

variable {t u v : SymbolTable} {name other : String} {index : ℕ}

/-! ## The way along a bucket -/

/-- A chain ends where nothing follows. -/
lemma chainFrom_of_next_eq_none (h : index < t.symbols.size)
    (hnext : t.symbols[index].next = none) : t.chainFrom index h = [index] := by
  rw [chainFrom]
  split
  · rfl
  · rename_i hsome
    rw [hnext] at hsome
    contradiction

/-- A chain goes on with what follows. -/
lemma chainFrom_of_next_eq_some {i : ℕ} (h : index < t.symbols.size)
    (hnext : t.symbols[index].next = some i) (hi : i < t.symbols.size) :
    t.chainFrom index h = index :: t.chainFrom i hi := by
  rw [chainFrom]
  split
  · rename_i hnone
    rw [hnext] at hnone
    contradiction
  · rename_i hsome
    rw [hnext] at hsome
    obtain rfl := Option.some.inj hsome
    rfl

/-- In a table with the same links the way is the same. -/
lemma chainFrom_congr (hnext : ∀ i (h : i < t.symbols.size) (h' : i < u.symbols.size),
    u.symbols[i].next = t.symbols[i].next) (h : index < t.symbols.size)
    (h' : index < u.symbols.size) : u.chainFrom index h' = t.chainFrom index h := by
  induction index using Nat.strongRecOn with
  | ind index ih =>
    have hsame := hnext index h h'
    rcases hlink : t.symbols[index].next with _ | i
    · rw [chainFrom_of_next_eq_none h hlink, chainFrom_of_next_eq_none h' (hsame.trans hlink)]
    · have hi := t.lt_of_next index h i hlink
      have hi' : i < t.symbols.size := Nat.lt_trans hi h
      rw [chainFrom_of_next_eq_some h hlink hi',
        chainFrom_of_next_eq_some h' (hsame.trans hlink) (Nat.lt_trans hi h'),
        ih i hi hi' (Nat.lt_trans hi h')]

/-- Where a bucket is empty there is no chain. -/
lemma chain_of_head_eq_none (hhead : t.head name = none) : t.chain name = [] := by
  rw [chain]
  split
  · rfl
  · rename_i hsome
    rw [hhead] at hsome
    contradiction

/-- A chain begins with the head of its bucket. -/
lemma chain_of_head_eq_some (hhead : t.head name = some index) (h : index < t.symbols.size) :
    t.chain name = t.chainFrom index h := by
  rw [chain]
  split
  · rename_i hnone
    rw [hhead] at hnone
    contradiction
  · rename_i hsome
    rw [hhead] at hsome
    obtain rfl := Option.some.inj hsome
    rfl

/-- A bucket begins with a variable of the table. -/
lemma lt_size_of_head (h : t.head name = some index) : index < t.symbols.size :=
  t.lt_of_bucket (t.bucketOf name) (t.bucketOf name).isLt index h

/-- In a table with the same links the bucket of a name holds the same if it leads to the same. -/
lemma chain_congr (hnext : ∀ i (h : i < t.symbols.size) (h' : i < u.symbols.size),
    u.symbols[i].next = t.symbols[i].next) (hhead : u.head other = t.head other) :
    u.chain other = t.chain other := by
  rcases hsome : t.head other with _ | i
  · rw [chain_of_head_eq_none hsome, chain_of_head_eq_none (hhead.trans hsome)]
  · have h := lt_size_of_head hsome
    have h' := lt_size_of_head (hhead.trans hsome)
    rw [chain_of_head_eq_some hsome h, chain_of_head_eq_some (hhead.trans hsome) h',
      chainFrom_congr hnext h h']

/-- A new name comes first in its bucket, and the others begin as before. -/
lemma head_add (t : SymbolTable) (name other : String) : (t.add name).head other =
    if Hash.bucket name t.buckets.size = Hash.bucket other t.buckets.size then some t.size
    else t.head other := by
  simp only [head, bucketOf, add, Fin.getElem_fin, Array.getElem_set, Array.size_set]

/-- The links of the variables that were there are as before. -/
lemma next_add (t : SymbolTable) (name : String) (i : ℕ) (h : i < t.symbols.size)
    (h' : i < (t.add name).symbols.size) :
    (t.add name).symbols[i].next = t.symbols[i].next := by
  simp only [add, Array.getElem_push_lt h]

/-- The bucket of the new name has the new index in front; all others are as before. -/
lemma chain_add (t : SymbolTable) (name other : String) : (t.add name).chain other =
    if Hash.bucket name t.buckets.size = Hash.bucket other t.buckets.size then
      t.size :: t.chain other
    else t.chain other := by
  have hhead := head_add t name other
  split
  · rename_i hbucket
    rw [if_pos hbucket] at hhead
    have hsize : t.size < (t.add name).symbols.size := lt_size_of_head hhead
    have hsame : t.head name = t.head other := by
      simp only [head, bucketOf, Fin.getElem_fin, hbucket]
    have hlink : (t.add name).symbols[t.size].next = t.head other := by
      simp [add, size, hsame]
    rw [chain_of_head_eq_some hhead hsize]
    rcases hsome : t.head other with _ | i
    · rw [chain_of_head_eq_none hsome, chainFrom_of_next_eq_none hsize (hlink.trans hsome)]
    · have hi := lt_size_of_head hsome
      have hi' : i < (t.add name).symbols.size := Nat.lt_trans hi hsize
      rw [chain_of_head_eq_some hsome hi,
        chainFrom_of_next_eq_some hsize (hlink.trans hsome) hi',
        chainFrom_congr (next_add t name) hi hi']
  · rename_i hbucket
    rw [if_neg hbucket] at hhead
    exact chain_congr (next_add t name) hhead

/-- A new name has the next index. -/
lemma name?_add (t : SymbolTable) (name : String) (index : ℕ) :
    (t.add name).name? index = if index = t.size then some name else t.name? index := by
  unfold name? add size
  simp only [Array.getElem?_push]
  split <;> rfl

/-- Behind the last symbol there is no name. -/
lemma name?_size (t : SymbolTable) : t.name? t.size = none := by
  simp [name?, size]

/-- A name that is added is found at the end. -/
lemma lookup_add_self (t : SymbolTable) (name : String) :
    (t.add name).lookup name = some t.size := by
  unfold lookup
  rw [chain_add, if_pos rfl, List.find?_cons_of_pos]
  simp [name?_add]

/-- A name that is added is known. -/
lemma lookup_add_self_ne_none (t : SymbolTable) (name : String) :
    (t.add name).lookup name ≠ none := by
  rw [lookup_add_self]
  exact Option.some_ne_none _

/-- A name that is added does not hide another. -/
lemma lookup_add_of_ne (h : other ≠ name) : (t.add name).lookup other = t.lookup other := by
  have hname : ∀ index, ((t.add name).name? index = some other) ↔ (t.name? index = some other) := by
    intro index
    rw [name?_add]
    split
    · rename_i hsize
      rw [hsize, name?_size]
      simp [h.symm]
    · rfl
  unfold lookup
  simp only [hname]
  rw [chain_add]
  split
  · rw [List.find?_cons_of_neg]
    simp [name?_size]
  · rfl

/-- A table extends another if it finds all names of the other where the other finds them. -/
def Extends (t u : SymbolTable) : Prop :=
  ∀ name index, u.lookup name = some index → t.lookup name = some index

/-- A table finds what it finds. -/
lemma Extends.refl (t : SymbolTable) : t.Extends t := fun _ _ h => h

/-- A table that extends an extension extends the first table. -/
lemma Extends.trans (h : t.Extends u) (h' : u.Extends v) : t.Extends v :=
  fun name index hv => h name index (h' name index hv)

/-- A name that is not found later was not found before. -/
lemma Extends.lookup_eq_none (h : t.Extends u) (hnone : t.lookup name = none) :
    u.lookup name = none := by
  cases hlookup : u.lookup name with
  | none => rfl
  | some index =>
    rw [h name index hlookup] at hnone
    cases hnone

/-- A table with a new name finds all others where they were. -/
lemma extends_add (h : t.lookup name = none) : (t.add name).Extends t := by
  intro other index hother
  have hne : other ≠ name := by
    rintro rfl
    rw [h] at hother
    cases hother
  rw [lookup_add_of_ne hne, hother]

/-- A name that is installed is found, and so are all others where they were. -/
lemma extends_of_install (h : t.install name = .ok (index, u)) :
    u.Extends t ∧ u.lookup name = some index := by
  unfold install at h
  split at h
  · rename_i hlookup
    cases h
    exact ⟨.refl t, hlookup⟩
  · rename_i hlookup
    split at h
    · cases h
      exact ⟨extends_add hlookup, lookup_add_self t name⟩
    · cases h

/-- An installation fails for lack of room only. -/
lemma eq_of_install_eq_error {e : Error} (h : t.install name = .error e) :
    e = .symbolAllocation name := by
  unfold install at h
  split at h
  · cases h
  · split at h
    · cases h
    · cases h
      rfl

end Reckon.SymbolTable
