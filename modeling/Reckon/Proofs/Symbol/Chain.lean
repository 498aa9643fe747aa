import Reckon.Proofs.Symbol.Growth

/-!
# Buckets and names

The way along a bucket goes down from the newest variable to older and older ones, and so it ends
(`SymbolTable.pairwise_chain`).  What the buckets of a table have to do with its names is an
invariant (`SymbolTable.IsSound`): the way along the bucket of a name passes exactly those variables
whose names hash to it, and no two variables have the same name.  This holds of an empty table and
is kept when a new name is added or a value is set.  In such a table a name is found at an index
exactly if the variable with this index has the name (`SymbolTable.IsSound.lookup_eq_some_iff`),
however many buckets there are.
-/

namespace Reckon.SymbolTable

variable {t : SymbolTable} {name other : String} {index : ℕ}

/-- Nothing on the way from a variable is newer, and what comes later on it is older. -/
lemma pairwise_chainFrom (h : index < t.symbols.size) :
    (∀ i ∈ t.chainFrom index h, i ≤ index) ∧ (t.chainFrom index h).Pairwise (· > ·) := by
  induction index using Nat.strongRecOn with
  | ind index ih =>
    rcases hlink : t.symbols[index].next with _ | i
    · rw [chainFrom_of_next_eq_none h hlink]
      exact ⟨List.forall_mem_singleton.2 (Nat.le_refl index), List.pairwise_singleton _ index⟩
    · have hi := t.lt_of_next index h i hlink
      obtain ⟨hle, hpairwise⟩ := ih i hi (Nat.lt_trans hi h)
      rw [chainFrom_of_next_eq_some h hlink (Nat.lt_trans hi h)]
      constructor
      · have hlt := Nat.le_of_lt hi
        exact List.forall_mem_cons.2 ⟨Nat.le_refl index, fun j hj => Nat.le_trans (hle j hj) hlt⟩
      · exact List.pairwise_cons.2 ⟨fun j hj => Nat.lt_of_le_of_lt (hle j hj) hi, hpairwise⟩

/-- The way along a bucket goes from newer variables to older ones. -/
theorem pairwise_chain (t : SymbolTable) (name : String) : (t.chain name).Pairwise (· > ·) := by
  rcases hhead : t.head name with _ | i
  · rw [chain_of_head_eq_none hhead]
    exact List.Pairwise.nil
  · rw [chain_of_head_eq_some hhead (lt_size_of_head hhead)]
    exact (pairwise_chainFrom (lt_size_of_head hhead)).2

/-- Whether two names are in the same bucket. -/
def SharesBucket (t : SymbolTable) (name other : String) : Prop :=
  Hash.bucket name t.bucketCount = Hash.bucket other t.bucketCount

/-- Whether the buckets of a table are right. -/
structure IsSound (t : SymbolTable) : Prop where
  /-- The bucket of a name leads to the names that hash to it. -/
  mem_chain_iff : ∀ name index,
    index ∈ t.chain name ↔ ∃ other, t.name? index = some other ∧ t.SharesBucket other name
  /-- A name has one index. -/
  eq_of_name? : ∀ name i j, t.name? i = some name → t.name? j = some name → i = j

/-- A value that is set changes no name. -/
@[simp] lemma name?_set (t : SymbolTable) (i : ℕ) (x : Float) (index : ℕ) :
    (t.set i x).name? index = t.name? index := by
  unfold name? set
  dsimp only
  rw [Array.getElem?_modify]
  split
  · rw [Option.map_map]
    rfl
  · rfl

/-- A value has nothing to do with where a bucket leads. -/
@[simp] lemma chain_set (t : SymbolTable) (i : ℕ) (x : Float) (name : String) :
    (t.set i x).chain name = t.chain name := by
  refine chain_congr (fun index h h' => ?_) rfl
  simp only [set, Array.getElem_modify]
  split <;> rfl

lemma bucketCount_add (t : SymbolTable) (name : String) :
    (t.add name).bucketCount = t.bucketCount := by
  simp [bucketCount, add]

/-- A name that is added leaves all names in their buckets. -/
lemma sharesBucket_add (t : SymbolTable) (name first second : String) :
    (t.add name).SharesBucket first second = t.SharesBucket first second := by
  unfold SharesBucket
  rw [bucketCount_add]

/-- The new index is in the bucket of the new name, and nothing else changes. -/
lemma mem_chain_add : index ∈ (t.add name).chain other ↔
    (index = t.size ∧ t.SharesBucket name other) ∨ index ∈ t.chain other := by
  rw [chain_add]
  split
  · rename_i hshares
    rw [List.mem_cons]
    exact or_congr_left (and_iff_left hshares).symm
  · rename_i hshares
    exact (or_iff_right fun h => hshares h.2).symm

/-- A table with a new name has this name and those it had. -/
lemma name?_add_eq_some_iff : (t.add name).name? index = some other ↔
    (index = t.size ∧ name = other) ∨ t.name? index = some other := by
  rw [name?_add]
  split
  · rename_i hindex
    simp [hindex, name?_size]
  · rename_i hindex
    exact (or_iff_right fun h => hindex h.1).symm

namespace IsSound

/-- A table without names is sound. -/
lemma withBuckets (count : ℕ) : (SymbolTable.withBuckets count).IsSound := by
  have hchain : ∀ name, (SymbolTable.withBuckets count).chain name = [] := by
    intro name
    apply chain_of_head_eq_none
    simp [head, SymbolTable.withBuckets]
  have hname : ∀ index, (SymbolTable.withBuckets count).name? index = none := fun index => rfl
  refine ⟨?_, ?_⟩
  · intro name index
    simp [hchain, hname]
  · intro name i j hi
    rw [hname] at hi
    contradiction

/-- A name is found at an index exactly if it is the name there. -/
theorem lookup_eq_some_iff (h : t.IsSound) :
    t.lookup name = some index ↔ t.name? index = some name := by
  refine ⟨name?_of_lookup, fun hname => ?_⟩
  have hmem : index ∈ t.chain name := (h.mem_chain_iff name index).2 ⟨name, hname, rfl⟩
  rcases hlookup : t.lookup name with _ | i
  · have hnone := List.find?_eq_none.1 hlookup index hmem
    simp [hname] at hnone
  · rw [h.eq_of_name? name i index (name?_of_lookup hlookup) hname]

/-- A name that is not found is the name of nothing. -/
lemma name?_ne_of_lookup_eq_none (h : t.IsSound) (hnone : t.lookup name = none) (index : ℕ) :
    t.name? index ≠ some name := by
  intro hname
  rw [h.lookup_eq_some_iff.2 hname] at hnone
  contradiction

/-- A name that is new can be added. -/
lemma add (h : t.IsSound) (hnone : t.lookup name = none) : (t.add name).IsSound := by
  have hnew := h.name?_ne_of_lookup_eq_none hnone
  refine ⟨?_, ?_⟩
  · intro other index
    simp only [mem_chain_add, sharesBucket_add, name?_add_eq_some_iff, h.mem_chain_iff]
    constructor
    · rintro (⟨rfl, hshares⟩ | ⟨found, hfound, hshares⟩)
      · exact ⟨name, .inl ⟨rfl, rfl⟩, hshares⟩
      · exact ⟨found, .inr hfound, hshares⟩
    · rintro ⟨found, ⟨rfl, rfl⟩ | hfound, hshares⟩
      · exact .inl ⟨rfl, hshares⟩
      · exact .inr ⟨found, hfound, hshares⟩
  · intro other i j hi hj
    rcases name?_add_eq_some_iff.1 hi with ⟨rfl, rfl⟩ | hi
    · rcases name?_add_eq_some_iff.1 hj with ⟨rfl, -⟩ | hj
      · rfl
      · exact absurd hj (hnew j)
    · rcases name?_add_eq_some_iff.1 hj with ⟨rfl, rfl⟩ | hj
      · exact absurd hi (hnew i)
      · exact h.eq_of_name? other i j hi hj

/-- A value can be set. -/
lemma set (h : t.IsSound) (i : ℕ) (x : Float) : (t.set i x).IsSound := by
  refine ⟨?_, ?_⟩
  · intro name index
    rw [chain_set, name?_set]
    exact h.mem_chain_iff name index
  · intro name i' j
    rw [name?_set, name?_set]
    exact h.eq_of_name? name i' j

end IsSound

end Reckon.SymbolTable
