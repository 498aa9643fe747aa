import Reckon.Proofs.Symbol.Table

/-!
# How tables grow

Reading and compiling expressions only ever adds variables to a table (`SymbolTable.GrowsTo`): what
was there keeps its index, its name and its value, and what is new has the value zero.  Nobody who
reads a name that is not there as zero can tell the difference (`SymbolTable.GrowsTo.read_eq`).
-/

namespace Reckon.SymbolTable

/-- Whether a table comes from another by adding names that it does not know yet. -/
inductive GrowsTo (t : SymbolTable) : SymbolTable → Prop
  | refl : t.GrowsTo t
  | add {u : SymbolTable} {name : String} :
      t.GrowsTo u → u.lookup name = none → t.GrowsTo (u.add name)

variable {t u v : SymbolTable} {name : String} {index : ℕ}

lemma size_add (t : SymbolTable) (name : String) : (t.add name).size = t.size + 1 := by
  simp [size, add]

lemma size_set (t : SymbolTable) (index : ℕ) (x : Float) : (t.set index x).size = t.size := by
  simp [size, set]

/-- What is found under a name has this name. -/
lemma name?_of_lookup (h : t.lookup name = some index) : t.name? index = some name := by
  simpa using List.find?_some h

/-- What has a name is in the table. -/
lemma lt_size_of_name? (h : t.name? index = some name) : index < t.size := by
  by_contra hsize
  have hnone : t.symbols[index]? = none := Array.getElem?_eq_none (Nat.not_lt.1 hsize)
  rw [name?, hnone] at h
  contradiction

/-- A variable that is found is in the table. -/
lemma lt_size_of_lookup (h : t.lookup name = some index) : index < t.size :=
  lt_size_of_name? (name?_of_lookup h)

/-- A name that is added has the value zero, and no other value changes. -/
lemma value_add (t : SymbolTable) (name : String) (index : ℕ) :
    (t.add name).value index = if index = t.size then 0 else t.value index := by
  unfold value add size
  simp only [Array.getElem?_push]
  split <;> rfl

/-- An index without a variable has the value zero. -/
lemma value_of_size_le (h : t.size ≤ index) : t.value index = 0 := by
  rw [value, Array.getElem?_eq_none h]
  rfl

/-- The value of a name, or zero if the name is not in the table. -/
def read (t : SymbolTable) (name : String) : Float := (t.valueOf? name).getD 0

namespace GrowsTo

lemma trans (h : t.GrowsTo u) (h' : u.GrowsTo v) : t.GrowsTo v := by
  induction h' with
  | refl => exact h
  | add _ hnone ih => exact ih.add hnone

/-- A table that grows becomes no smaller. -/
lemma size_le (h : t.GrowsTo u) : t.size ≤ u.size := by
  induction h with
  | refl => exact Nat.le_refl _
  | add _ _ ih =>
    rw [size_add]
    omega

/-- What was there keeps its name. -/
lemma name?_eq (h : t.GrowsTo u) (hindex : index < t.size) : u.name? index = t.name? index := by
  induction h with
  | refl => rfl
  | add hgrows _ ih =>
    have hsize := hgrows.size_le
    rw [name?_add, if_neg (by omega), ih]

/-- No value changes: what is new has the value zero, like an index without a variable. -/
lemma value_eq (h : t.GrowsTo u) (index : ℕ) : u.value index = t.value index := by
  induction h with
  | refl => rfl
  | add hgrows _ ih =>
    have hsize := hgrows.size_le
    rw [value_add]
    split
    · rename_i hindex
      rw [value_of_size_le (by omega)]
    · exact ih

/-- No name is read differently. -/
lemma read_eq (h : t.GrowsTo u) (name : String) : u.read name = t.read name := by
  induction h with
  | refl => rfl
  | @add u new _ hnone ih =>
    rw [← ih, read, read, valueOf?, valueOf?]
    by_cases hname : name = new
    · rw [hname, lookup_add_self, hnone, Option.map_some, value_add, if_pos rfl]
      rfl
    · rw [lookup_add_of_ne hname]
      rcases hlookup : u.lookup name with _ | index
      · rfl
      · have hindex : index ≠ u.size := Nat.ne_of_lt (lt_size_of_lookup hlookup)
        rw [Option.map_some, Option.map_some, value_add, if_neg hindex]

end GrowsTo

/-- A table grows when a name is installed. -/
lemma growsTo_of_install (h : t.install name = .ok (index, u)) : t.GrowsTo u := by
  unfold install at h
  split at h
  · cases h
    exact .refl
  · rename_i hlookup
    split at h
    · cases h
      exact .add .refl hlookup
    · cases h

end Reckon.SymbolTable
