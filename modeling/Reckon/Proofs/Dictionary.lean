import Mathlib.Data.List.Chain
import Mathlib.Tactic.Common
import Reckon.Builtin

/-!
# Built-in names

Halving finds what there is to find as long as the table is in ascending order
(`Builtin.searchBetween_ne_none`), and the table is.  So looking up a name finds the entry with this
name (`Builtin.lookup_eq_some_iff`).

The built-in names are those of the `dictionary`, and each stands there beside what is looked up for
it (`Builtin.mem_dictionary_iff`).
-/

namespace Reckon.Builtin

variable {entries : Array Builtin} {name : String} {low high i : ℕ} {b : Builtin}

/-! ## Halving -/

/-- Whether the names are in ascending order. -/
def IsAscending (entries : Array Builtin) : Prop :=
  entries.toList.Pairwise fun a b => a.name < b.name

/-- What is found is an entry. -/
lemma mem_of_searchBetween (h : searchBetween entries name low high = some b) : b ∈ entries := by
  fun_induction searchBetween entries name low high with
  | case1 | case5 => contradiction
  | case2 low high _ middle entry hentry _ =>
    exact Option.some.inj h ▸ Array.mem_of_getElem? hentry
  | case3 _ _ _ _ _ _ _ _ ih => exact ih h
  | case4 _ _ _ _ _ _ _ _ ih => exact ih h

/-- A smaller name stands further to the left. -/
lemma IsAscending.lt_of_name_lt (h : IsAscending entries) {j : ℕ} {a : Builtin}
    (hi : entries[i]? = some a) (hj : entries[j]? = some b) (hlt : a.name < b.name) : i < j := by
  obtain ⟨hisize, rfl⟩ := Array.getElem?_eq_some_iff.1 hi
  obtain ⟨hjsize, rfl⟩ := Array.getElem?_eq_some_iff.1 hj
  by_contra hnot
  rcases Nat.lt_or_eq_of_le (Nat.not_lt.1 hnot) with hji | rfl
  · exact String.lt_asymm hlt (List.pairwise_iff_getElem.1 h j i hjsize hisize hji)
  · exact String.lt_irrefl _ hlt

/-- An entry in the range is not missed. -/
theorem searchBetween_ne_none (h : IsAscending entries) (hb : entries[i]? = some b) (hlow : low ≤ i)
    (hhigh : i < high) (hsize : high ≤ entries.size) :
    searchBetween entries b.name low high ≠ none := by
  generalize hname : b.name = name
  fun_induction searchBetween entries name low high with
  | case1 low high hlt middle hnone =>
    have hmiddle : middle < high := Nat.div_lt_of_lt_mul (by omega)
    exact absurd (Array.getElem?_eq_none_iff.1 hnone)
      (Nat.not_le.2 (Nat.lt_of_lt_of_le hmiddle hsize))
  | case2 => exact Option.some_ne_none _
  | case3 low high hlt middle entry hentry hne hless ih =>
    -- the entry in the middle is too small, and so is everything to its left
    exact ih (h.lt_of_name_lt hentry hb (hname ▸ hless)) hhigh hsize
  | case4 low high hlt middle entry hentry hne hless ih =>
    have hmore : b.name < entry.name := by
      rw [hname]
      exact Std.lt_of_le_of_ne hless (Ne.symm hne)
    have hmiddle : middle < high := Nat.div_lt_of_lt_mul (by omega)
    exact ih hlow (h.lt_of_name_lt hb hentry hmore) (Nat.le_trans (Nat.le_of_lt hmiddle) hsize)
  | case5 low high hempty => exact absurd (Nat.lt_of_le_of_lt hlow hhigh) hempty

/-! ## The table -/

/-- A built-in is found by its own name. -/
lemma name_of_lookup {name : String} {b : Builtin} (h : lookup name = some b) :
    b.name = name := by
  have hsearch : ∀ low high, searchBetween table name low high = some b → b.name = name := by
    intro low high h
    fun_induction searchBetween table name low high with
    | case1 | case5 => contradiction
    | case2 low high _ middle entry _ hname => exact Option.some.inj h ▸ hname
    | case3 _ _ _ _ _ _ _ _ ih => exact ih h
    | case4 _ _ _ _ _ _ _ _ ih => exact ih h
  exact hsearch _ _ h

/-- The names in the table are in ascending order. -/
lemma isAscending_table : IsAscending table := by
  unfold IsAscending
  rw [← List.isChain_iff_pairwise]
  decide

/-- No two entries have the same name. -/
lemma eq_of_mem_table {a : Builtin} (ha : a ∈ table) (hb : b ∈ table) (hname : a.name = b.name) :
    a = b := by
  obtain ⟨i, hi, rfl⟩ := Array.mem_iff_getElem.1 ha
  obtain ⟨j, hj, rfl⟩ := Array.mem_iff_getElem.1 hb
  have hsorted := List.pairwise_iff_getElem.1 isAscending_table
  rcases Nat.lt_trichotomy i j with hlt | rfl | hlt
  · exact absurd hname (String.ne_of_lt (hsorted i j hi hj hlt))
  · rfl
  · exact absurd hname.symm (String.ne_of_lt (hsorted j i hj hi hlt))

/-- What is found for a name is the entry with exactly this name. -/
theorem lookup_eq_some_iff : lookup name = some b ↔ b ∈ table ∧ b.name = name := by
  constructor
  · exact fun h => ⟨mem_of_searchBetween h, name_of_lookup h⟩
  · rintro ⟨hmem, rfl⟩
    obtain ⟨i, hi⟩ := Array.getElem?_of_mem hmem
    have hsize := (Array.getElem?_eq_some_iff.1 hi).1
    obtain ⟨a, ha⟩ := Option.ne_none_iff_exists'.1
      (searchBetween_ne_none isAscending_table hi (Nat.zero_le i) hsize (Nat.le_refl _))
    have ha : lookup b.name = some a := ha
    rw [ha, eq_of_mem_table (mem_of_searchBetween ha) hmem (name_of_lookup ha)]

/-- The names of the table are reserved. -/
lemma isReserved_iff : isReserved name = true ↔ ∃ b ∈ table, b.name = name := by
  simp only [isReserved, Option.isSome_iff_exists, lookup_eq_some_iff]

/-- A name that is not found has no entry. -/
lemma lookup_eq_none_iff : lookup name = none ↔ ¬∃ b ∈ table, b.name = name := by
  rw [← isReserved_iff, isReserved, Bool.not_eq_true, Option.isSome_eq_false_iff,
    Option.isNone_iff_eq_none]

/-! ## The names -/

/-- The built-in names: functions of one number, functions of two, and constants. -/
def dictionary : List (String × Meaning) :=
  [("abs", .unary .abs), ("acos", .unary .acos), ("asin", .unary .asin), ("atan", .unary .atan),
    ("ceil", .unary .ceil), ("cos", .unary .cos), ("cosh", .unary .cosh), ("exp", .unary .exp),
    ("floor", .unary .floor), ("log", .unary .log), ("log10", .unary .log10),
    ("round", .unary .round), ("sin", .unary .sin), ("sinh", .unary .sinh), ("sqrt", .unary .sqrt),
    ("tan", .unary .tan), ("tanh", .unary .tanh),
    ("atan2", .binary .atan2), ("max", .binary .max), ("min", .binary .min), ("pow", .binary .pow),
    ("e", .constant .e), ("nan", .constant .nan), ("pi", .constant .pi)]

/-- The entries of the table are those of the dictionary. -/
lemma mem_table_iff {b : Builtin} : b ∈ table ↔ (b.name, b.meaning) ∈ dictionary := by
  have htable : ∀ b ∈ table.toList, (b.name, b.meaning) ∈ dictionary := by decide
  have hdictionary : ∀ entry ∈ dictionary, Builtin.mk entry.1 entry.2 ∈ table.toList := by decide
  rw [← Array.mem_toList_iff]
  exact ⟨htable b, hdictionary (b.name, b.meaning)⟩

variable {m : Meaning}

/-- What is looked up stands in the dictionary. -/
lemma mem_dictionary_iff :
    (name, m) ∈ dictionary ↔ (lookup name).map Builtin.meaning = some m := by
  rw [Option.map_eq_some_iff]
  constructor
  · exact fun h => ⟨⟨name, m⟩, lookup_eq_some_iff.2 ⟨mem_table_iff.2 h, rfl⟩, rfl⟩
  · rintro ⟨b, hlookup, rfl⟩
    obtain ⟨hmem, rfl⟩ := lookup_eq_some_iff.1 hlookup
    exact mem_table_iff.1 hmem

/-- A name stands for one thing only. -/
lemma eq_of_mem_dictionary {m' : Meaning} (h : (name, m) ∈ dictionary)
    (h' : (name, m') ∈ dictionary) :
    m = m' :=
  Option.some.inj ((mem_dictionary_iff.1 h).symm.trans (mem_dictionary_iff.1 h'))

/-- What is not found has no entry in the dictionary. -/
lemma notMem_dictionary_iff : (∀ m, (name, m) ∉ dictionary) ↔ lookup name = none := by
  simp only [mem_dictionary_iff, Option.map_eq_some_iff, not_exists, not_and]
  constructor
  · intro h
    cases hlookup : lookup name with
    | none => rfl
    | some b => exact absurd rfl (h b.meaning b hlookup)
  · intro h m b hlookup
    rw [h] at hlookup
    contradiction

end Reckon.Builtin
