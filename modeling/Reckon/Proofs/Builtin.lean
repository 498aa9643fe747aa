import Reckon.Engine.Assignment
import Reckon.Proofs.Expr.Position
import Reckon.Proofs.Expr.Soundness

/-!
# Looking up built-in names

Looking up a name is the same as going through all entries, for every name.  It does not matter
either how the halving is done or whether names are compared by characters or by bytes: any search
that does on ascending entries what is promised of it (`Builtin.SearchesAscending`) finds the same.

Expressions and assignments ask the same question.  A name that is not in the table is a variable
for both, and a name in the table for neither (`Builtin.lookup_spec`).
-/

namespace Reckon.Builtin

variable {name : String} {b : Builtin}

/-- Going through all entries finds the one with this name. -/
lemma find?_eq_some_iff :
    table.toList.find? (fun b => b.name = name) = some b ↔ b ∈ table ∧ b.name = name := by
  constructor
  · intro h
    have hname := List.find?_some h
    exact ⟨Array.mem_toList_iff.1 (List.mem_of_find?_eq_some h), of_decide_eq_true hname⟩
  · rintro ⟨hmem, rfl⟩
    have hfound : (table.toList.find? fun a => a.name = b.name).isSome = true :=
      List.find?_isSome.2 ⟨b, Array.mem_toList_iff.2 hmem, decide_eq_true rfl⟩
    obtain ⟨a, ha⟩ := Option.isSome_iff_exists.1 hfound
    have hname := List.find?_some ha
    rw [ha, eq_of_mem_table (Array.mem_toList_iff.1 (List.mem_of_find?_eq_some ha)) hmem
      (of_decide_eq_true hname)]

/-! ## Any search in ascending entries -/

/-- The order of two texts by their bytes. -/
def compareBytes (s t : String) : Ordering := compare (utf8 s.toList) (utf8 t.toList)

/-- Only equal names compare as equal. -/
lemma compareBytes_eq_eq_iff {s t : String} : compareBytes s t = .eq ↔ s = t := by
  unfold compareBytes
  rw [Std.LawfulEqCmp.compare_eq_iff_eq]
  refine ⟨fun h => ?_, fun h => h ▸ rfl⟩
  have hencoded : s.toList.utf8Encode = t.toList.utf8Encode := congrArg List.toByteArray h
  rw [← String.toByteArray_ofList, ← String.toByteArray_ofList, String.ofList_toList,
    String.ofList_toList] at hencoded
  exact String.toByteArray_inj.1 hencoded

/-- Whether a search finds the place of an entry that compares equal where there is one, provided
that the entries that compare less come first and those that compare greater last. -/
def SearchesAscending (search : List Builtin → (Builtin → Ordering) → Option ℕ) : Prop :=
  ∀ entries compared,
    (entries.Pairwise fun a b =>
      (compared b = .lt → compared a = .lt) ∧ (compared a = .gt → compared b = .gt)) →
    match search entries compared with
    | some i => ∃ b, entries[i]? = some b ∧ compared b = .eq
    | none => ∀ b ∈ entries, compared b ≠ .eq

/-- The order of the table is that of the bytes, too. -/
lemma pairwise_compareBytes_table :
    table.toList.Pairwise fun a b => compareBytes a.name b.name = .lt := by
  have hchain : table.toList.IsChain fun a b => compareBytes a.name b.name = .lt := by decide
  have htrans : IsTrans Builtin fun a b => compareBytes a.name b.name = .lt := by
    unfold compareBytes
    exact ⟨fun _ _ _ => Std.TransCmp.lt_trans⟩
  exact hchain.pairwise

/-- Compared with any text, the names that are less come first and those that are greater last. -/
lemma pairwise_compared (name : String) : table.toList.Pairwise fun a b =>
    (compareBytes b.name name = .lt → compareBytes a.name name = .lt) ∧
      (compareBytes a.name name = .gt → compareBytes b.name name = .gt) := by
  refine pairwise_compareBytes_table.imp fun {a b} hab => ?_
  unfold compareBytes at hab ⊢
  exact ⟨fun hb => Std.TransCmp.lt_trans hab hb,
    fun ha => Std.TransCmp.gt_trans (Std.OrientedCmp.gt_of_lt hab) ha⟩

/-- Any search by bytes finds what halving finds. -/
lemma bind_search_eq_lookup {search : List Builtin → (Builtin → Ordering) → Option ℕ}
    (h : SearchesAscending search) (name : String) :
    ((search table.toList fun b => compareBytes b.name name).bind fun i => table[i]?) =
      lookup name := by
  have hsearch := h table.toList (fun b => compareBytes b.name name) (pairwise_compared name)
  cases hfound : search table.toList fun b => compareBytes b.name name with
  | none =>
    rw [hfound] at hsearch
    refine (lookup_eq_none_iff.2 ?_).symm
    rintro ⟨b, hmem, hname⟩
    exact hsearch b (Array.mem_toList_iff.2 hmem) (compareBytes_eq_eq_iff.2 hname)
  | some i =>
    rw [hfound] at hsearch
    obtain ⟨b, hi, hb⟩ := hsearch
    rw [Array.getElem?_toList] at hi
    rw [Option.bind_some, hi]
    exact (lookup_eq_some_iff.2 ⟨Array.mem_of_getElem? hi, compareBytes_eq_eq_iff.1 hb⟩).symm

/-! ## Names in expressions and assignments -/

variable {c : Cursor}

/-- Where a name stands, no assignment can be made exactly if it is the name of a built-in. -/
lemma targetAt_eq_reservedName_iff (htoken : c.token? = some (.name name)) :
    Assignment.targetAt c = .error (.reservedName name c.skipBlanks.offset) ↔
      isReserved name = true := by
  unfold Assignment.targetAt
  rw [Cursor.name_eq, htoken]
  dsimp only
  by_cases hreserved : isReserved name = true
  · rw [if_pos hreserved]
    exact iff_of_true rfl hreserved
  · rw [if_neg hreserved]
    refine iff_of_false ?_ hreserved
    split <;> simp [pure, Except.pure, throw, throwThe, MonadExceptOf.throw]

/-- Where a name stands, an expression has a variable exactly if it is not the name of a
built-in. -/
lemma primary_eq_var_iff (htoken : c.token? = some (.name name)) (limit allowance : ℕ)
    (done : List Expr) :
    Expr.primary (Expr.reader limit allowance .expression) ⟨c, done⟩ =
        .ok () ⟨c.past (.name name), .var name c.skipBlanks.offset :: done⟩ ↔
      isReserved name = false := by
  have hgroup := (Expr.reads_reader limit allowance).1
  rw [Expr.primary_apply, htoken]
  dsimp only
  unfold Expr.named
  rw [isReserved]
  rcases hlookup : lookup name with _ | ⟨found, _ | _ | _⟩
  · exact iff_of_true rfl rfl
  · refine iff_of_false (fun h => ?_) Bool.false_ne_true.symm
    cases h
  all_goals
    refine iff_of_false (fun h => ?_) Bool.false_ne_true.symm
    obtain ⟨ts, t, hderives, -, -, hdone⟩ :=
      Expr.reads_call (o := c.skipBlanks.offset) hgroup hlookup (by simp) h
    obtain ⟨hexpr, -⟩ := List.cons.inj hdone
    cases hderives with
    | constant | apply₁ | apply₂ => cases hexpr
    | var hnone =>
      rw [notMem_dictionary_iff.1 hnone] at hlookup
      contradiction

/-- For every name halving finds the entry with exactly this name, if there is one, and nothing
otherwise.  It finds what going through all entries finds, and what any other search in ascending
entries finds by comparing bytes.  The names that are found are the reserved ones; and where a name
stands in a source, it cannot be assigned to exactly if it is found, and an expression takes it for
a variable exactly if it is not. -/
theorem lookup_spec {search : List Builtin → (Builtin → Ordering) → Option ℕ}
    (hsearch : SearchesAscending search) (name : String) :
    (∀ b, lookup name = some b ↔ b ∈ table ∧ b.name = name) ∧
    lookup name = table.toList.find? (fun b => b.name = name) ∧
    lookup name =
      ((search table.toList fun b => compareBytes b.name name).bind fun i => table[i]?) ∧
    (isReserved name = true ↔ ∃ b ∈ table, b.name = name) ∧
    ∀ c : Cursor, c.token? = some (.name name) →
      (Assignment.targetAt c = .error (.reservedName name c.skipBlanks.offset) ↔
        ∃ b ∈ table, b.name = name) ∧
      ∀ limit allowance done,
        Expr.primary (Expr.reader limit allowance .expression) ⟨c, done⟩ =
            .ok () ⟨c.past (.name name), .var name c.skipBlanks.offset :: done⟩ ↔
          ¬∃ b ∈ table, b.name = name := by
  have hlinear : lookup name = table.toList.find? (fun b => b.name = name) :=
    Option.ext fun b => lookup_eq_some_iff.trans find?_eq_some_iff.symm
  refine ⟨fun b => lookup_eq_some_iff, hlinear, (bind_search_eq_lookup hsearch name).symm,
    isReserved_iff, fun c htoken => ⟨?_, fun limit allowance done => ?_⟩⟩
  · rw [targetAt_eq_reservedName_iff htoken, isReserved_iff]
  · rw [primary_eq_var_iff htoken, ← isReserved_iff, Bool.not_eq_true]

/-- The first entry that compares equal is the place of one. -/
lemma searchesAscending_findIdx? :
    SearchesAscending fun entries compared => entries.findIdx? fun b => compared b = .eq := by
  intro entries compared _
  dsimp only
  split
  · rename_i i hfound
    obtain ⟨hi, hequal, -⟩ := List.findIdx?_eq_some_iff_getElem.1 hfound
    exact ⟨entries[i], List.getElem?_eq_getElem hi, of_decide_eq_true hequal⟩
  · rename_i hfound
    exact fun b hb => of_decide_eq_false (List.findIdx?_eq_none_iff.1 hfound b hb)

/-- A name that begins with another one. -/
theorem lookup_spec_log10 :
    SearchesAscending (fun entries compared => entries.findIdx? fun b => compared b = .eq) ∧
    lookup "log10" = some ⟨"log10", .unary .log10⟩ ∧
    (table.toList.findIdx? fun b => compareBytes b.name "log10" = .eq).bind (table[·]?) =
      some ⟨"log10", .unary .log10⟩ ∧
    isReserved "log10" = true ∧
    (Cursor.ofString "log10=2").token? = some (.name "log10") ∧
    Assignment.targetAt (Cursor.ofString "log10=2") = .error (.reservedName "log10" 0) := by
  obtain ⟨hiff, -, hsearch, hreserved, hstands⟩ := lookup_spec searchesAscending_findIdx? "log10"
  have hmem : ⟨"log10", .unary .log10⟩ ∈ table := by simp [table]
  have htoken : (Cursor.ofString "log10=2").token? = some (.name "log10") := rfl
  have hlookup := (hiff ⟨"log10", .unary .log10⟩).2 ⟨hmem, rfl⟩
  exact ⟨searchesAscending_findIdx?, hlookup, hsearch.symm.trans hlookup,
    hreserved.2 ⟨_, hmem, rfl⟩, htoken, (hstands _ htoken).1.2 ⟨_, hmem, rfl⟩⟩

end Reckon.Builtin
