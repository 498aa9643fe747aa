import Reckon.Proofs.Symbol.Chain

/-!
# Tables as registers

A register is what a table of variables is about: the names in the order of their installation, each
with its value.  Whatever a table is asked for, one request after another, it answers as a register
does (`SymbolTable.IsSound.respond_eq_register`, `SymbolTable.IsSound.serve_eq_register`), as long
as there are not more names than indexes.  A register knows nothing of buckets, so their number does
not show (`SymbolTable.serve_withBuckets`).
-/

namespace Reckon

/-- Names with their values, in the order of their installation. -/
abbrev Register := List (String × Float)

namespace SymbolTable

/-- What a table can be asked for. -/
inductive Request
  | install (name : String)
  | set (index : ℕ) (x : Float)
  | value (index : ℕ)
  | name (index : ℕ)
  | lookup (name : String)
  | size
  | list

/-- What can be answered. -/
inductive Answer
  | installed (index : Except Error ℕ)
  | done
  | value (x : Option Float)
  | name (name : Option String)
  | found (index : Option ℕ)
  | size (n : ℕ)
  | list (entries : Register)

/-- The names of a table and their values, in the order of their indexes. -/
def register (t : SymbolTable) : Register := t.toList.map fun s => (s.name, s.value)

/-- The answer of a table, and the table afterwards. -/
def respond : Request → SymbolTable → Answer × SymbolTable
  | .install name, t =>
    match t.install name with
    | .ok (index, u) => (.installed (.ok index), u)
    | .error e => (.installed (.error e), t)
  | .set index x, t => (.done, t.set index x)
  | .value index, t => (.value (if index < t.size then some (t.value index) else none), t)
  | .name index, t => (.name (t.name? index), t)
  | .lookup name, t => (.found (t.lookup name), t)
  | .size, t => (.size t.size, t)
  | .list, t => (.list t.register, t)

/-- The answers to requests, one after another, and what there is in the end. -/
def serve {σ : Type} (respond : Request → σ → Answer × σ) : List Request → σ → List Answer × σ
  | [], s => ([], s)
  | r :: requests, s =>
    let (answer, s') := respond r s
    let (answers, s'') := serve respond requests s'
    (answer :: answers, s'')

end SymbolTable

namespace Register

open SymbolTable

/-- The position of a name. -/
def lookup (r : Register) (name : String) : Option ℕ := r.findIdx? fun entry => entry.1 = name

/-- The answer of a register, and the register afterwards. -/
def respond : Request → Register → Answer × Register
  | .install name, r =>
    match r.lookup name with
    | some index => (.installed (.ok index), r)
    | none => (.installed (.ok r.length), r ++ [(name, 0)])
  | .set index x, r => (.done, r.modify index fun entry => (entry.1, x))
  | .value index, r => (.value (r[index]?.map Prod.snd), r)
  | .name index, r => (.name (r[index]?.map Prod.fst), r)
  | .lookup name, r => (.found (r.lookup name), r)
  | .size, r => (.size r.length, r)
  | .list, r => (.list r, r)

/-- A register finds the names it has. -/
lemma lookup_ne_none_iff (r : Register) (name : String) :
    r.lookup name ≠ none ↔ name ∈ r.map Prod.fst := by
  simp [lookup, List.findIdx?_eq_none_iff]

/-- A name that is installed is in the register then, and no other name comes or goes. -/
lemma mem_respond_iff (request : Request) (r : Register) (name : String) :
    name ∈ (respond request r).2.map Prod.fst ↔
      request = .install name ∨ name ∈ r.map Prod.fst := by
  rcases request with other | ⟨index, x⟩ | index | index | other | _ | _
  · simp only [respond, Request.install.injEq]
    rcases hlookup : r.lookup other with _ | index
    · simp [or_comm, eq_comm]
    · have hother : other ∈ r.map Prod.fst := by
        rw [← lookup_ne_none_iff, hlookup]
        exact Option.some_ne_none index
      constructor
      · exact .inr
      · rintro (rfl | hname)
        · exact hother
        · exact hname
  · have hsame : (r.modify index fun entry => (entry.1, x)).map Prod.fst = r.map Prod.fst := by
      apply List.ext_getElem?
      intro i
      simp only [List.getElem?_map, List.getElem?_modify]
      split <;> simp [Option.map_map, Function.comp_def]
    simp [respond, hsame]
  all_goals simp [respond]

/-- The names in the register are those that were installed. -/
lemma mem_serve_iff (requests : List Request) (r : Register) (name : String) :
    name ∈ (serve respond requests r).2.map Prod.fst ↔
      .install name ∈ requests ∨ name ∈ r.map Prod.fst := by
  induction requests generalizing r with
  | nil => simp [serve]
  | cons request requests ih =>
    rw [serve, ih, mem_respond_iff, List.mem_cons, or_assoc, or_left_comm, eq_comm]

/-- No request makes a register shorter. -/
lemma length_le_respond (request : Request) (r : Register) :
    r.length ≤ (respond request r).2.length := by
  cases request <;> simp only [respond, List.length_modify, Nat.le_refl]
  split <;> simp

/-- A register only grows. -/
lemma length_le_serve (requests : List Request) (r : Register) :
    r.length ≤ (serve respond requests r).2.length := by
  induction requests generalizing r with
  | nil => exact Nat.le_refl _
  | cons request requests ih => exact Nat.le_trans (length_le_respond request r) (ih _)

end Register

namespace SymbolTable

variable {t : SymbolTable} {name : String} {index : ℕ}

/-! ## Single operations -/

lemma length_register (t : SymbolTable) : t.register.length = t.size := by
  simp [register, toList, size]

/-- The register of a table has its names and values in their order. -/
lemma getElem?_register (t : SymbolTable) (index : ℕ) :
    t.register[index]? = t.symbols[index]?.map fun s => (s.name, s.value) := by
  simp [register, toList]

lemma name?_eq_register (t : SymbolTable) (index : ℕ) :
    t.name? index = t.register[index]?.map Prod.fst := by
  rw [getElem?_register, Option.map_map]
  rfl

lemma value_eq_register (t : SymbolTable) (index : ℕ) :
    (if index < t.size then some (t.value index) else none) = t.register[index]?.map Prod.snd := by
  rw [getElem?_register, Option.map_map, value]
  split
  · rename_i h
    rw [Array.getElem?_eq_getElem h]
    rfl
  · rename_i h
    rw [Array.getElem?_eq_none (Nat.not_lt.1 h)]
    rfl

/-- A name is added at the end of the register. -/
lemma register_add (t : SymbolTable) (name : String) :
    (t.add name).register = t.register ++ [(name, 0)] := by
  simp [register, toList, add]

/-- A value is set in its place. -/
lemma register_set (t : SymbolTable) (index : ℕ) (x : Float) :
    (t.set index x).register = t.register.modify index fun entry => (entry.1, x) := by
  apply List.ext_getElem?
  intro i
  simp only [getElem?_register, List.getElem?_modify, set, Array.getElem?_modify]
  split <;> simp [Option.map_map, Function.comp_def]

/-- A name is found where it is in the register. -/
lemma IsSound.lookup_eq_register (h : t.IsSound) (name : String) :
    t.lookup name = t.register.lookup name := by
  have hname : ∀ i (hi : i < t.register.length), t.name? i = some t.register[i].1 := by
    intro i hi
    rw [name?_eq_register, List.getElem?_eq_getElem hi]
    rfl
  ext index
  rw [h.lookup_eq_some_iff, Register.lookup, List.findIdx?_eq_some_iff_getElem]
  simp only [decide_eq_true_iff]
  constructor
  · intro hindex
    have hlt : index < t.register.length := by
      rw [length_register]
      exact lt_size_of_name? hindex
    have hentry := (hname index hlt).symm.trans hindex
    refine ⟨hlt, Option.some.inj hentry, fun j hj hother => ?_⟩
    -- a name has one index, so no earlier entry has this name
    have hjlt := Nat.lt_trans hj hlt
    have hsame := h.eq_of_name? name j index (by rw [hname j hjlt, hother]) hindex
    exact Nat.ne_of_lt hj hsame
  · rintro ⟨hlt, hentry, -⟩
    rw [hname index hlt, hentry]

/-! ## Requests -/

/-- One request is answered by a table as by its register, and both stay together. -/
theorem IsSound.respond_eq_register (h : t.IsSound) (request : Request)
    (hroom : (Register.respond request t.register).2.length ≤ limit) :
    (respond request t).2.IsSound ∧
      ((respond request t).1, (respond request t).2.register) =
        Register.respond request t.register := by
  rcases request with name | ⟨index, x⟩ | index | index | name | _ | _
  · rw [Register.respond, ← h.lookup_eq_register] at hroom ⊢
    rcases hlookup : t.lookup name with _ | index
    · simp only [hlookup, List.length_append, length_register] at hroom
      have hinstall : t.install name = .ok (t.size, t.add name) := by
        rw [SymbolTable.install, hlookup]
        exact if_pos hroom
      simp only [respond, hinstall]
      exact ⟨h.add hlookup, by rw [register_add, length_register]⟩
    · have hinstall : t.install name = .ok (index, t) := by
        rw [SymbolTable.install, hlookup]
      simp only [respond, hinstall]
      exact ⟨h, trivial⟩
  · exact ⟨h.set index x, by simp only [respond, Register.respond, register_set]⟩
  · exact ⟨h, by simp only [respond, Register.respond, value_eq_register]⟩
  · exact ⟨h, by simp only [respond, Register.respond, name?_eq_register]⟩
  · exact ⟨h, by simp only [respond, Register.respond, h.lookup_eq_register]⟩
  · exact ⟨h, by simp only [respond, Register.respond, length_register]⟩
  · exact ⟨h, rfl⟩

/-- Requests are answered by a table as by its register. -/
theorem IsSound.serve_eq_register (h : t.IsSound) (requests : List Request)
    (hroom : (serve Register.respond requests t.register).2.length ≤ limit) :
    (serve respond requests t).2.IsSound ∧
      ((serve respond requests t).1, (serve respond requests t).2.register) =
        serve Register.respond requests t.register := by
  induction requests generalizing t with
  | nil => exact ⟨h, rfl⟩
  | cons request requests ih =>
    have hstep : (Register.respond request t.register).2.length ≤ limit :=
      Nat.le_trans (Register.length_le_serve requests _) hroom
    obtain ⟨hsound, heq⟩ := h.respond_eq_register request hstep
    simp only [serve] at hroom ⊢
    rw [← heq] at hroom ⊢
    obtain ⟨hsound', heq'⟩ := ih hsound hroom
    refine ⟨hsound', ?_⟩
    rw [← heq']

/-! ## What stays -/

/-- Only the value that is set changes. -/
lemma value_set_of_ne {i : ℕ} (h : index ≠ i) (x : Float) :
    (t.set i x).value index = t.value index := by
  simp only [value, set, Array.getElem?_modify, if_neg h.symm]

/-- A value that is set leaves every name where it is found. -/
lemma lookup_set (t : SymbolTable) (i : ℕ) (x : Float) (name : String) :
    (t.set i x).lookup name = t.lookup name := by
  simp only [lookup, chain_set, name?_set]

/-- A request leaves every name where it was, and only a new value changes a value. -/
lemma respond_keeps (request : Request) (t : SymbolTable) :
    (respond request t).2.Extends t ∧ ∀ index, (∀ x, request ≠ .set index x) →
      (respond request t).2.value index = t.value index := by
  rcases request with name | ⟨i, x⟩ | index | index | name | _ | _
  · simp only [respond]
    rcases hinstall : t.install name with e | ⟨index, u⟩
    · exact ⟨.refl t, fun _ _ => rfl⟩
    · exact ⟨(extends_of_install hinstall).1,
        fun index _ => (growsTo_of_install hinstall).value_eq index⟩
  · refine ⟨fun name index hlookup => (lookup_set t i x name).trans hlookup, fun index hset => ?_⟩
    have hne : index ≠ i := by
      rintro rfl
      exact hset x rfl
    exact value_set_of_ne hne x
  all_goals exact ⟨.refl t, fun _ _ => rfl⟩

/-- So do requests one after another. -/
theorem serve_keeps (requests : List Request) (t : SymbolTable) :
    (serve respond requests t).2.Extends t ∧ ∀ index, (∀ x, .set index x ∉ requests) →
      (serve respond requests t).2.value index = t.value index := by
  induction requests generalizing t with
  | nil => exact ⟨.refl t, fun _ _ => rfl⟩
  | cons request requests ih =>
    obtain ⟨hextends, hvalue⟩ := respond_keeps request t
    obtain ⟨hextends', hvalue'⟩ := ih (respond request t).2
    refine ⟨hextends'.trans hextends, fun index hset => ?_⟩
    have hfirst : ∀ x, request ≠ .set index x := by
      rintro x rfl
      exact hset x List.mem_cons_self
    have hlater : ∀ x, .set index x ∉ requests := fun x hmem => hset x (List.mem_cons_of_mem _ hmem)
    exact (hvalue' index hlater).trans (hvalue index hfirst)

/-- A new table answers requests, one after another, as an empty register does, however many buckets
it has: as long as there are not more names than indexes, it finds those names that were installed,
where the register has them, and whatever it is asked for later, names keep their indexes and
indexes their names, and values are what they were last set to. -/
theorem serve_withBuckets (count : ℕ) (requests : List Request)
    (hroom : (serve Register.respond requests []).2.length ≤ limit) :
    let answered := serve respond requests (withBuckets count)
    let t := answered.2
    (answered.1, t.register) = serve Register.respond requests [] ∧
      (∀ count', (serve respond requests (withBuckets count')).1 = answered.1) ∧
      (∀ name, t.lookup name ≠ none ↔ .install name ∈ requests) ∧
      (∀ name index, t.lookup name = some index ↔ t.name? index = some name) ∧
      ∀ later index, index < t.size →
        let u := (serve respond later t).2
        u.name? index = t.name? index ∧
          (∀ name, t.lookup name = some index → u.lookup name = some index) ∧
          ((∀ x, .set index x ∉ later) → u.value index = t.value index) := by
  intro answered t
  obtain ⟨hsound, heq⟩ := (IsSound.withBuckets count).serve_eq_register requests hroom
  refine ⟨heq, ?_, ?_, fun name index => hsound.lookup_eq_some_iff, ?_⟩
  · intro count'
    obtain ⟨-, heq'⟩ := (IsSound.withBuckets count').serve_eq_register requests hroom
    exact (Prod.ext_iff.1 (heq'.trans heq.symm)).1
  · intro name
    have hregister : t.register = (serve Register.respond requests []).2 := congrArg Prod.snd heq
    rw [hsound.lookup_eq_register, Register.lookup_ne_none_iff, hregister, Register.mem_serve_iff]
    exact or_iff_left List.not_mem_nil
  · intro later index hindex u
    obtain ⟨hextends, hvalue⟩ := serve_keeps later t
    obtain ⟨name, hname⟩ : ∃ name, t.name? index = some name :=
      ⟨_, congrArg (Option.map Symbol.name) (Array.getElem?_eq_getElem hindex)⟩
    have hlookup := hextends name index (hsound.lookup_eq_some_iff.2 hname)
    exact ⟨(name?_of_lookup hlookup).trans hname.symm, fun other => hextends other index,
      hvalue index⟩

/-- In a table whose names all share a bucket each name keeps its own value. -/
theorem serve_withBuckets_zero :
    let requests : List Request := [.install "b", .install "a", .set 0 2.5, .install "b",
      .lookup "a", .value 0, .value 1, .lookup "c", .size]
    (serve Register.respond requests []).2.length ≤ limit ∧
      (serve respond requests (withBuckets 0)).1 = [.installed (.ok 0), .installed (.ok 1), .done,
        .installed (.ok 0), .found (some 1), .value (some 2.5), .value (some 0), .found none,
        .size 2] := by
  intro requests
  have hroom : (serve Register.respond requests []).2.length ≤ limit := by decide +kernel
  obtain ⟨hanswers, -⟩ := serve_withBuckets 0 requests hroom
  exact ⟨hroom, congrArg Prod.fst hanswers⟩

end SymbolTable

end Reckon
