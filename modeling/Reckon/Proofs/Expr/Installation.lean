import Reckon.Proofs.Expr.Advance
import Reckon.Proofs.Expr.Mention
import Reckon.Proofs.Symbol.Register

/-!
# What compilations install

While a source is compiled, its variables are looked up one after another, and installed if that is
wanted.  Nothing takes an installation back, whatever fails later.

What happens to the table is told by the names alone: it *learns* the variables of some first tokens
of the source, of all tokens if the compilation succeeds (`Compilation.Learns`, `Expr.learns_emit`).
A table that learns names is extended at its end by those that are new to it, each once, in the
order in which they first occur, with the value zero (`SymbolTable.register_learn`).
-/

namespace Reckon

open Outcome

namespace SymbolTable

variable {t : SymbolTable} {name : String} {names names' : List String}

/-- The names that are new to a table, each once, in the order in which they first occur. -/
def newNames (t : SymbolTable) (names : List String) : List String :=
  (names.filter fun name => t.lookup name = none).eraseDups

/-- The table after names were looked up in it one after another, and added where they were new. -/
def learn (t : SymbolTable) : List String → SymbolTable
  | [] => t
  | name :: names => (if t.lookup name = none then t.add name else t).learn names

/-- Names are learned one after the other. -/
lemma learn_append (t : SymbolTable) (names names' : List String) :
    t.learn (names ++ names') = (t.learn names).learn names' := by
  induction names generalizing t with
  | nil => rfl
  | cons name names ih => exact ih _

/-- A name that is known is not learned. -/
lemma learn_of_lookup_ne_none (h : t.lookup name ≠ none) : t.learn [name] = t := if_neg h

/-- A new name is added. -/
lemma learn_of_lookup_eq_none (h : t.lookup name = none) : t.learn [name] = t.add name := if_pos h

/-- A table that learns keeps what it knows. -/
lemma extends_learn (t : SymbolTable) (names : List String) : (t.learn names).Extends t := by
  induction names generalizing t with
  | nil => exact .refl t
  | cons name names ih =>
    refine (ih _).trans ?_
    split
    · rename_i hnone
      exact extends_add hnone
    · exact .refl t

/-- All names are known that were learned. -/
lemma lookup_learn_ne_none (hname : name ∈ names) : (t.learn names).lookup name ≠ none := by
  induction names generalizing t with
  | nil => exact absurd hname List.not_mem_nil
  | cons other names ih =>
    rcases List.mem_cons.1 hname with rfl | hname
    · have hknown : (t.learn [name]).lookup name ≠ none := by
        by_cases hnone : t.lookup name = none
        · rw [learn_of_lookup_eq_none hnone]
          exact lookup_add_self_ne_none t name
        · rw [learn_of_lookup_ne_none hnone]
          exact hnone
      exact fun hnone => hknown ((extends_learn _ names).lookup_eq_none hnone)
    · exact ih hname

/-- The new names are those among the names that the table does not know. -/
lemma mem_newNames_iff : name ∈ t.newNames names ↔ name ∈ names ∧ t.lookup name = none := by
  rw [newNames, List.mem_eraseDups, List.mem_filter, decide_eq_true_iff]

/-- A name that is known is not new. -/
lemma newNames_cons_of_lookup_ne_none (h : t.lookup name ≠ none) :
    t.newNames (name :: names) = t.newNames names := by
  rw [newNames, List.filter_cons_of_neg (by simpa using h), newNames]

/-- A new name comes first, and is known from then on. -/
lemma newNames_cons_of_lookup_eq_none (h : t.lookup name = none) :
    t.newNames (name :: names) = name :: (t.add name).newNames names := by
  rw [newNames, List.filter_cons_of_pos (by simpa using h), List.eraseDups_cons, newNames,
    List.filter_filter]
  congr 3
  funext other
  by_cases hother : other = name
  · rw [hother, lookup_add_self]
    simp
  · rw [lookup_add_of_ne hother]
    simp [hother]

/-- A table that learns is extended at its end by the new names, with the value zero. -/
lemma register_learn (t : SymbolTable) (names : List String) :
    (t.learn names).register = t.register ++ (t.newNames names).map fun name => (name, 0) := by
  induction names generalizing t with
  | nil => exact (List.append_nil _).symm
  | cons name names ih =>
    rw [learn, ih]
    split
    · rename_i hnone
      rw [newNames_cons_of_lookup_eq_none hnone, register_add, List.append_assoc]
      rfl
    · rename_i hknown
      rw [newNames_cons_of_lookup_ne_none hknown]

/-- New names are found in their order behind what was there. -/
lemma lookup_learn (t : SymbolTable) (names : List String) {i : ℕ}
    (h : (t.newNames names)[i]? = some name) : (t.learn names).lookup name = some (t.size + i) := by
  induction names generalizing t i with
  | nil => cases h
  | cons other names ih =>
    rw [learn]
    split
    · rename_i hnone
      rw [newNames_cons_of_lookup_eq_none hnone] at h
      cases i with
      | zero =>
        obtain rfl : other = name := Option.some.inj h
        exact extends_learn _ names _ _ (lookup_add_self t other)
      | succ i =>
        rw [ih (t.add other) h, size_add, Nat.add_right_comm]
        rfl
    · rename_i hknown
      rw [newNames_cons_of_lookup_ne_none hknown] at h
      exact ih t h

end SymbolTable

namespace Compilation

open SymbolTable

variable {o : CompileOptions} {body next : Compilation Unit} {names names' : List String}

/-- Whether the table learns these names in a part of a compilation, and only some first ones of
them where the part fails. -/
def Learns (body : Compilation Unit) (names : List String) : Prop :=
  ∀ w, ∃ learned, learned <+: names ∧ (final (body w)).symbols = w.symbols.learn learned ∧
    (isSuccess (body w) = true → learned = names)

/-- A name that is resolved is learned, and where it is not, nothing changes. -/
lemma resolve_cases (o : CompileOptions) (name : String) (position : ℕ) (w : Workplace) :
    (∃ index w', resolve o name position w = .ok index w' ∧ w'.symbols = w.symbols.learn [name]) ∨
      ∃ e, resolve o name position w = .error e w := by
  unfold resolve
  split
  · rename_i index hlookup
    have hknown : w.symbols.lookup name ≠ none := by
      rw [hlookup]
      exact Option.some_ne_none index
    exact .inl ⟨index, w, rfl, (learn_of_lookup_ne_none hknown).symm⟩
  · rename_i hnone
    split
    · rw [install, hnone]
      by_cases hroom : w.symbols.size < limit
      · rw [if_pos hroom]
        exact .inl ⟨_, _, rfl, (learn_of_lookup_eq_none hnone).symm⟩
      · rw [if_neg hroom]
        exact .inr ⟨_, rfl⟩
    · exact .inr ⟨_, rfl⟩

namespace Learns

/-- What is learned by two parts is learned by them together. -/
lemma seq (h : Learns body names) (h' : Learns next names') :
    Learns (body >>= fun _ => next) (names ++ names') := by
  intro w
  obtain ⟨learned, hfirst, hsymbols, hall⟩ := h w
  rw [bind_apply]
  cases hbody : body w with
  | error e w₁ =>
    rw [hbody] at hsymbols
    exact ⟨learned, hfirst.trans (List.prefix_append _ _), hsymbols,
      fun hsuccess => absurd hsuccess Bool.false_ne_true⟩
  | ok a w₁ =>
    rw [hbody] at hsymbols hall
    obtain rfl := hall rfl
    obtain ⟨learned', hfirst', hsymbols', hall'⟩ := h' w₁
    refine ⟨learned ++ learned', (List.prefix_append_right_inj _).2 hfirst', ?_, fun hsuccess => ?_⟩
    · rw [learn_append, ← show w₁.symbols = w.symbols.learn learned from hsymbols]
      exact hsymbols'
    · rw [hall' hsuccess]

/-- A part that leaves the table as it is learns nothing. -/
lemma of_symbols_eq (h : ∀ w, (final (body w)).symbols = w.symbols) : Learns body [] :=
  fun w => ⟨[], List.prefix_rfl, h w, fun _ => rfl⟩

/-- Emitting an instruction changes no symbols. -/
lemma symbols_emit (i : Instruction) (w : Workplace) :
    (final (Compilation.emit i w)).symbols = w.symbols := by
  unfold Compilation.emit
  split <;> rfl

/-- An instruction that is emitted teaches nothing. -/
lemma emit (i : Instruction) : Learns (Compilation.emit i) [] := of_symbols_eq (symbols_emit i)

/-- Folding teaches what its body does. -/
lemma folding (h : Learns body names) : Learns (Compilation.folding o body) names := by
  have hfold : ∀ start, Learns (Compilation.fold o start) [] :=
    fun start => of_symbols_eq fun w => rfl
  intro w
  have hseq := h.seq (hfold w.program.size) w
  rw [List.append_nil] at hseq
  exact hseq

/-- A variable is learned if it is resolved, whether or not there is room to load it. -/
lemma load (o : CompileOptions) (name : String) (position : ℕ) :
    Learns (resolve o name position >>= fun index => Compilation.emit (.load index)) [name] := by
  intro w
  rw [bind_apply]
  rcases resolve_cases o name position w with ⟨index, w', hresolve, hsymbols⟩ | ⟨e, hresolve⟩
  · rw [hresolve]
    exact ⟨[name], List.prefix_rfl, (symbols_emit _ w').trans hsymbols, fun _ => rfl⟩
  · rw [hresolve]
    exact ⟨[], List.nil_prefix, rfl, fun hsuccess => absurd hsuccess Bool.false_ne_true⟩

end Learns

end Compilation

namespace Expr

open Compilation SymbolTable

/-- The compilation of an expression learns its variables, from left to right. -/
lemma learns_emit (o : CompileOptions) (e : Expr) : Learns (e.emit o) e.names := by
  induction e with
  | number x => exact .emit _
  | constant c => exact .folding (.emit _)
  | var name position => exact .load o name position
  | unary f operand ih =>
    have hbody := ih.seq (.emit (.unary f))
    rw [List.append_nil] at hbody
    exact hbody.folding
  | binary f left right ihleft ihright =>
    have hbody := ihleft.seq (ihright.seq (.emit (.binary f)))
    rw [List.append_nil] at hbody
    exact hbody.folding
  | choice test yes no ihtest ihyes ihno =>
    have hbody := ihtest.seq (ihyes.seq (ihno.seq (.emit .choice)))
    rw [List.append_nil, ← List.append_assoc] at hbody
    exact hbody.folding

/-- From expressions the names are learned that they mention, from left to right. -/
lemma learns_emitAll (o : CompileOptions) (done : List Expr) :
    Learns (emitAll o done) (mentioned done) := by
  have hforM : ∀ es : List Expr, Learns (es.forM fun e => e.emit o) (es.flatMap names) := by
    intro es
    induction es with
    | nil => exact .of_symbols_eq fun w => rfl
    | cons e es ih =>
      rw [List.flatMap_cons]
      exact (learns_emit o e).seq ih
  exact hforM done.reverse

/-- First variables of tokens are the variables of first tokens. -/
lemma exists_lexes_of_first {c stop : Cursor} {ts : List Lexeme} {first : List String}
    (hlexes : Lexes c ts stop) (hfirst : first <+: variablesOf ts) :
    ∃ us stop', Lexes c us stop' ∧ variablesOf us = first := by
  obtain ⟨us, ⟨vs, rfl⟩, rfl⟩ := List.prefix_filterMap_iff.1 hfirst
  obtain ⟨stop', hus, -⟩ := hlexes.exists_of_append
  exact ⟨us, stop', hus, rfl⟩

/-- Of the names that are mentioned by what was read, first ones are learned, and all in a
success. -/
lemma exists_learn_mentioned (o : CompileOptions) (source : String) (w : Workplace) :
    let outcome := read o.nestingLimit ⟨Cursor.ofString source, []⟩
    ∃ learned, learned <+: mentioned (final outcome).done ∧
      (final (compile o source w)).symbols = w.symbols.learn learned ∧
      (isSuccess (compile o source w) = true → learned = mentioned (final outcome).done ∧
        isSuccess outcome = true ∧ (final outcome).cursor.atEnd) := by
  intro outcome
  rw [compile_apply]
  cases hread : outcome with
  | ok a s =>
    obtain ⟨learned, hfirst, hsymbols, hall⟩ := (learns_emitAll o s.done).folding (o := o) w.clear
    refine ⟨learned, hfirst, ?_⟩
    rw [show read o.nestingLimit ⟨Cursor.ofString source, []⟩ = .ok a s from hread]
    dsimp only
    cases hemit : Compilation.folding o (emitAll o s.done) w.clear with
    | ok b w₁ =>
      rw [hemit] at hsymbols hall
      dsimp only
      split
      · rename_i hend
        exact ⟨hsymbols, fun _ => ⟨hall rfl, rfl, hend⟩⟩
      · exact ⟨hsymbols, fun hsuccess => absurd hsuccess Bool.false_ne_true⟩
    | error e w₁ =>
      rw [hemit] at hsymbols
      exact ⟨hsymbols, fun hsuccess => absurd hsuccess Bool.false_ne_true⟩
  | error e s =>
    obtain ⟨learned, hfirst, hsymbols, -⟩ := learns_emitAll o s.done w.clear
    refine ⟨learned, hfirst, ?_⟩
    rw [show read o.nestingLimit ⟨Cursor.ofString source, []⟩ = .error e s from hread]
    dsimp only
    cases hemit : emitAll o s.done w.clear with
    | ok _ w₁ | error _ w₁ =>
      rw [hemit] at hsymbols
      exact ⟨hsymbols, fun hsuccess => absurd hsuccess Bool.false_ne_true⟩

/-- Whatever becomes of a compilation, the table has learned the variables of some first tokens of
the source, and of all of them if it succeeds. -/
lemma exists_learn_compile (o : CompileOptions) (source : String) (w : Workplace) :
    ∃ ts stop, Lexes (Cursor.ofString source) ts stop ∧
      (final (compile o source w)).symbols = w.symbols.learn (variablesOf ts) ∧
      (isSuccess (compile o source w) = true → stop.atEnd) := by
  obtain ⟨ts, stop, hlexes, hnames, hstop⟩ := exists_lexes_read o.nestingLimit source
  obtain ⟨learned, hfirst, hsymbols, hall⟩ := exists_learn_mentioned o source w
  rw [hnames] at hfirst hall
  by_cases hsuccess : isSuccess (compile o source w) = true
  · obtain ⟨rfl, hread, hend⟩ := hall hsuccess
    obtain rfl := hstop hread
    exact ⟨ts, _, hlexes, hsymbols, fun _ => hend⟩
  · obtain ⟨us, stop', hus, rfl⟩ := exists_lexes_of_first hlexes hfirst
    exact ⟨us, stop', hus, hsymbols, fun h => absurd h hsuccess⟩

/-- The variables among tokens are written as names, and no built-in has them. -/
lemma isWritten_of_mem_variablesOf {c stop : Cursor} {ts : List Lexeme} {name : String}
    (hlexes : Lexes c ts stop) (hname : name ∈ variablesOf ts) :
    (Token.name name).IsWritten ∧ Builtin.lookup name = none := by
  induction hlexes using Lexes.stepRec with
  | stop => exact absurd hname List.not_mem_nil
  | @token c stop t ts hfirst _ ih =>
    rw [← List.singleton_append, variablesOf_append, variablesOf_singleton, List.mem_append,
      Option.mem_toList] at hname
    rcases hname with hvar | hname
    · cases t with
      | numeral | symbol => cases hvar
      | name text =>
        obtain ⟨hnone, heq⟩ := Option.ite_some_none_eq_some.1 hvar
        subst heq
        exact ⟨hfirst.1.1, hnone⟩
    · exact ih hname

/-- Whatever becomes of a compilation, and wherever it fails, nothing that was in the table has
changed, and what is new stands behind it: variables among the first tokens of the source that were
not known, each once, in the order in which they first occur, with the value zero.  Nothing is new
where names are not installed, and after a success every variable of the source is known. -/
theorem symbols_after_compile (o : CompileOptions) (source : String) (w : Workplace) :
    let outcome := compile o source w
    let t := (final outcome).symbols
    ∃ ts stop, Lexes (Cursor.ofString source) ts stop ∧
      let added := w.symbols.newNames (variablesOf ts)
      (t.register = w.symbols.register ++ added.map fun name => (name, 0)) ∧
      (∀ name index, w.symbols.lookup name = some index → t.lookup name = some index) ∧
      (∀ name i, added[i]? = some name → t.lookup name = some (w.symbols.size + i)) ∧
      added.Nodup ∧
      (∀ name ∈ added, name ∈ variablesOf ts ∧ w.symbols.lookup name = none ∧
        (Token.name name).IsWritten ∧ Builtin.lookup name = none) ∧
      (o.autoInstall = false → added = []) ∧
      (isSuccess outcome = true → stop.atEnd ∧ ∀ name ∈ variablesOf ts, t.lookup name ≠ none) := by
  intro outcome t
  obtain ⟨ts, stop, hlexes, hsymbols, hend⟩ := exists_learn_compile o source w
  have hregister := register_learn w.symbols (variablesOf ts)
  have hlearned : t = w.symbols.learn (variablesOf ts) := hsymbols
  rw [← hlearned] at hregister
  refine ⟨ts, stop, hlexes, hregister, ?_, ?_, nodup_eraseDups _, ?_, ?_, ?_⟩
  · rw [hlearned]
    exact extends_learn w.symbols (variablesOf ts)
  · rw [hlearned]
    exact fun name i => lookup_learn w.symbols (variablesOf ts)
  · intro name hname
    obtain ⟨hmem, hnone⟩ := mem_newNames_iff.1 hname
    exact ⟨hmem, hnone, isWritten_of_mem_variablesOf hlexes hmem⟩
  · intro hoff
    have hsame : t = w.symbols := symbols_eq_of_autoInstall hoff source w
    rw [hsame] at hregister
    exact List.map_eq_nil_iff.1 (List.append_right_eq_self.1 hregister.symm)
  · intro hsuccess
    refine ⟨hend hsuccess, fun name hname => ?_⟩
    rw [hlearned]
    exact lookup_learn_ne_none hname

end Expr

end Reckon
