import Reckon.Expr.Compilation
import Reckon.Expr.Code
import Reckon.Outcome
import Reckon.Proofs.Expr.Cost
import Reckon.Proofs.Program.Folding
import Reckon.Proofs.Symbol.Table

/-!
# What is emitted

A part of a compilation appends code that refines the plain code of what it compiles
(`Compilation.Emits`).  This is kept by sequences and by folding, so that it holds of the
compilation of an expression, however its parts are folded on the way (`Expr.emits_emit`).

What is appended is never wider than the plain code in which numbers stand for the named constants.
So a program that has room for that code is not too large, whatever is folded when.
-/

namespace Reckon

open Outcome Instruction

namespace Program

variable {p : Program} {before code : List Instruction}

/-- Folding leaves code that refines what it was, and is at most a single constant if it is not the
same. -/
lemma exists_fold (hp : p.IsConsistent) (h : p.code.toList = before ++ code) (values : ℕ → Float)
    (stackCapacity : ℕ) :
    (p.fold values stackCapacity before.length).IsConsistent ∧
      (p.fold values stackCapacity before.length).capacity = p.capacity ∧
      ∃ folded, (p.fold values stackCapacity before.length).code.toList = before ++ folded ∧
        Refines folded code ∧ (folded = code ∨ ∃ x, folded = [.const x]) := by
  have hfrom : p.codeFrom before.length = code := by
    rw [codeFrom_eq_drop, h, List.drop_left]
  refine ⟨hp.fold, capacity_fold _ _ _ _, ?_⟩
  rcases p.fold_cases values stackCapacity before.length with hsame | ⟨x, hcode, hrun, -, hfold⟩
  · rw [hsame]
    exact ⟨code, h, .refl code, .inl rfl⟩
  · rw [hfrom] at hcode hrun
    rw [hfold]
    exact ⟨[.const x], toList_replaceFrom h (.const x), refines_const hcode hrun, .inr ⟨x, rfl⟩⟩

end Program

namespace Compilation

open SymbolTable

variable {o : CompileOptions} {names names' : List String}
  {code code' : (String → ℕ) → List Instruction} {bound bound' : ℕ} {w w₁ w' : Workplace}
  {body : Compilation Unit} {e : Error}

/-- What a part of a compilation has changed when it has compiled what has this plain code and these
names: it has found or installed all names and appended code that refines the plain one. -/
structure Emitted (o : CompileOptions) (names : List String)
    (code : (String → ℕ) → List Instruction) (bound : ℕ) (w w' : Workplace) : Prop where
  isConsistent : w'.program.IsConsistent
  capacity_eq : w'.program.capacity = w.program.capacity
  extendsSymbols : w'.symbols.Extends w.symbols
  /-- Only automatic installation adds variables. -/
  symbols_eq : o.autoInstall = false → w'.symbols = w.symbols
  lookup_ne_none : ∀ name ∈ names, w'.symbols.lookup name ≠ none
  exists_code : ∃ emitted, w'.program.code.toList = w.program.code.toList ++ emitted ∧
    Program.totalWidth emitted ≤ bound ∧
    ∀ indexOf : String → ℕ, (∀ name ∈ names, w'.symbols.lookup name = some (indexOf name)) →
      Refines emitted (code indexOf)

/-- The ways in which a part of a compilation can fail. -/
inductive FailsWith (o : CompileOptions) (names : List String) (bound : ℕ) (w : Workplace) :
    Error → Prop
  | programTooLarge : w.program.capacity < w.program.width + bound →
      FailsWith o names bound w (.programTooLarge w.program.capacity)
  | unknownIdentifier {name : String} {position : ℕ} : o.autoInstall = false → name ∈ names →
      w.symbols.lookup name = none → FailsWith o names bound w (.unknownIdentifier name position)
  | symbolAllocation {name : String} : o.autoInstall = true → name ∈ names →
      w.symbols.lookup name = none → FailsWith o names bound w (.symbolAllocation name)

/-- Whether a part of a compilation compiles what has this plain code and these names, with at most
this width. -/
structure Emits (o : CompileOptions) (names : List String)
    (code : (String → ℕ) → List Instruction) (bound : ℕ) (body : Compilation Unit) : Prop where
  ok : ∀ {w w' : Workplace}, w.program.IsConsistent → body w = .ok () w' →
    Emitted o names code bound w w'
  error : ∀ {w w' : Workplace} {e : Error}, w.program.IsConsistent → body w = .error e w' →
    FailsWith o names bound w e

/-- Indexes that are right later were right before, for names that were known. -/
lemma Emitted.lookup_eq (h : Emitted o names code bound w w₁)
    (hextends : w'.symbols.Extends w₁.symbols) {indexOf : String → ℕ}
    (hindex : ∀ name ∈ names, w'.symbols.lookup name = some (indexOf name)) :
    ∀ name ∈ names, w₁.symbols.lookup name = some (indexOf name) := by
  intro name hname
  obtain ⟨index, hlookup⟩ := Option.ne_none_iff_exists'.1 (h.lookup_ne_none name hname)
  have hlater := hextends name index hlookup
  rw [hindex name hname] at hlater
  rw [hlookup, Option.some.inj hlater]

/-- Afterwards all names have an index. -/
lemma Emitted.exists_indexOf (h : Emitted o names code bound w w') :
    ∃ indexOf : String → ℕ, ∀ name ∈ names, w'.symbols.lookup name = some (indexOf name) := by
  refine ⟨fun name => (w'.symbols.lookup name).getD 0, fun name hname => ?_⟩
  obtain ⟨index, hlookup⟩ := Option.ne_none_iff_exists'.1 (h.lookup_ne_none name hname)
  dsimp only
  rw [hlookup, Option.getD_some]

/-- The code of a sequence is the code of its parts. -/
lemma Emitted.trans (h : Emitted o names code bound w w₁)
    (h' : Emitted o names' code' bound' w₁ w') :
    Emitted o (names ++ names') (fun indexOf => code indexOf ++ code' indexOf) (bound + bound') w
      w' where
  isConsistent := h'.isConsistent
  capacity_eq := h'.capacity_eq.trans h.capacity_eq
  extendsSymbols := h'.extendsSymbols.trans h.extendsSymbols
  symbols_eq ho := (h'.symbols_eq ho).trans (h.symbols_eq ho)
  lookup_ne_none name hname := by
    rcases List.mem_append.1 hname with hname | hname
    · obtain ⟨index, hlookup⟩ := Option.ne_none_iff_exists'.1 (h.lookup_ne_none name hname)
      rw [h'.extendsSymbols name index hlookup]
      exact Option.some_ne_none index
    · exact h'.lookup_ne_none name hname
  exists_code := by
    obtain ⟨emitted, hcode, hwidth, hrefines⟩ := h.exists_code
    obtain ⟨emitted', hcode', hwidth', hrefines'⟩ := h'.exists_code
    refine ⟨emitted ++ emitted', ?_, ?_, fun indexOf hindex => ?_⟩
    · rw [hcode', hcode, List.append_assoc]
    · rw [Program.totalWidth_append]
      exact Nat.add_le_add hwidth hwidth'
    · have hfirst : ∀ name ∈ names, w'.symbols.lookup name = some (indexOf name) :=
        fun name hname => hindex name (List.mem_append_left _ hname)
      exact (hrefines indexOf (h.lookup_eq h'.extendsSymbols hfirst)).append
        (hrefines' indexOf fun name hname => hindex name (List.mem_append_right _ hname))

/-- The width after a part is at most the width before it and the bound of the part. -/
lemma Emitted.width_le (hw : w.program.IsConsistent) (h : Emitted o names code bound w w₁) :
    w₁.program.width ≤ w.program.width + bound := by
  obtain ⟨emitted, hcode, hwidth, -⟩ := h.exists_code
  rw [h.isConsistent, hcode, Program.totalWidth_append, hw]
  exact Nat.add_le_add_left hwidth _

/-- What fails for a part fails for the whole. -/
lemma FailsWith.mono (h : FailsWith o names bound w e) (hnames : names ⊆ names')
    (hbound : bound ≤ bound') : FailsWith o names' bound' w e := by
  cases h with
  | programTooLarge hwidth => exact .programTooLarge (by omega)
  | unknownIdentifier ho hname hlookup => exact .unknownIdentifier ho (hnames hname) hlookup
  | symbolAllocation ho hname hlookup => exact .symbolAllocation ho (hnames hname) hlookup

/-- What fails after a part has been emitted was bound to fail before. -/
lemma FailsWith.of_emitted (hw : w.program.IsConsistent) (h : Emitted o names code bound w w₁)
    (hfails : FailsWith o names' bound' w₁ e) :
    FailsWith o (names ++ names') (bound + bound') w e := by
  have hle := h.width_le hw
  cases hfails with
  | programTooLarge hwidth =>
    rw [h.capacity_eq] at hwidth ⊢
    exact .programTooLarge (by omega)
  | unknownIdentifier ho hname hlookup =>
    rw [h.symbols_eq ho] at hlookup
    exact .unknownIdentifier ho (List.mem_append_right _ hname) hlookup
  | symbolAllocation ho hname hlookup =>
    exact .symbolAllocation ho (List.mem_append_right _ hname)
      (h.extendsSymbols.lookup_eq_none hlookup)

/-- A name that is resolved is found from then on, and nothing is emitted for it yet. -/
lemma resolved_of_resolve {name : String} {position index : ℕ}
    (h : resolve o name position w = .ok index w₁) :
    w₁.program = w.program ∧ w₁.symbols.Extends w.symbols ∧
      (o.autoInstall = false → w₁.symbols = w.symbols) ∧
      w₁.symbols.lookup name = some index := by
  unfold resolve at h
  split at h
  · rename_i hlookup
    cases h
    exact ⟨rfl, .refl _, fun _ => rfl, hlookup⟩
  · split at h
    · rename_i ho
      split at h
      · rename_i hinstall
        cases h
        obtain ⟨hextends, hlookup⟩ := extends_of_install hinstall
        exact ⟨rfl, hextends, fun hno => absurd (hno.symm.trans ho) (by decide), hlookup⟩
      · cases h
    · cases h

lemma failsWith_of_resolve {name : String} {position : ℕ}
    (h : resolve o name position w = .error e w₁) : FailsWith o [name] bound w e := by
  unfold resolve at h
  split at h
  · cases h
  · rename_i hlookup
    split at h
    · rename_i ho
      split at h
      · cases h
      · rename_i hinstall
        cases h
        rw [eq_of_install_eq_error hinstall]
        exact .symbolAllocation ho List.mem_cons_self hlookup
    · rename_i ho
      cases h
      exact .unknownIdentifier (by simpa using ho) List.mem_cons_self hlookup

namespace Emits

lemma mono (h : Emits o names code bound body) (hbound : bound ≤ bound') :
    Emits o names code bound' body where
  ok hw hrun := by
    have hemitted := h.ok hw hrun
    obtain ⟨emitted, hcode, hwidth, hrefines⟩ := hemitted.exists_code
    exact { hemitted with exists_code := ⟨emitted, hcode, Nat.le_trans hwidth hbound, hrefines⟩ }
  error hw hrun := (h.error hw hrun).mono (List.Subset.refl _) hbound

/-- A sequence compiles one part after the other. -/
lemma seq {next : Compilation Unit} (h : Emits o names code bound body)
    (h' : Emits o names' code' bound' next) :
    Emits o (names ++ names') (fun indexOf => code indexOf ++ code' indexOf) (bound + bound')
      (body >>= fun _ => next) where
  ok hw hrun := by
    obtain ⟨_, w₁, hfirst, hsecond⟩ := bind_eq_ok_iff.1 hrun
    have hemitted := h.ok hw hfirst
    exact hemitted.trans (h'.ok hemitted.isConsistent hsecond)
  error {w w' e} hw hrun := by
    rcases bind_eq_error_iff.1 hrun with hfirst | ⟨_, w₁, hfirst, hsecond⟩
    · exact (h.error hw hfirst).mono (List.subset_append_left _ _) (Nat.le_add_right _ _)
    · have hemitted := h.ok hw hfirst
      exact .of_emitted hw hemitted (h'.error hemitted.isConsistent hsecond)

/-- Folding does not change what is compiled. -/
lemma folding (h : Emits o names code bound body) (hbound : 9 ≤ bound) :
    Emits o names code bound (Compilation.folding o body) where
  ok {w w'} hw hrun := by
    obtain ⟨_, w₁, hget, hrun⟩ := bind_eq_ok_iff.1 hrun
    obtain ⟨_, w₂, hbody, hfold⟩ := bind_eq_ok_iff.1 hrun
    cases hget
    have hemitted := h.ok hw hbody
    obtain ⟨emitted, hcode, hwidth, hrefines⟩ := hemitted.exists_code
    have hfolded := Program.exists_fold hemitted.isConsistent hcode w₂.symbols.value o.stackCapacity
    have hsize : w.program.code.toList.length = w.program.size := Array.length_toList
    rw [hsize] at hfolded
    obtain ⟨hconsistent, hcapacity, folded, hfoldedcode, hfoldedrefines, hshape⟩ := hfolded
    cases hfold
    refine { hemitted with
      isConsistent := hconsistent
      capacity_eq := hcapacity.trans hemitted.capacity_eq
      exists_code := ⟨folded, hfoldedcode, ?_, fun indexOf hindex =>
        hfoldedrefines.trans (hrefines indexOf hindex)⟩ }
    rcases hshape with rfl | ⟨x, rfl⟩
    · exact hwidth
    · exact hbound
  error {w w' e} hw hrun := by
    rcases bind_eq_error_iff.1 hrun with hget | ⟨_, w₁, hget, hrun⟩
    · cases hget
    · cases hget
      rcases bind_eq_error_iff.1 hrun with hbody | ⟨_, w₂, -, hfold⟩
      · exact h.error hw hbody
      · cases hfold

/-- An instruction other than a load is its own plain code. -/
lemma emit (o : CompileOptions) (i : Instruction) :
    Emits o [] (fun _ => [i]) i.width (Compilation.emit i) where
  ok {w w'} hw hrun := by
    unfold Compilation.emit at hrun
    split at hrun
    · rename_i p hemit
      cases hrun
      obtain ⟨hconsistent, hcode, hcapacity⟩ := hw.emit hemit
      exact ⟨hconsistent, hcapacity, .refl _, fun _ => rfl, nofun,
        [i], hcode, Nat.le_refl _, fun _ _ => .refl _⟩
    · cases hrun
  error {w w' e} hw hrun := by
    unfold Compilation.emit at hrun
    split at hrun
    · cases hrun
    · rename_i error hemit
      cases hrun
      obtain ⟨hwidth, rfl⟩ := Program.emit_eq_error_iff.1 hemit
      exact .programTooLarge hwidth

/-- A variable is resolved and loaded. -/
lemma load (o : CompileOptions) (name : String) (position : ℕ) :
    Emits o [name] (fun indexOf => [.load (indexOf name)]) 9
      (resolve o name position >>= fun index => Compilation.emit (.load index)) where
  ok {w w'} hw hrun := by
    obtain ⟨index, w₁, hresolve, hemit⟩ := bind_eq_ok_iff.1 hrun
    obtain ⟨hprogram, hextends, hsymbols, hlookup⟩ := resolved_of_resolve hresolve
    have hemitted := (emit o (.load index)).ok (hprogram ▸ hw) hemit
    have hfound := hemitted.extendsSymbols name index hlookup
    obtain ⟨emitted, hcode, hwidth, hrefines⟩ := hemitted.exists_code
    refine ⟨hemitted.isConsistent, by rw [hemitted.capacity_eq, hprogram],
      hemitted.extendsSymbols.trans hextends,
      fun ho => (Emitted.symbols_eq hemitted ho).trans (hsymbols ho), ?_,
      emitted, by rw [hcode, hprogram], hwidth, fun indexOf hindex => ?_⟩
    · intro other hother
      rw [List.mem_singleton.1 hother, hfound]
      exact Option.some_ne_none index
    · have hindex := hindex name List.mem_cons_self
      rw [hfound] at hindex
      rw [← Option.some.inj hindex]
      exact hrefines indexOf nofun
  error {w w' e} hw hrun := by
    rcases bind_eq_error_iff.1 hrun with hresolve | ⟨index, w₁, hresolve, hemit⟩
    · exact failsWith_of_resolve hresolve
    · obtain ⟨hprogram, -⟩ := resolved_of_resolve hresolve
      have hfails := (emit o (.load index)).error (hprogram ▸ hw) hemit
      cases hfails with
      | programTooLarge hwidth =>
        rw [hprogram] at hwidth ⊢
        exact .programTooLarge hwidth
      | unknownIdentifier _ hname _ => cases hname
      | symbolAllocation _ hname _ => cases hname

end Emits

end Compilation

namespace Expr

open Compilation

lemma nine_le_expandedWidth (e : Expr) : 9 ≤ e.expandedWidth := by
  induction e with
  | number | constant | var => exact Nat.le_refl 9
  | unary | binary | choice =>
    rw [expandedWidth]
    omega

/-- The compilation of an expression compiles its plain code. -/
theorem emits_emit (o : CompileOptions) (e : Expr) :
    Emits o e.names (fun indexOf => e.code indexOf) e.expandedWidth (e.emit o) := by
  induction e with
  | number x => exact Emits.emit o (.const x)
  | var name position => exact Emits.load o name position
  | constant c =>
    have hwidth : (Instruction.named c).width ≤ 9 := by simp [Instruction.width]
    exact ((Emits.emit o (.named c)).mono hwidth).folding (Nat.le_refl 9)
  | unary f operand ih =>
    have hbody := ih.seq (Emits.emit o (.unary f))
    rw [List.append_nil] at hbody
    exact hbody.folding (nine_le_expandedWidth (unary f operand))
  | binary f left right ihleft ihright =>
    have hbody := ihleft.seq (ihright.seq (Emits.emit o (.binary f)))
    simp only [List.append_nil, ← List.append_assoc] at hbody
    exact hbody.folding (nine_le_expandedWidth (binary f left right))
  | choice test yes no ihtest ihyes ihno =>
    have hbody := ihtest.seq (ihyes.seq (ihno.seq (Emits.emit o .choice)))
    simp only [List.append_nil, ← List.append_assoc] at hbody
    refine (hbody.mono ?_).folding (nine_le_expandedWidth (choice test yes no))
    simp only [expandedWidth, Instruction.width]
    omega

end Expr

end Reckon
