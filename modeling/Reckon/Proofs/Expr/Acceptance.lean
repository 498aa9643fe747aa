import Reckon.Proofs.Expr.Compilation
import Reckon.Proofs.Expr.Unambiguous

/-!
# What is accepted

Under bounds that grow with the length of the source, a compilation accepts exactly the sentences
whose names are known or can be installed.  The bounds are those of the worst case: every character
can open a phrase (`Derives.nesting_le`), and every character can become a number (`costs_reader`).
So only the text is left to be at fault when such a compilation fails.
-/

namespace Reckon.Expr

open Outcome Compilation

/-- The nesting of what a category extends. -/
def Category.nesting : Category → ℕ
  | pairs _ _ left => left.nesting
  | _ => 0

/-- Every phrase that is opened inside a phrase takes a token. -/
lemma Derives.nesting_le {cat : Category} {ts : List Lexeme} {t : Tree} (h : Derives cat ts t) :
    t.nesting ≤ max cat.nesting ts.length := by
  induction h with
  | simple _ ih | tightest _ ih | primary _ ih => exact ih
  | number | constant | var => exact Nat.le_refl 1
  | done => exact Nat.le_max_left _ _
  | choice _ _ _ ihtest ihyes ihno =>
    simp only [Category.nesting, Tree.nesting, Tree.depth, List.length_append, List.length_cons]
      at ihtest ihyes ihno ⊢
    omega
  | level _ _ ihleft ihpairs =>
    simp only [Category.nesting, List.length_append] at ihleft ihpairs ⊢
    omega
  | pair _ _ _ ihright ihrest =>
    simp only [Category.nesting, Tree.nesting, Tree.depth, List.length_append, List.length_cons]
      at ihright ihrest ⊢
    omega
  | sign _ _ ih =>
    simp only [Category.nesting, Tree.nesting, Tree.depth, List.length_cons] at ih ⊢
    omega
  | group _ ih | apply₁ _ _ ih =>
    simp only [Category.nesting, Tree.nesting, Tree.depth, List.length_append, List.length_cons]
      at ih ⊢
    omega
  | apply₂ _ _ _ ihfirst ihsecond =>
    simp only [Category.nesting, Tree.nesting, Tree.depth, List.length_append, List.length_cons]
      at ihfirst ihsecond ⊢
    omega

variable {o : CompileOptions} {source : String} {w w' : Workplace} {t : Tree} {e : Error}

/-- A sentence is nested at most as deep as its source is long. -/
lemma Sentence.nesting_le (h : Sentence source t) : t.nesting ≤ utf8Length source.toList := by
  obtain ⟨ts, stop, hlexes, -, hderives⟩ := h
  have hnesting : t.nesting ≤ max 0 ts.length := hderives.nesting_le
  have htokens : ts.length + stop.skipBlanks.rest.length ≤ source.toList.length :=
    hlexes.length_add_le
  have hbytes := length_le_utf8Length source.toList
  omega

/-- The plain code of a sentence has room in nine units for every byte of its source. -/
lemma Sentence.expandedWidth_le (h : Sentence source t) :
    t.expr.expandedWidth ≤ 9 * utf8Length source.toList := by
  obtain ⟨c, hread, -⟩ := exists_read_of_sentence h (Nat.le_refl t.nesting)
  have hweight := (((costs_reader t.nesting t.nesting).1 _).ok hread).2
  have hbytes := length_le_utf8Length source.toList
  simp only [weight, totalExpandedWidth_cons, totalExpandedWidth_nil, Cursor.ofString] at hweight
  omega

/-- Where there is room, only the text or the symbol table can be at fault. -/
lemma kind_of_failsWith {names : List String} {bound : ℕ} (h : FailsWith o names bound w.clear e)
    (hbound : bound ≤ w.program.capacity) :
    e.kind = .badText ∨ ∃ name, e = .symbolAllocation name := by
  cases h with
  | programTooLarge hlt =>
    rw [w.width_clear, w.capacity_clear] at hlt
    omega
  | unknownIdentifier => exact .inl rfl
  | symbolAllocation => exact .inr ⟨_, rfl⟩

/-- A compilation for which there is room fails because of the text or the symbol table. -/
lemma kind_of_compile_eq_error (hcapacity : 9 * utf8Length source.toList ≤ w.program.capacity)
    (hlimit : utf8Length source.toList + 1 ≤ o.nestingLimit)
    (h : compile o source w = .error e w') :
    e.kind = .badText ∨ ∃ name, e = .symbolAllocation name := by
  have hbytes := length_le_utf8Length source.toList
  have hcosts := (costs_reader o.nestingLimit o.nestingLimit).1 ⟨Cursor.ofString source, []⟩
  have hconsistent : w.clear.program.IsConsistent := Program.isConsistent_clear _
  rw [compile_apply] at h
  split at h
  · rename_i s hread
    obtain ⟨t, -, hdone, -⟩ := sentence_of_read hread
    have hweight := (hcosts.ok hread).2
    simp only [weight, hdone, totalExpandedWidth_cons, totalExpandedWidth_nil, Cursor.ofString]
      at hweight
    rw [hdone] at h
    split at h
    · split at h
      · cases h
      · cases h
        exact .inl rfl
    · rename_i e₁ w₁ hemit
      cases h
      exact kind_of_failsWith ((emits_whole o t.expr).error hconsistent hemit) (by omega)
  · rename_i e₀ s hread
    obtain ⟨hweight, hkind⟩ := hcosts.error hread
    simp only [weight, totalExpandedWidth_nil, Cursor.ofString] at hweight hkind
    split at h
    · cases h
      exact .inl (hkind (by omega))
    · rename_i e₁ w₁ hemit
      cases h
      exact kind_of_failsWith ((emits_emitAll o s.done).error hconsistent hemit) (by omega)

/-- With nine units of code and one phrase to be opened for every byte of the source, and one phrase
more, a compilation accepts exactly the sentences each of whose names is known or can be installed.
A sentence has only one derivation, and what is not accepted is rejected because of its text. -/
theorem compile_eq_ok_iff_sentence
    (hcapacity : 9 * utf8Length source.toList ≤ w.program.capacity)
    (hlimit : utf8Length source.toList + 1 ≤ o.nestingLimit)
    (halloc : ∀ name w', compile o source w ≠ .error (.symbolAllocation name) w') :
    ((∃ summary w', compile o source w = .ok summary w') ↔
      ∃ t, Sentence source t ∧
        ∀ name ∈ t.expr.names, o.autoInstall = true ∨ w.symbols.lookup name ≠ none) ∧
    (∀ t u, Sentence source t → Sentence source u → t = u) ∧
    ∀ e w', compile o source w = .error e w' → e.kind = .badText := by
  refine ⟨⟨?_, ?_⟩, fun t u ht hu => ht.unique hu, ?_⟩
  · rintro ⟨summary, w', hcompile⟩
    obtain ⟨t, hsentence, -, hemitted⟩ := emitted_of_compile_eq_ok hcompile
    refine ⟨t, hsentence, fun name hname => ?_⟩
    cases ho : o.autoInstall with
    | true => exact .inl rfl
    | false =>
      have hlookup := hemitted.lookup_ne_none name hname
      rw [hemitted.symbols_eq ho] at hlookup
      exact .inr hlookup
  · rintro ⟨t, hsentence, hnames⟩
    have hnesting := hsentence.nesting_le
    have hwidth := hsentence.expandedWidth_le
    exact exists_compile_eq_ok hsentence (by omega) (by omega) hnames halloc
  · intro e w' herror
    rcases kind_of_compile_eq_error hcapacity hlimit herror with hkind | ⟨name, rfl⟩
    · exact hkind
    · exact absurd herror (halloc name w')

/-- A choice with all signs, a function, a group and operators of two levels is accepted where its
variable is known. -/
theorem compile_eq_ok_choice :
    let source := "~x ? -max(x, +1) : !(x&&2 | 3)"
    let o : CompileOptions := ⟨false, 31, 5⟩
    let w : Workplace := ⟨(SymbolTable.withBuckets 1).add "x", .empty 270⟩
    9 * utf8Length source.toList ≤ w.program.capacity ∧
      utf8Length source.toList + 1 ≤ o.nestingLimit ∧
      (∀ name w', compile o source w ≠ .error (.symbolAllocation name) w') ∧
      ∃ summary w', compile o source w = .ok summary w' := by
  intro source o w
  have hvar (p : ℕ) : Derives .operand [⟨.name "x", p⟩] (.var "x" p) :=
    .primary (.var (Builtin.notMem_dictionary_iff.2 (by decide +kernel)))
  have hnumber (d : Char) (p : ℕ) (hd : d.isDigit = true) :
      Derives .operand [⟨.numeral (.decimal [d] none none), p⟩]
        (.number (Binary64.ofNat (numberOf 10 [d]))) :=
    .primary (.number ⟨List.forall_mem_singleton.2 hd, nofun, nofun, nofun⟩
      (Numeral.denotes_ofNat [d]))
  have hmax : ("max", .binary .max) ∈ Builtin.dictionary := by decide
  have htest := Derives.sign (o := 0) .bitNot (hvar 1)
  have hyes := Derives.sign (o := 5) .minus (.primary (.apply₂ (o := 6) (p := 9) (q := 11)
    (r := 15) hmax (hvar 10).expression_of_operand
    (Derives.sign (o := 13) .plus (hnumber '1' 14 rfl)).expression_of_operand))
  -- the level of `|` is tighter than that of `&&`
  have hbits : Derives (.level (levels.drop 2)) (_ ++ ⟨.symbol ['|'], 26⟩ :: _) _ :=
    Derives.level_cons_iff.2 (.inr ⟨_, _, _, _, _, .bitOr, 26, rfl, rfl, by decide,
      (hnumber '2' 24 rfl).level_of_operand _, (hnumber '3' 28 rfl).level_of_operand _⟩)
  have hboth : Derives (.level (levels.drop 1)) (_ ++ ⟨.symbol ['&', '&'], 22⟩ :: _) _ :=
    Derives.level_cons_iff.2 (.inr ⟨_, _, _, _, _, .and, 22, rfl, rfl, by decide,
      (hvar 21).level_of_operand _, hbits⟩)
  have hno := Derives.sign (o := 19) .not (.primary (.group (o := 20) (p := 29)
    (hboth.expression_of_level (List.take_append_drop 1 levels))))
  have hchoice := Derives.choice (o := 3) (p := 17) (htest.level_of_operand _)
    hyes.expression_of_operand hno.expression_of_operand
  have hsentence : Sentence source _ :=
    ⟨_, ⟨[], 30⟩, .of_lexemes 20 (by decide), nofun, hchoice⟩
  have hx := SymbolTable.lookup_add_self_ne_none (SymbolTable.withBuckets 1) "x"
  have hknown : ∀ name ∈ ["x", "x", "x"], w.symbols.lookup name ≠ none := by
    simpa only [List.forall_mem_cons, List.not_mem_nil, false_imp_iff, implies_true, and_true,
      and_self] using hx
  have hcapacity : 9 * utf8Length source.toList ≤ w.program.capacity := by decide
  have hlimit : utf8Length source.toList + 1 ≤ o.nestingLimit := by decide
  have halloc := compile_ne_symbolAllocation (o := o) hsentence (by decide) hknown
  obtain ⟨hiff, -, -⟩ := compile_eq_ok_iff_sentence hcapacity hlimit halloc
  have hnames : ∀ name ∈ ["x", "x", "x"], o.autoInstall = true ∨ w.symbols.lookup name ≠ none :=
    fun name hname => .inr (hknown name hname)
  exact ⟨hcapacity, hlimit, halloc, hiff.2 ⟨_, hsentence, hnames⟩⟩

end Reckon.Expr
