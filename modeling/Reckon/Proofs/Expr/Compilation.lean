import Reckon.Proofs.Expr.Completeness
import Reckon.Proofs.Expr.Emission
import Reckon.Proofs.Expr.Soundness

/-!
# The outcome of a compilation

A compilation that succeeds has read a sentence of the grammar and compiled its plain code
(`Expr.emitted_of_compile_eq_ok`).  Conversely every sentence within the limit on the nesting is
read, so that only the compilation of what was read can fail (`Expr.compile_of_sentence`).
-/

namespace Reckon

open Outcome Compilation

namespace Workplace

/-- The workplace with an empty program. -/
def clear (w : Workplace) : Workplace := { w with program := w.program.clear }

lemma width_clear (w : Workplace) : w.clear.program.width = 0 := rfl

lemma capacity_clear (w : Workplace) : w.clear.program.capacity = w.program.capacity := rfl

end Workplace

namespace Expr

variable {o : CompileOptions} {source : String} {w w' : Workplace} {t : Tree} {e : Error}
  {summary : Program.Summary}

/-- Nothing is emitted for no expressions, and the code of several is emitted in turn. -/
lemma emits_forM (o : CompileOptions) (es : List Expr) :
    Emits o (es.flatMap names) (fun indexOf => es.flatMap (code indexOf)) (totalExpandedWidth es)
      (es.forM fun e => e.emit o) := by
  induction es with
  | nil =>
    constructor
    · rintro w w' hw ⟨⟩
      exact ⟨hw, rfl, .refl _, fun _ => rfl, nofun, [], by simp, Nat.le_refl 0,
        fun _ _ => .refl _⟩
    · rintro w w' e hw ⟨⟩
  | cons e es ih =>
    simp only [List.flatMap_cons, totalExpandedWidth_cons]
    exact (emits_emit o e).seq ih

/-- The expressions that were read are compiled in the order in which they were finished. -/
lemma emits_emitAll (o : CompileOptions) (done : List Expr) :
    Emits o (done.reverse.flatMap names) (fun indexOf => done.reverse.flatMap (code indexOf))
      (totalExpandedWidth done) (emitAll o done) := by
  have hemits := emits_forM o done.reverse
  rw [totalExpandedWidth_reverse] at hemits
  exact hemits

/-- A single expression is compiled as it is, and folded once more as a whole. -/
lemma emits_whole (o : CompileOptions) (e : Expr) :
    Emits o e.names (fun indexOf => e.code indexOf) e.expandedWidth
      (Compilation.folding o (emitAll o [e])) := by
  have hemits := emits_emitAll o [e]
  simp only [List.reverse_singleton, List.flatMap_cons, List.flatMap_nil, List.append_nil,
    totalExpandedWidth_cons, totalExpandedWidth_nil, Nat.add_zero] at hemits
  exact hemits.folding (nine_le_expandedWidth e)

/-- What a compilation does: it reads, compiles what was read, and looks for trailing input. -/
lemma compile_apply (o : CompileOptions) (source : String) (w : Workplace) :
    compile o source w =
      match read o.nestingLimit ⟨Cursor.ofString source, []⟩ with
      | .ok _ s =>
        match Compilation.folding o (emitAll o s.done) w.clear with
        | .ok _ w₁ =>
          if s.cursor.atEnd then .ok w₁.program.summary w₁
          else .error (.trailingInput s.cursor.skipBlanks.offset) w₁.clear
        | .error e w₁ => .error e w₁.clear
      | .error e s =>
        match emitAll o s.done w.clear with
        | .ok _ w₁ => .error e w₁.clear
        | .error e' w₁ => .error e' w₁.clear := by
  have hsize : w.clear.program.size = 0 := rfl
  have hmodify : (modify fun w : Workplace => { w with program := w.program.clear } :
      Compilation PUnit) w = .ok ⟨⟩ w.clear := rfl
  simp only [compile, compileAt, Compilation.clearingOnError, Compilation.folding, bind_apply,
    hmodify, get_apply, hsize]
  cases read o.nestingLimit ⟨Cursor.ofString source, []⟩ with
  | ok a s =>
    dsimp only
    rw [bind_apply]
    cases emitAll o s.done w.clear with
    | error e w₁ => rfl
    | ok b w₁ =>
      dsimp only
      rw [bind_apply]
      cases Compilation.fold o 0 w₁ with
      | error e w₂ => rfl
      | ok c w₂ =>
        dsimp only [pure_apply]
        by_cases hend : s.cursor.atEnd
        · simp [hend]
          rfl
        · simp [hend]
          rfl
  | error e s =>
    dsimp only
    rw [bind_apply]
    cases emitAll o s.done w.clear with
    | error e w₁ => rfl
    | ok b w₁ => rfl

/-! ## What is read -/

/-- What is read of a source up to its end is a sentence. -/
lemma sentence_of_read {limit : ℕ} {s : Progress Expr}
    (h : read limit ⟨Cursor.ofString source, []⟩ = .ok () s) :
    ∃ t : Tree, t.nesting ≤ limit ∧ s.done = [t.expr] ∧ (s.cursor.atEnd → Sentence source t) := by
  obtain ⟨ts, t, hderives, hdepth, hlexes, hdone⟩ := (reads_reader limit limit).1 _ _ h
  exact ⟨t, hdepth, hdone, fun hend => ⟨ts, s.cursor, hlexes, Cursor.atEnd_iff.1 hend, hderives⟩⟩

/-- A sentence within the limit is read up to its end. -/
lemma exists_read_of_sentence {limit : ℕ} (h : Sentence source t) (hnesting : t.nesting ≤ limit) :
    ∃ c : Cursor, read limit ⟨Cursor.ofString source, []⟩ = .ok () ⟨c, [t.expr]⟩ ∧ c.atEnd := by
  obtain ⟨ts, stop, hlexes, hend, hderives⟩ := h
  rw [← Cursor.atEnd_iff] at hend
  rw [← List.append_nil ts] at hlexes
  obtain ⟨c, hread, hrest⟩ := (finds_reader limit limit).1 _ _ stop ts [] t [] hderives hnesting
    Category.stops_nil hlexes (Cursor.halts_of_atEnd hend) le_rfl
  refine ⟨c, hread, ?_⟩
  rw [Cursor.atEnd, Lexes.nil_iff.1 hrest]
  exact hend

/-! ## The outcomes -/

/-- A source that is compiled is a sentence, and its plain code is compiled. -/
lemma emitted_of_compile_eq_ok (h : compile o source w = .ok summary w') :
    ∃ t : Tree, Sentence source t ∧ t.nesting ≤ o.nestingLimit ∧
      Emitted o t.expr.names (fun indexOf => t.expr.code indexOf) t.expr.expandedWidth w.clear
        w' := by
  rw [compile_apply] at h
  split at h
  · rename_i s hread
    obtain ⟨t, hnesting, hdone, hsentence⟩ := sentence_of_read hread
    rw [hdone] at h
    split at h
    · rename_i w₁ hemit
      split at h
      · rename_i hend
        cases h
        exact ⟨t, hsentence hend, hnesting,
          (emits_whole o t.expr).ok (Program.isConsistent_clear _) hemit⟩
      · cases h
    · cases h
  · split at h <;> cases h

/-- A sentence within the limit on the nesting is compiled, or it fails to be. -/
lemma compile_of_sentence (h : Sentence source t) (hnesting : t.nesting ≤ o.nestingLimit)
    (w : Workplace) :
    (∃ summary w', compile o source w = .ok summary w') ∨
      ∃ e w', compile o source w = .error e w' ∧
        FailsWith o t.expr.names t.expr.expandedWidth w.clear e := by
  obtain ⟨c, hread, hend⟩ := exists_read_of_sentence h hnesting
  rw [compile_apply, hread]
  dsimp only
  cases hemit : Compilation.folding o (emitAll o [t.expr]) w.clear with
  | ok a w₁ =>
    dsimp only
    rw [if_pos hend]
    exact .inl ⟨_, _, rfl⟩
  | error e w₁ =>
    exact .inr ⟨e, w₁.clear, rfl, (emits_whole o t.expr).error (Program.isConsistent_clear _) hemit⟩

/-- A sentence within the limit on the nesting is compiled if there is room and each of its names is
known or can be installed. -/
lemma exists_compile_eq_ok (h : Sentence source t) (hnesting : t.nesting ≤ o.nestingLimit)
    (hwidth : t.expr.expandedWidth ≤ w.program.capacity)
    (hnames : ∀ name ∈ t.expr.names, o.autoInstall = true ∨ w.symbols.lookup name ≠ none)
    (halloc : ∀ name w', compile o source w ≠ .error (.symbolAllocation name) w') :
    ∃ summary w', compile o source w = .ok summary w' := by
  rcases compile_of_sentence h hnesting w with hok | ⟨e, w', herror, hfails⟩
  · exact hok
  · exfalso
    cases hfails with
    | programTooLarge hlt =>
      rw [w.width_clear, w.capacity_clear] at hlt
      omega
    | unknownIdentifier ho hname hlookup =>
      rcases hnames _ hname with hauto | hknown
      · exact Bool.false_ne_true (ho.symm.trans hauto)
      · exact hknown hlookup
    | symbolAllocation => exact halloc _ _ herror

/-- Where all names are known, none has to be installed. -/
lemma compile_ne_symbolAllocation (h : Sentence source t) (hnesting : t.nesting ≤ o.nestingLimit)
    (hknown : ∀ name ∈ t.expr.names, w.symbols.lookup name ≠ none) (name : String)
    (w' : Workplace) : compile o source w ≠ .error (.symbolAllocation name) w' := by
  intro herror
  rcases compile_of_sentence h hnesting w with ⟨summary, w₁, hok⟩ | ⟨e, w₁, herror', hfails⟩
  · rw [hok] at herror
    cases herror
  · rw [herror'] at herror
    cases herror
    cases hfails with
    | symbolAllocation _ hname hlookup => exact hknown _ hname hlookup

end Expr

end Reckon
