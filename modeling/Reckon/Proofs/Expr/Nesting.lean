import Reckon.Proofs.Expr.Acceptance
import Reckon.Proofs.Expr.Allowance
import Reckon.Proofs.Expr.Resolution

/-!
# The limit on the nesting

The limit on the nesting is exact.  A sentence whose names can be resolved, and whose program has
room, is compiled if it is nested no deeper than the limit; otherwise the compilation fails, because
the nesting is too deep (`compile_eq_ok_iff_nesting_le`).  What stands side by side in a sentence
counts once, since the nesting of a derivation is that of its deepest part.
-/

namespace Reckon.Expr

open Outcome Compilation SymbolTable

variable {o : CompileOptions} {source : String} {w : Workplace} {t : Tree}

/-- Within the limit nothing is in the way of a sentence. -/
lemma exists_compile_of_nesting_le (h : Sentence source t) (hnesting : t.nesting ≤ o.nestingLimit)
    (hnames : CanResolve o w.symbols t.expr.names)
    (hcapacity : 9 * utf8Length source.toList ≤ w.program.capacity) :
    ∃ summary w', compile o source w = .ok summary w' := by
  obtain ⟨c, hread, hend⟩ := exists_read_of_sentence h hnesting
  have hstopped : IsStoppedByCapacity o t.expr.names (Compilation.folding o (emitAll o [t.expr])) :=
    (isStoppedByCapacity_emitAll o (by simp)).folding
  have hwidth := h.expandedWidth_le
  have hroom : w.clear.program.width + t.expr.expandedWidth ≤ w.clear.program.capacity := by
    rw [w.width_clear, w.capacity_clear]
    omega
  obtain ⟨w', hemit⟩ := hstopped.exists_ok (w := w.clear) (emits_whole o t.expr) hnames
    (Program.isConsistent_clear _) hroom
  rw [compile_apply, hread]
  dsimp only
  rw [hemit]
  dsimp only
  rw [if_pos hend]
  exact ⟨_, _, rfl⟩

/-- Beyond the limit the nesting is the reason why a sentence is not compiled. -/
lemma exists_compile_of_limit_lt (h : Sentence source t) (hlt : o.nestingLimit < t.nesting)
    (hnames : CanResolve o w.symbols t.expr.names)
    (hcapacity : 9 * utf8Length source.toList ≤ w.program.capacity) :
    ∃ w', compile o source w = .error (.nestingTooDeep o.nestingLimit) w' := by
  obtain ⟨s, hread, hsubset⟩ := exists_read_of_limit_lt h hlt
  have hcosts := (costs_reader o.nestingLimit o.nestingLimit).1 ⟨Cursor.ofString source, []⟩
  obtain ⟨hweight, -⟩ := hcosts.error hread
  have hbytes := length_le_utf8Length source.toList
  simp only [weight, totalExpandedWidth_nil, Cursor.ofString] at hweight
  have hroom : w.clear.program.width + totalExpandedWidth s.done ≤ w.clear.program.capacity := by
    rw [w.width_clear, w.capacity_clear]
    omega
  obtain ⟨w', hemit⟩ := (isStoppedByCapacity_emitAll o hsubset).exists_ok (w := w.clear)
    (emits_emitAll o s.done) hnames (Program.isConsistent_clear _) hroom
  rw [compile_apply, hread]
  dsimp only
  rw [hemit]
  exact ⟨_, rfl⟩

/-- Let all names of a sentence be known, or be installed with room for them, and let there be nine
units of code for every byte of its source.  Then it is compiled with exactly those limits that are
no smaller than its nesting, so with every limit larger than one with which it is compiled; and with
any smaller one the compilation fails because the nesting is too deep for this limit. -/
theorem compile_eq_ok_iff_nesting_le (h : Sentence source t)
    (hnames : CanResolve o w.symbols t.expr.names)
    (hcapacity : 9 * utf8Length source.toList ≤ w.program.capacity) (limit : ℕ) :
    ((∃ summary w', compile { o with nestingLimit := limit } source w = .ok summary w') ↔
        t.nesting ≤ limit) ∧
      (limit < t.nesting → ∃ w', compile { o with nestingLimit := limit } source w =
        .error (.nestingTooDeep limit) w') ∧
      ∀ limit', limit ≤ limit' →
        (∃ summary w', compile { o with nestingLimit := limit } source w = .ok summary w') →
        ∃ summary w', compile { o with nestingLimit := limit' } source w = .ok summary w' := by
  have hwithin : ∀ limit, t.nesting ≤ limit →
      ∃ summary w', compile { o with nestingLimit := limit } source w = .ok summary w' :=
    fun limit hle => exists_compile_of_nesting_le (o := { o with nestingLimit := limit }) h hle
      hnames
      hcapacity
  have hbeyond : limit < t.nesting → ∃ w', compile { o with nestingLimit := limit } source w =
      .error (.nestingTooDeep limit) w' :=
    fun hlt => exists_compile_of_limit_lt (o := { o with nestingLimit := limit }) h hlt hnames
      hcapacity
  have hle_of_ok : (∃ summary w', compile { o with nestingLimit := limit } source w =
      .ok summary w') → t.nesting ≤ limit := by
    rintro ⟨summary, w', hok⟩
    by_contra hlt
    obtain ⟨w'', herror⟩ := hbeyond (Nat.not_le.1 hlt)
    rw [hok] at herror
    contradiction
  exact ⟨⟨hle_of_ok, hwithin limit⟩, hbeyond, fun limit' hle hok =>
    hwithin limit' (Nat.le_trans (hle_of_ok hok) hle)⟩

/-- The negation of a variable in parentheses. -/
lemma sentence_neg_group : Sentence "-(x)" (.sign (some .neg) (.group (.var "x" 2))) := by
  have hx : ∀ m, ("x", m) ∉ Builtin.dictionary :=
    Builtin.notMem_dictionary_iff.2 (by decide +kernel)
  have hinner : Derives .expression [⟨.name "x", 2⟩] (.var "x" 2) :=
    .simple (Derives.level_of_operand _ (.primary (.var hx)))
  have hgroup : Derives .primary (⟨.symbol ['('], 1⟩ :: ([⟨.name "x", 2⟩] ++ [⟨.symbol [')'], 3⟩]))
      (.group (.var "x" 2)) := .group hinner
  have hsign : IsSign '-' (some .neg) := .minus
  have hwhole := Derives.level_of_operand levels
    (.sign (o := 0) hsign (.primary hgroup))
  refine ⟨_, ⟨[], 4⟩, ?_, nofun, .simple hwhole⟩
  refine Lexes.cons_iff.2 ⟨by decide, by decide, ?_⟩
  refine Lexes.cons_iff.2 ⟨by decide, by decide, ?_⟩
  refine Lexes.cons_iff.2 ⟨by decide, by decide, ?_⟩
  exact Lexes.cons_iff.2 ⟨by decide, by decide, Lexes.nil_iff.2 (by decide)⟩

/-- The negation of a variable in parentheses opens three phrases, one in the other, and is compiled
if three are allowed but not if only two are. -/
theorem compile_eq_ok_of_three_phrases :
    let o : CompileOptions := ⟨true, 2, 30⟩
    let w : Workplace := ⟨.withBuckets 1, .empty 36⟩
    let t : Tree := .sign (some .neg) (.group (.var "x" 2))
    Sentence "-(x)" t ∧ CanResolve o w.symbols t.expr.names ∧
      9 * utf8Length "-(x)".toList ≤ w.program.capacity ∧ t.nesting = 3 ∧
      (∃ w', compile o "-(x)" w = .error (.nestingTooDeep 2) w') ∧
      ∃ summary w', compile { o with nestingLimit := 3 } "-(x)" w = .ok summary w' := by
  intro o w t
  have hsentence : Sentence "-(x)" t := sentence_neg_group
  have hroom : (w.symbols.unknown ["x"]).card ≤ 1 := Finset.card_filter_le _ _
  have hnames : CanResolve o w.symbols t.expr.names := .inr ⟨rfl, by
    have hlimit : 0 + 1 ≤ limit := by decide
    exact (Nat.add_le_add_left hroom 0).trans hlimit⟩
  have hcapacity : 9 * utf8Length "-(x)".toList ≤ w.program.capacity := by decide
  obtain ⟨-, htooDeep, -⟩ := compile_eq_ok_iff_nesting_le hsentence hnames hcapacity 2
  obtain ⟨hiff, -⟩ := compile_eq_ok_iff_nesting_le hsentence hnames hcapacity 3
  exact ⟨hsentence, hnames, hcapacity, rfl, htooDeep (by decide), hiff.2 (by decide)⟩

end Reckon.Expr
