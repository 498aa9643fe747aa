import Reckon.Proofs.Expr.Headroom
import Reckon.Proofs.Expr.Lockstep

/-!
# More capacity

A source that is compiled is compiled to a program of the same value wherever there is more
capacity, if the capacity is enough for the named constants that are folded there
(`Expr.compile_of_other_capacity`).  One unit more can be too little: it can be the one in which
`pi` is folded (`Expr.compile_eq_error_neg_constant`).
-/

namespace Reckon

open Outcome Instruction Compilation

namespace Compilation

variable {o : CompileOptions} {name : String} {w w' : Workplace}

/-- A name that was found or installed had been known, or could be installed. -/
lemma Emitted.autoInstall_or_lookup_ne_none {names : List String}
    {code : (String → ℕ) → List Instruction} {bound : ℕ} (h : Emitted o names code bound w w')
    (hname : name ∈ names) : o.autoInstall = true ∨ w.symbols.lookup name ≠ none := by
  cases hauto : o.autoInstall with
  | true => exact .inl rfl
  | false =>
    rw [← h.symbols_eq hauto]
    exact .inr (h.lookup_ne_none name hname)

/-- Whether an error is about the capacity of the program. -/
def IsTooLarge (e : Error) : Prop := ∃ capacity, e = .programTooLarge capacity

/-- Whether two workplaces have the same variables. -/
def SharesSymbols (w v : Workplace) : Prop := v.symbols = w.symbols

lemma inStep_emit_of_sharesSymbols (i : Instruction) :
    InStep IsTooLarge SharesSymbols Eq (Compilation.emit i) (Compilation.emit i) := by
  intro w v h
  unfold Compilation.emit
  rcases hp : w.program.emit i with e | p
  · exact .left ⟨_, (Program.emit_eq_error_iff.1 hp).2⟩
  · rcases hq : v.program.emit i with e | q
    · exact .right ⟨_, (Program.emit_eq_error_iff.1 hq).2⟩
    · exact .ok rfl h

/-- Unless a program is too large, its capacity makes no difference to the variables. -/
lemma isLockstep_sharesSymbols (o : CompileOptions) : IsLockstep o IsTooLarge SharesSymbols where
  clear _ _ h := h
  emit i _ := inStep_emit_of_sharesSymbols i
  load name position := by
    have hresolve : InStep IsTooLarge SharesSymbols Eq (resolve o name position)
        (resolve o name position) := by
      intro w v (h : v.symbols = w.symbols)
      unfold resolve
      rw [h]
      split
      · exact .ok rfl h
      · split
        · split
          · exact .ok rfl rfl
          · exact .error h
        · exact .error h
    exact hresolve.bind fun _ index hindex => hindex ▸ inStep_emit_of_sharesSymbols (.load index)
  folding body hbody w v h := by
    unfold Compilation.folding
    rw [bind_apply, bind_apply, get_apply, get_apply]
    exact (hbody w v h).bind fun _ _ _ _ _ h => .ok rfl h

end Compilation

namespace Expr

open Program

variable {o : CompileOptions} {source : String} {w w' v : Workplace} {t : Tree}
  {summary : Program.Summary}

/-- The program that is compiled computes the value of the expression, if it computes one. -/
lemma eq_eval_of_run_compiled (h : compile o source w = .ok summary w')
    (hsentence : Sentence source t)
    {values : ℕ → Float} {stackCapacity : ℕ} {x : Float}
    (hrun : w'.program.run values stackCapacity = .ok x) :
    x = t.expr.eval fun name => values ((w'.symbols.lookup name).getD 0) := by
  obtain ⟨u, e', indexOf, hu, hfolds, hindex, hcode⟩ := exists_foldsTo_of_compile h
  obtain rfl := hu.unique hsentence
  rw [Program.run, hcode] at hrun
  rw [eq_eval_of_run_code hrun, hfolds.eval_eq]
  refine eval_congr fun name hname => ?_
  rw [hindex name hname, Option.getD_some]

/-- A source that is compiled in one workplace is compiled in another with the same variables, if
that has the capacity for the lead of a roomier program. -/
lemma exists_compile_of_lead_le (h : compile o source w = .ok summary w')
    (hsymbols : v.symbols = w.symbols) (hsentence : Sentence source t)
    (hcapacity : w.program.capacity + 8 * min t.expr.namedConstants 8 ≤ v.program.capacity) :
    ∃ summary' v', compile o source v = .ok summary' v' := by
  obtain ⟨u, hu, hnesting, -⟩ := emitted_of_compile_eq_ok h
  obtain rfl := hu.unique hsentence
  obtain ⟨u, w₁, hu', hemit, -, -⟩ := exists_emit_of_compile h
  obtain rfl := hu'.unique hsentence
  have hclear : w.clear.program.IsValid := Program.isValid_clear _
  obtain ⟨indexOf, hindex⟩ := ((emits_emit o u.expr).ok hclear.isConsistent hemit).exists_indexOf
  have hroomier : Roomier u.expr.namedConstants 0 w.clear.program v.clear.program :=
    ⟨hclear, rfl, Nat.zero_le _, hcapacity, Nat.zero_le _⟩
  obtain ⟨q, hemit', -, -⟩ :=
    exists_emit_of_roomier hroomier (Nat.zero_add _).le hemit hindex
  have hstart : v.clear = { w.clear with program := v.clear.program } := by
    rw [Workplace.clear, Workplace.clear, hsymbols]
  rw [← hstart] at hemit'
  obtain ⟨c, hread, hend⟩ := exists_read_of_sentence hsentence hnesting
  have hwhole : Compilation.folding o (emitAll o [u.expr]) v.clear = .ok () _ :=
    folding_eq_ok_iff.2 ⟨_, bind_eq_ok_iff.2 ⟨(), _, hemit', rfl⟩, rfl⟩
  rw [compile_apply, hread]
  dsimp only
  rw [hwhole]
  dsimp only
  rw [if_pos hend]
  exact ⟨_, _, rfl⟩

/-- Let a source be compiled, and let there be another workplace with the same variables and a
program of another capacity.

There the source is compiled too if the capacity is the same, or is larger by eight units for each
of the named constants in the source, of which eight are enough to count, or holds the plain code
with numbers for all named constants.  In particular it is compiled with more capacity if it
mentions no named constant, and with 64 units more in any case.  If it is not compiled, its program
is too large. If it is, the variables are the same afterwards, and the programs compute the same
values. -/
theorem compile_of_other_capacity (indexOf : String → ℕ) (h : compile o source w = .ok summary w')
    (hsymbols : v.symbols = w.symbols) :
    ∃ t, Sentence source t ∧
      (v.program.capacity = w.program.capacity ∨
        w.program.capacity + 8 * min t.expr.namedConstants 8 ≤ v.program.capacity ∨
        Program.totalWidth (t.expr.code indexOf) + 8 * t.expr.namedConstants ≤ v.program.capacity →
        ∃ summary' v', compile o source v = .ok summary' v') ∧
      (∀ e v', compile o source v = .error e v' → ∃ capacity, e = .programTooLarge capacity) ∧
      ∀ summary' v', compile o source v = .ok summary' v' → v'.symbols = w'.symbols ∧
        ∀ values stackCapacity stackCapacity' x y,
          w'.program.run values stackCapacity = .ok x →
          v'.program.run values stackCapacity' = .ok y → x = y := by
  obtain ⟨t, hsentence, hnesting, hemitted⟩ := emitted_of_compile_eq_ok h
  have hclear : SharesSymbols w.clear v.clear := hsymbols
  have hinstep := (isLockstep_sharesSymbols o).coincides_compile (w := w) (v := v)
    (A := fun _ _ => True) (fun _ _ _ => trivial) source hclear
  rw [h] at hinstep
  have herror : ∀ e v', compile o source v = .error e v' →
      ∃ capacity, e = .programTooLarge capacity := by
    intro e v' hv
    rw [hv] at hinstep
    cases hinstep with
    | right htoolarge => exact htoolarge
  refine ⟨t, hsentence, ?_, herror, ?_⟩
  · rintro (hsame | hlead | hplain)
    · have hclear : v.clear = w.clear := by
        rw [Workplace.clear, Workplace.clear, Program.clear, Program.clear, hsymbols, hsame]
      rw [compile_apply, hclear, ← compile_apply]
      exact ⟨summary, w', h⟩
    · exact exists_compile_of_lead_le h hsymbols hsentence hlead
    · rw [totalWidth_code] at hplain
      refine exists_compile_eq_ok hsentence hnesting hplain (fun name hname => ?_) ?_
      · rw [hsymbols]
        exact hemitted.autoInstall_or_lookup_ne_none hname
      · intro name v' hv
        obtain ⟨capacity, hcapacity⟩ := herror _ _ hv
        contradiction
  · intro summary' v' hv
    rw [hv] at hinstep
    have hsame : v'.symbols = w'.symbols := by
      cases hinstep with
      | ok _ hsame => exact hsame
    refine ⟨hsame, fun values stackCapacity stackCapacity' x y hx hy => ?_⟩
    rw [eq_eval_of_run_compiled h hsentence hx, eq_eval_of_run_compiled hv hsentence hy, hsame]

/-- The negation of `pi` is compiled where there are eight units, to two instructions, and it is
compiled to the same value where there are 64 more. -/
theorem compile_of_sixty_four_units_more :
    let o : CompileOptions := ⟨false, 64, 30⟩
    let w : Workplace := ⟨.empty, .empty 8⟩
    let v : Workplace := ⟨.empty, .empty 72⟩
    ∃ w' summary v', compile o "-pi" w = .ok ⟨2, 2, 0⟩ w' ∧ compile o "-pi" v = .ok summary v' ∧
      v'.symbols = w'.symbols ∧ ∀ values x y, w'.program.run values 30 = .ok x →
        v'.program.run values 30 = .ok y → x = y := by
  intro o w v
  have hanswer : answer (compile o "-pi" w) = .ok ⟨2, 2, 0⟩ := by decide +kernel
  rcases hw : compile o "-pi" w with ⟨summary, w'⟩ | ⟨e, w'⟩
  · rw [hw] at hanswer
    obtain rfl := Except.ok.inj hanswer
    obtain ⟨t, -, hcompile, -, hsame⟩ := compile_of_other_capacity (fun _ => 0) hw (v := v) rfl
    have hcapacity : 8 + 8 * min t.expr.namedConstants 8 ≤ 72 := by omega
    obtain ⟨summary, v', hv⟩ := hcompile (.inr (.inl hcapacity))
    obtain ⟨hsymbols, hvalues⟩ := hsame summary v' hv
    exact ⟨w', summary, v', rfl, hv, hsymbols, fun values => hvalues values 30 30⟩
  · rw [hw] at hanswer
    contradiction

/-- The negation of `pi` is compiled where there are eight units, but not where there are nine: `pi`
is folded to a number of nine units then, which leaves none for the negation. -/
theorem compile_eq_error_neg_constant :
    let o : CompileOptions := ⟨false, 64, 30⟩
    answer (compile o "-pi" ⟨.empty, .empty 8⟩) = .ok ⟨2, 2, 0⟩ ∧
      answer (compile o "-pi" ⟨.empty, .empty 9⟩) = .error (.programTooLarge 9) := by
  decide +kernel

end Expr

end Reckon
