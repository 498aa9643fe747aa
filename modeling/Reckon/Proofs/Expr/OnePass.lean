import Reckon.Proofs.Expr.Consumption
import Reckon.Proofs.Expr.Folding
import Reckon.Proofs.Expr.Rendering
import Reckon.Proofs.Source.Position

/-!
# One pass compiles what is read

Each phrase is compiled in one pass as it is read (`Translation.Mirrors`), so that the translation
of a source has the outcome of its compilation (`Translation.exists_compile`).  The readers are
bounded by the number of phrases that may be opened and by the turns of their loops; the translation
is not, and it comes to its end because it consumes the source.  Both together make up the main
result (`Translation.compile_consumes`): a compilation ends whatever its limits are, each of its
calls leads on in the source, and it never emits more instructions than it has consumed bytes.
-/

namespace Reckon

open CompileOptions Outcome

namespace Cursor

/-- An operator that is found is passed. -/
lemma length_operator {operators : List (Spelling × BinaryOp)}
    (h : ∀ candidate ∈ operators, candidate.1 ∈ Expr.binaryOperators.vocabulary) (c : Cursor) :
    (c.operator Expr.binaryOperators.vocabulary operators).2.rest.length ≤ c.rest.length ∧
      ((c.operator Expr.binaryOperators.vocabulary operators).1 ≠ none →
        (c.operator Expr.binaryOperators.vocabulary operators).2.rest.length < c.rest.length) := by
  have hblanks := c.length_skipBlanks_le
  rw [operator_eq c h]
  split
  · rename_i s htoken
    have hlt := length_past_lt htoken
    split
    · exact ⟨hblanks, fun hne => absurd rfl hne⟩
    · exact ⟨Nat.le_of_lt hlt, fun _ => hlt⟩
  · exact ⟨hblanks, fun hne => absurd rfl hne⟩

/-- A mark that is eaten is passed. -/
lemma length_eat {ch : Char} (h : IsMark ch) (c : Cursor) :
    (c.eat ch).2.rest.length ≤ c.rest.length ∧
      ((c.eat ch).1 = true → (c.eat ch).2.rest.length < c.rest.length) := by
  rw [eat_eq c h]
  split
  · rename_i htoken
    have hlt := length_past_lt htoken
    exact ⟨Nat.le_of_lt hlt, fun _ => hlt⟩
  · exact ⟨c.length_skipBlanks_le, nofun⟩

end Cursor

/-- What a function is built of is as many operands as it has. -/
lemma Meaning.length_of_build? {m : Meaning} {args : List Expr} {e : Expr}
    (h : m.build? args = some e) : args.length = m.arity := by
  unfold build? at h
  split at h
  all_goals cases h
  all_goals rfl

/-- A function can be built of as many operands as it has. -/
lemma Meaning.build?_ne_none {m : Meaning} {args : List Expr} (h : args.length = m.arity) :
    m.build? args ≠ none := by
  cases m with
  | constant =>
    rw [List.length_eq_zero_iff.1 h]
    exact Option.some_ne_none _
  | unary =>
    obtain ⟨operand, rfl⟩ := List.length_eq_one_iff.1 h
    exact Option.some_ne_none _
  | binary =>
    obtain ⟨left, right, rfl⟩ := List.length_eq_two.1 h
    exact Option.some_ne_none _

namespace Translation

variable {β : Type} {o : CompileOptions} {base : List Expr} {w : Workplace} {room : ℕ}

/-! ## Phrases -/

section

variable {depth bound : ℕ} {calls : List Entry} {group inner branch : Reader Expr Unit}

/-- A function of as many operands as were finished is emitted behind them, where a reader builds
it. -/
lemma carries_apply (name : String) {m : Meaning} {f : β → Translating Unit} {count : β → ℕ}
    (hsome : ∀ b, count b = m.arity → f b = emitFolding o m.instruction w.program)
    (hnone : ∀ b t, count b ≠ m.arity →
      f b t = some (.error (.argumentCount name m.arity (count b)), t)) :
    Carries o base w (Counts room count) (Counts room fun _ => 1) f
      (Expr.apply name m base.length) := by
  refine .reduceSince (fun newer a => isJoinedBy_of_build?) (fun b newer a hlength h => ?_)
    fun b newer t hlength h => ?_
  · refine hsome b ?_
    rw [← hlength, ← List.length_reverse]
    exact Meaning.length_of_build? h
  · rw [List.length_reverse, hlength]
    refine hnone b t fun heq => Meaning.build?_ne_none ?_ h
    rw [List.length_reverse, hlength, heq]

/-- The operators of a level are read in the same turns. -/
lemma carries_operations {operators : List (Spelling × BinaryOp)}
    {tighter : List (List (Spelling × BinaryOp))} {operand tighter' : Reader Expr Unit}
    (h : ∀ candidate ∈ operators, candidate.1 ∈ Expr.binaryOperators.vocabulary)
    (htighter : ∀ calls, Mirrors o bound (climb o depth calls tighter) tighter') {turns : ℕ}
    (hroom : room ≤ turns) (hbound : turns ≤ bound) (calls : List Entry) :
    Carries o base w (Counts room fun _ : Unit => 1) (Counts room fun _ : Unit => 1)
      (fun _ => operations o depth calls operators tighter w.program)
      ((Expr.grammar operand).pairs operators tighter' base.length turns) := by
  induction turns generalizing room calls with
  | zero =>
    obtain rfl := Nat.le_zero.1 hroom
    -- nothing is left, so that no operator is found
    have hnone : ∀ t : Translation, t.cursor.rest.length ≤ 0 →
        operations o depth calls operators tighter w.program t =
          some (.ok (), t.entered (⟨.operator, t.cursor⟩ :: calls)) := by
      intro t ht
      have hnil := List.length_eq_zero_iff.1 (Nat.le_zero.1 ht)
      have hblanks : t.cursor.skipBlanks = t.cursor := by
        rw [Cursor.skipBlanks, hnil]
        exact Cursor.ext rfl rfl
      have htoken : t.cursor.token? = none :=
        Cursor.halts_of_atEnd (Cursor.atEnd_iff.2 (hnil ▸ List.forall_mem_nil _))
      rw [operations_apply o depth calls h, htoken, hblanks]
      rfl
    constructor
    · intro b t newer hshape hemit
      rw [hnone t hshape.2]
      exact .ok (t := t.entered _) hshape hemit
    · exact fun b c newer e w' hshape hemit => ⟨newer, rfl, hemit, fun _ => ⟨(), hshape⟩⟩
  | succ turns ih =>
    rw [operations, Grammar.pairs]
    refine .enter fun calls => .scan
      (T := fun f _ c newer => newer.length = 1 ∧ c.rest.length ≤ room ∧
        (f ≠ none → c.rest.length < room)) ?_ fun f => ?_
    · intro _ c newer hshape
      obtain ⟨hle, hlt⟩ := c.length_operator h
      exact ⟨hshape.1, Nat.le_trans hle hshape.2, fun hf => Nat.lt_of_lt_of_le (hlt hf) hshape.2⟩
    · cases f with
      | none => exact .pure () fun _ _ _ hshape => ⟨hshape.1, hshape.2.1⟩
      | some f =>
        have hrest : ∀ less < room, Carries o base w (Counts less fun _ : Unit => 1)
            (Counts room fun _ : Unit => 1)
            (fun _ => do
              climb o depth calls tighter
              note (.reducing w.program)
              emitFolding o (.binary f) w.program
              operations o depth calls operators tighter w.program)
            (do
              tighter'
              Expr.apply f.mnemonic (.binary f) base.length
              (Expr.grammar operand).pairs operators tighter' base.length turns) := by
          intro less hless
          have hturns : less ≤ turns := Nat.le_of_lt_succ (Nat.lt_of_lt_of_le hless hroom)
          have hreduce : Carries o base w (Counts less fun _ : Unit => 2)
              (Counts less fun _ : Unit => 1) (fun _ => emitFolding o (.binary f) w.program)
              (Expr.apply f.mnemonic (.binary f) base.length) :=
            carries_apply _ (fun _ _ => rfl) fun _ _ hne => absurd rfl hne
          refine ((htighter calls).carries (Nat.le_trans hturns (Nat.le_of_succ_le hbound)) 1).seq
            (.note (hreduce.seq ((ih hturns (Nat.le_of_succ_le hbound) calls).mono
              (fun _ _ _ hshape => hshape) ?_)))
          exact fun _ _ _ hshape => ⟨hshape.1, Nat.le_trans hshape.2 (Nat.le_of_lt hless)⟩
        exact (Carries.of_lt hrest).mono (fun _ _ _ hshape => ⟨hshape.1,
          hshape.2.2 (Option.some_ne_none f)⟩)
          fun _ _ _ hshape => hshape

/-- Levels are read in as many turns as there are characters left. -/
lemma mirrors_climb {levels : List (List (Spelling × BinaryOp))} {operand' : Reader Expr Unit}
    (h : ∀ operators ∈ levels, ∀ candidate ∈ operators,
      candidate.1 ∈ Expr.binaryOperators.vocabulary)
    (hoperand : ∀ calls, Mirrors o bound (operand o depth calls) operand') (calls : List Entry) :
    Mirrors o bound (climb o depth calls levels) ((Expr.grammar operand').climb bound levels) := by
  induction levels generalizing calls with
  | nil =>
    rw [climb]
    exact hoperand calls
  | cons operators tighter ih =>
    have htighter := ih fun operators' h' => h operators' (List.mem_cons_of_mem _ h')
    intro t base hbound
    rw [climb_cons_apply]
    exact (htighter _ (t.entered _) base hbound).bind
      (carries_operations (h operators List.mem_cons_self) htighter hbound (Nat.le_refl bound) _)

/-- A choice is read if a question mark follows. -/
lemma carries_choice {x : Translating Unit} (hbranch : Mirrors o room x branch) :
    Carries o base w (Counts room fun _ : Unit => 1) (Counts room fun _ : Unit => 1)
      (fun _ => do
        if ← reading (Reader.eat '?') then
          x
          reading (Reader.expect ':')
          x
          emitFolding o .choice w.program)
      (do
        if ← Reader.eat '?' then
          branch
          Reader.expect ':'
          branch
          Reader.reduceSince base.length Expr.choice? fun found =>
            .argumentCount "?:" 3 found.length) := by
  refine .scan (T := fun _ => Counts room fun _ => 1) ?_ fun isChoice => ?_
  · intro _ c newer hshape
    exact ⟨hshape.1, Nat.le_trans (c.length_eat Expr.isMark_question).1 hshape.2⟩
  · cases isChoice with
    | false => exact .pure () fun _ _ _ hshape => hshape
    | true =>
      refine (hbranch.carries (Nat.le_refl room) 1).seq ((carries_expect Expr.isMark_colon 2).seq
        ((hbranch.carries (Nat.le_refl room) 2).seq (.reduceSince
          (fun newer a => isJoinedBy_of_choice?) (fun _ _ _ _ _ => rfl) ?_)))
      intro _ newer _ hlength hnone
      obtain ⟨no, yes, test, rfl⟩ := List.length_eq_three.1 hlength
      exact nomatch hnone

/-- After each argument follows a comma or the end of the list. -/
lemma carries_arguments (hgroup : ∀ calls, Mirrors o bound (expression o depth calls) group)
    (opening : ℕ) {turns : ℕ} (hroom : room < turns) (hbound : room ≤ bound) (found : ℕ)
    (calls : List Entry) :
    Carries o base w (Counts room fun _ : Unit => found) (Counts room id)
      (fun _ => arguments o depth calls opening found) (Expr.arguments group opening turns) := by
  induction turns generalizing room found calls with
  | zero => exact absurd hroom (Nat.not_lt_zero room)
  | succ turns ih =>
    rw [arguments, Expr.arguments]
    refine .enter fun calls => ((hgroup calls).carries hbound found).seq (.scan
      (T := fun isMore _ c newer => newer.length = found + 1 ∧ c.rest.length ≤ room ∧
        (isMore = true → c.rest.length < room)) ?_ fun isMore => ?_)
    · intro _ c newer hshape
      obtain ⟨hle, hlt⟩ := c.length_eat Expr.isMark_comma
      exact ⟨hshape.1, Nat.le_trans hle hshape.2,
        fun hmore => Nat.lt_of_lt_of_le (hlt hmore) hshape.2⟩
    · cases isMore with
      | true =>
        have hrest : ∀ less < room, Carries o base w (Counts less fun _ : Unit => found + 1)
            (Counts room id) (fun _ => arguments o depth calls opening (found + 1))
            (Expr.arguments group opening turns) := fun less hless =>
          (ih (Nat.lt_of_lt_of_le hless (Nat.le_of_lt_succ hroom))
            (Nat.le_trans (Nat.le_of_lt hless) hbound) (found + 1) calls).mono
            (fun _ _ _ hshape => hshape)
            fun _ _ _ hshape => ⟨hshape.1, Nat.le_trans hshape.2 (Nat.le_of_lt hless)⟩
        exact (Carries.of_lt hrest).mono (fun _ _ _ hshape => ⟨hshape.1, hshape.2.2 rfl⟩)
          fun _ _ _ hshape => hshape
      | false =>
        have hclose : Carries o base w (Counts room fun _ : Unit => found + 1) (Counts room id)
            (fun _ => reading (Reader.closeGroup opening) >>= fun _ => pure (found + 1))
            (Reader.closeGroup opening >>= fun _ => pure ()) :=
          (carries_closeGroup opening (found + 1)).seq (.pure _ fun _ _ _ hshape => hshape)
        rw [bind_pure_unit] at hclose
        exact hclose.mono (fun _ _ _ hshape => ⟨hshape.1, hshape.2.1⟩) fun _ _ _ hshape => hshape

/-- A call is compiled as it is read, if its arguments are. -/
lemma mirrors_application (hgroup : ∀ calls, Mirrors o bound (expression o depth calls) group)
    (calls : List Entry) (function : Builtin) (position : ℕ) :
    Mirrors o bound (application o depth calls function position)
      (Expr.call group function position) := by
  intro t base hbound
  have hfinish : ∀ room, Carries o base t.workplace (Counts room id) (Counts room fun _ => 1)
      (fun found => do
        unless found = function.meaning.arity do
          throw (.argumentCount function.name function.meaning.arity found)
        emitFolding o function.meaning.instruction t.workplace.program)
      (Expr.apply function.name function.meaning base.length) := by
    refine fun room => carries_apply function.name (fun found hcount => if_pos hcount) ?_
    intro found t' hcount
    have hne : found ≠ function.meaning.arity := hcount
    rw [if_neg hne]
    rfl
  rw [application_apply, Expr.call_apply]
  dsimp only
  by_cases hopen : t.cursor.token? = some (.symbol ['('])
  · rw [if_pos hopen, if_pos hopen]
    have hle := Nat.le_of_lt (Cursor.length_past_lt hopen)
    by_cases hclose : (t.cursor.past (.symbol ['('])).token? = some (.symbol [')'])
    · rw [if_pos hclose, if_pos hclose]
      have hle' := Nat.le_of_lt (Cursor.length_past_lt hclose)
      exact (hfinish _).going 0 (t.moveTo _) [] ⟨rfl, Nat.le_trans hle' hle⟩ rfl
    · rw [if_neg hclose, if_neg hclose]
      have hle' := (t.cursor.past (.symbol ['('])).length_skipBlanks_le
      have hle := Nat.le_trans hle' hle
      have harguments : Carries o base t.workplace (Counts _ fun _ : Unit => 0) (Counts _ id) _ _ :=
        carries_arguments hgroup t.cursor.skipBlanks.offset (Nat.lt_succ_self _)
          (Nat.le_trans hle hbound) 0 calls
      exact ((harguments.seq (hfinish _)).going () (t.moveTo _) [] ⟨rfl, Nat.le_refl _⟩ rfl).widen
        hle
  · rw [if_neg hopen, if_neg hopen]
    exact .error_of_nil rfl

/-- A name is compiled as it is read, if groups are. -/
lemma mirrors_named (hgroup : ∀ calls, Mirrors o bound (expression o depth calls) group)
    (calls : List Entry) (name : String) (position : ℕ) :
    Mirrors o bound (named o depth calls name position) (Expr.named group name position) := by
  intro t base hbound
  rw [named, Expr.named]
  rcases Builtin.lookup name with _ | ⟨functionName, c | _ | _⟩
  · exact (performs_load o name position t).renders (Nat.le_refl _)
  · have hperforms : Performs t.cursor (emitFolding o (.named c) t.workplace.program t)
        ((Expr.constant c).emit o t.workplace) := performs_emitFolding o (.named c) _ t
    exact hperforms.renders (Nat.le_refl _)
  · exact mirrors_application hgroup calls _ position t base hbound
  · exact mirrors_application hgroup calls _ position t base hbound

/-- Primaries are compiled as they are read, if groups are. -/
lemma mirrors_primary (hgroup : ∀ calls, Mirrors o bound (expression o depth calls) group)
    (calls : List Entry) :
    Mirrors o bound (primary o depth calls) (Expr.primary group) := by
  intro t base hbound
  have hunexpected : Renders o base t.workplace (Counts t.cursor.rest.length fun _ : Unit => 1)
      (some (.error (Reader.unexpectedAt t.cursor), t.moveTo t.cursor.skipBlanks))
      (.error (Reader.unexpectedAt t.cursor) ⟨t.cursor.skipBlanks, base⟩) :=
    .error_of_nil rfl
  rw [primary_apply, Expr.primary_apply]
  rcases htoken : t.cursor.token? with _ | ⟨n⟩ | ⟨name⟩ | ⟨s⟩
  · exact hunexpected
  · have hle := Nat.le_of_lt (Cursor.length_past_lt htoken)
    dsimp only
    cases n.value? with
    | none => exact .error_of_nil rfl
    | some x =>
      have hperforms : Performs (t.cursor.past (.numeral n))
          (emit (.const x) (t.moveTo (t.cursor.past (.numeral n))))
          ((Expr.number x).emit o t.workplace) := performs_emit (.const x) (t.moveTo _)
      exact hperforms.renders hle
  · have hle := Nat.le_of_lt (Cursor.length_past_lt htoken)
    exact (mirrors_named hgroup calls name _ (t.moveTo _) base (Nat.le_trans hle hbound)).widen hle
  · have hle := Nat.le_of_lt (Cursor.length_past_lt htoken)
    by_cases hs : s = ['(']
    · subst hs
      exact ((hgroup calls (t.moveTo _) base (Nat.le_trans hle hbound)).bind
        (carries_closeGroup _ 1)).widen hle
    · simpa [hs] using hunexpected

/-- An operand is read behind its signs, each of which nests it deeper. -/
lemma mirrors_operand (hinner : ∀ calls, Mirrors o bound
      (nest o depth >>= fun depth => operand o depth calls) inner)
    (hgroup : ∀ calls, Mirrors o bound (expression o depth calls) group) (calls : List Entry) :
    Mirrors o bound (operand o depth calls) (Expr.operandWith inner group) := by
  intro t base hbound
  rw [operand_apply, Expr.operandWith_apply]
  dsimp only
  have hblanks := t.cursor.length_skipBlanks_le
  cases t.cursor.token?.bind Token.sign? with
  | none =>
    exact (mirrors_primary hgroup (⟨.operand, t.cursor⟩ :: calls)
      ((t.entered (⟨.operand, t.cursor⟩ :: calls)).moveTo t.cursor.skipBlanks) base
      (Nat.le_trans hblanks hbound)).widen hblanks
  | some sign =>
    have hle : (t.cursor.skipBlanks.skip 1).rest.length ≤ t.cursor.rest.length :=
      Nat.le_trans (Cursor.length_skip_le _ 1) hblanks
    have hinside := (hinner (⟨.operand, t.cursor⟩ :: calls)
      ((t.entered (⟨.operand, t.cursor⟩ :: calls)).moveTo (t.cursor.skipBlanks.skip 1)) base
      (Nat.le_trans hle hbound)).widen hle
    cases sign with
    | none =>
      dsimp only
      rw [nest_mark_apply]
      exact hinside.bind (.pure () fun _ _ _ hshape => hshape)
    | some f =>
      dsimp only
      rw [nest_mark_apply]
      exact hinside.bind (carries_apply _ (fun _ _ => rfl) fun _ _ hne => absurd rfl hne)

/-- An expression that is nested too deep is not read. -/
lemma mirrors_tooDeep (h : ¬ depth < o.nestingLimit) (x : ℕ → Translating Unit) :
    Mirrors o bound (nest o depth >>= x) (throw (.nestingTooDeep o.nestingLimit)) := by
  intro t base _
  rw [bind_apply, nest_apply, if_neg h]
  exact .error_of_nil rfl

/-- Expressions are compiled as they are read, if their operands and branches are. -/
lemma mirrors_expression {operand' : Reader Expr Unit} (hlt : depth < o.nestingLimit)
    (hoperand : ∀ bound calls, Mirrors o bound (operand o (depth + 1) calls) operand')
    (hbranch : ∀ bound calls, Mirrors o bound (expression o (depth + 1) calls) branch)
    (bound : ℕ) (calls : List Entry) :
    Mirrors o bound (expression o depth calls) (Expr.expressionWith operand' branch) := by
  intro t base _
  have hclimb := mirrors_climb Expr.mem_vocabulary_of_mem_levels
    (hoperand t.cursor.rest.length) (⟨.expression, t.cursor⟩ :: calls)
    (t.entered (⟨.expression, t.cursor⟩ :: calls)) base (Nat.le_refl _)
  have hwhole := hclimb.bind
    (carries_choice (hbranch t.cursor.rest.length (⟨.expression, t.cursor⟩ :: calls)))
  rw [expression_apply]
  dsimp only
  rw [bind_apply, nest_apply, if_pos hlt]
  dsimp only
  rw [bind_apply, mark_apply]
  rw [Expr.expressionWith, Outcome.bind_apply, Reader.mark]
  dsimp only
  rw [Grammar.phrase, bind_assoc, Outcome.bind_apply, Outcome.get_apply]
  exact hwhole

end

/-- Expressions and operands are compiled as they are read. -/
theorem mirrors_reader (o : CompileOptions) {n depth : ℕ} (h : depth + n = o.nestingLimit) :
    (∀ bound calls, Mirrors o bound (expression o depth calls)
      (Expr.reader o.nestingLimit n .expression)) ∧
    ∀ bound calls, Mirrors o bound (operand o depth calls)
      (Expr.reader o.nestingLimit n .operand) := by
  induction n generalizing depth with
  | zero =>
    have hnot : ¬ depth < o.nestingLimit := by omega
    have hexpression : ∀ bound calls, Mirrors o bound (expression o depth calls)
        (throw (.nestingTooDeep o.nestingLimit)) := by
      intro bound calls t base hbound
      rw [expression_apply]
      exact mirrors_tooDeep hnot _ (t.entered _) base hbound
    exact ⟨hexpression, fun bound => mirrors_operand (fun calls => mirrors_tooDeep hnot _)
      (hexpression bound)⟩
  | succ n ih =>
    have hlt : depth < o.nestingLimit := by omega
    obtain ⟨hbranch, hinner⟩ := @ih (depth + 1) (by omega)
    have hexpression := mirrors_expression hlt hinner hbranch
    refine ⟨hexpression, fun bound => mirrors_operand (fun calls => ?_) (hexpression bound)⟩
    intro t base hbound
    rw [bind_apply, nest_apply, if_pos hlt]
    exact hinner bound calls t base hbound

/-! ## Sources -/

/-- What is left to do behind the expression of a source. -/
lemma finish_apply (o : CompileOptions) (before : Program) (t : Translation) :
    (do
      fold o before
      unless ← reading Reader.atEnd do
        reading (do throw (.trailingInput (← Reader.tokenPosition)))
      return (← mark).summary : Translating Program.Summary) t =
    let folded : Workplace := { t.workplace with
      program := t.workplace.program.fold t.workplace.symbols.value o.stackCapacity before.size }
    let stop : Translation :=
      ⟨t.cursor.skipBlanks, folded, (t.noted (.folding before)).log⟩
    if t.cursor.atEnd then some (.ok folded.program.summary, stop)
    else some (.error (.trailingInput t.cursor.skipBlanks.offset), stop) := by
  have hfold : fold o before t = some (.ok (), ⟨t.cursor, { t.workplace with
      program := t.workplace.program.fold t.workplace.symbols.value o.stackCapacity before.size },
      (t.noted (.folding before)).log⟩) := rfl
  rw [bind_apply, hfold]
  dsimp only
  rw [bind_apply, Reader.atEnd, scan_apply]
  cases hend : t.cursor.atEnd with
  | true => rfl
  | false =>
    have htrailing : (reading (do throw (.trailingInput (← Reader.tokenPosition))) :
        Translating PUnit) = fun t' => some (.error (.trailingInput t'.cursor.skipBlanks.offset),
          t'.moveTo t'.cursor.skipBlanks) := rfl
    rw [htrailing]
    simp [bind_apply, moveTo]

/-- A compilation is a translation of the whole source, after which the program is cleared if it
failed. -/
lemma compile_eq (o : CompileOptions) (source : String) (w : Workplace) :
    compile o source w = match whole o (begin source w) with
      | none => none
      | some (.ok summary, t) => some (.ok summary t.workplace, t.log)
      | some (.error e, t) => some (.error e t.workplace.clear, t.log) := rfl

/-- A translation of a source answers as its compilation does, and leaves the same behind. -/
theorem exists_compile (o : CompileOptions) (source : String) (w : Workplace) :
    ∃ log, compile o source w = some (Expr.compile o source w, log) := by
  have hrenders := (mirrors_reader o (Nat.zero_add o.nestingLimit)).1
    (Cursor.ofString source).rest.length [] (begin source w) [] (Nat.le_refl _)
  have hread : Expr.reader o.nestingLimit o.nestingLimit .expression =
    Expr.read o.nestingLimit := rfl
  rw [hread] at hrenders
  rw [compile_eq, Expr.compile_apply, whole, bind_apply, mark_apply]
  dsimp only
  rw [bind_apply]
  generalize expression o 0 [] (begin source w) = y at hrenders ⊢
  generalize hr : Expr.read o.nestingLimit ⟨Cursor.ofString source, []⟩ = r
  have hrenders : Renders o [] w.clear _ y r := hr ▸ hrenders
  cases hrenders with
  | @ok _ newer t _ hemit =>
    dsimp only
    rw [folding_apply, Outcome.bind_apply, List.append_nil, hemit, finish_apply]
    dsimp only
    cases t.cursor.atEnd with
    | true => exact ⟨_, rfl⟩
    | false => exact ⟨_, rfl⟩
  | @error e newer t c hemit =>
    dsimp only
    rw [List.append_nil, hemit]
    exact ⟨_, rfl⟩
  | @stopped e t _ hstopped =>
    obtain ⟨newer, hdone, hemit, -⟩ := hstopped
    obtain rfl : newer = (final r).done := (List.append_nil newer).symm.trans hdone.symm
    cases r with
    | ok a p =>
      have hemit : Expr.emitAll o p.done w.clear = .error e t.workplace := hemit
      dsimp only
      rw [folding_apply, Outcome.bind_apply, hemit]
      exact ⟨_, rfl⟩
    | error e' p =>
      have hemit : Expr.emitAll o p.done w.clear = .error e t.workplace := hemit
      dsimp only
      rw [hemit]
      exact ⟨_, rfl⟩

/-- Compiled in one pass, any source comes to an end and to the outcome of its compilation, whatever
the limits are.  At each entry the calls that are open have been entered one inside of the other
with falling measures: fewer bytes are left or, at the same place, the phrase is tighter.  So at
least one byte is consumed between two calls of one kind, and in each turn of a loop, which counts
as a call inside of the turn before.  At no moment have more instructions been emitted than bytes
consumed.  So a program that is compiled has at most as many instructions as its source has
bytes. -/
theorem compile_consumes (o : CompileOptions) (source : String) (w : Workplace) :
    ∃ log, compile o source w = some (Expr.compile o source w, log) ∧
      (∀ m ∈ log, ∀ calls, m.event = .entering calls → calls.Pairwise fun inner outer =>
        Prod.Lex (· < ·) (· < ·) inner.measure outer.measure ∧
          (inner.station = outer.station → outer.cursor.offset < inner.cursor.offset)) ∧
      (∀ m earlier, m :: earlier <:+ log →
        emissions (m :: earlier) ≤ m.cursor.offset ∧ m.cursor.offset ≤ source.utf8ByteSize) ∧
      emissions log ≤ source.utf8ByteSize ∧
      ∀ summary w', Expr.compile o source w = .ok summary w' → summary.size ≤ emissions log := by
  obtain ⟨log, hcompile⟩ := exists_compile o source w
  obtain ⟨t, rfl, hpaid, hprogram⟩ : ∃ t : Translation, t.log = log ∧ t.IsPaid source.toList 0 ∧
      ∀ summary w', Expr.compile o source w = .ok summary w' → t.workplace = w' := by
    have hends := ends_whole o source w
    rw [compile_eq] at hcompile
    generalize whole o (begin source w) = y at hends hcompile
    cases hends with
    | ok _ hpaid =>
      obtain ⟨hresult, hlog⟩ := Prod.mk.inj (Option.some.inj hcompile)
      refine ⟨_, hlog, hpaid, fun summary w' h => ?_⟩
      exact (EStateM.Result.ok.inj (hresult.trans h)).2
    | error _ hpaid =>
      obtain ⟨hresult, hlog⟩ := Prod.mk.inj (Option.some.inj hcompile)
      exact ⟨_, hlog, hpaid, fun summary w' h => nomatch hresult.trans h⟩
  have hbytes : ∀ {c : Cursor}, c.StandsIn source.toList → c.offset ≤ source.utf8ByteSize :=
    fun hc => utf8Length_toList source ▸ hc.offset_le
  refine ⟨t.log, hcompile, ?_, ?_, ?_, ?_⟩
  · intro m hm calls hentering
    obtain ⟨later, earlier, hsplit⟩ := List.append_of_mem hm
    have hnested := (hpaid.isSound m earlier ⟨later, hsplit.symm⟩).isNested calls hentering
    refine hnested.pairwise.imp_of_mem fun hinner houter hwithin => ⟨?_, hwithin.offset_lt⟩
    exact hwithin.measure_lt (hnested.standsIn _ hinner) (hnested.standsIn _ houter)
  · intro m earlier hsuffix
    have hsound := hpaid.isSound m earlier hsuffix
    exact ⟨hsound.emissions_le, hbytes hsound.standsIn⟩
  · exact Nat.le_trans hpaid.emissions_add_le (hbytes hpaid.standsIn)
  · intro summary w' h
    obtain ⟨-, -, -, -, -, rfl⟩ := Expr.exists_emit_of_compile h
    exact hprogram _ w' h ▸ hpaid.size_le

end Translation

end Reckon
