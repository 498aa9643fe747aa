import Reckon.Proofs.Expr.Compilation
import Reckon.Proofs.Outcome

/-!
# Reading with a smaller allowance

A reader that may open fewer phrases does what a reader with a larger allowance does, until it would
have to open a phrase too many; there it fails, because the nesting is too deep (`CutShort`,
`cutShort_reader`).  What it has read by then the other reader has read too, and readers never
forget a name that they have read (`Remembers`).  So a sentence that is nested deeper than the limit
is not read, for this reason and no other, and only names of the sentence are left behind
(`exists_read_of_limit_lt`).
-/

namespace Reckon.Expr

open Outcome

/-- Whether the results of a progress mention all names that those of an earlier one mention. -/
def Remembers (s s' : Progress Expr) : Prop := s.done.flatMap names ⊆ s'.done.flatMap names

/-- A progress mentions what it mentions. -/
lemma Remembers.refl (s : Progress Expr) : Remembers s s := List.Subset.refl _

/-- What is remembered twice is remembered. -/
lemma Remembers.trans (s t u : Progress Expr) (h : Remembers s t) (h' : Remembers t u) :
    Remembers s u :=
  List.Subset.trans h h'

variable {α β : Type}

/-- Whether a reader does what another one does, unless it fails because the nesting is too deep for
its limit, with nothing read that the other one does not read. -/
structure CutShort (limit : ℕ) (x y : Reader Expr α) : Prop where
  remembers : Moves Remembers y
  same_or_tooDeep : ∀ s, x s = y s ∨
    ∃ s', x s = .error (.nestingTooDeep limit) s' ∧ Remembers s' (final (y s))

namespace CutShort

variable {limit : ℕ} {x y : Reader Expr α} {f g : α → Reader Expr β}

/-- A reader that forgets nothing is cut short to itself. -/
lemma refl (h : Moves Remembers x) : CutShort limit x x := ⟨h, fun _ => .inl rfl⟩

/-- A reader that may open nothing. -/
lemma tooDeep (h : Moves Remembers y) : CutShort limit (throw (.nestingTooDeep limit)) y :=
  ⟨h, fun s => .inr ⟨s, rfl, h s⟩⟩

/-- A sequence is cut short where one of its steps is. -/
lemma bind (hxy : CutShort limit x y) (hfg : ∀ a, CutShort limit (f a) (g a)) :
    CutShort limit (x >>= f) (y >>= g) where
  remembers := hxy.remembers.bind Remembers.trans fun a => (hfg a).remembers
  same_or_tooDeep s := by
    rw [bind_apply, bind_apply]
    rcases hxy.same_or_tooDeep s with hsame | ⟨s', hx, hkept⟩
    · rw [hsame]
      cases y s with
      | ok a t => exact (hfg a).same_or_tooDeep t
      | error e t => exact .inl rfl
    · rw [hx]
      refine .inr ⟨s', rfl, ?_⟩
      cases hy : y s with
      | ok a t =>
        rw [hy] at hkept
        exact Remembers.trans s' t _ hkept ((hfg a).remembers t)
      | error e t =>
        rw [hy] at hkept
        exact hkept

/-- Sequences that begin with the same step. -/
lemma bind_refl (h : Moves Remembers x) (hfg : ∀ a, CutShort limit (f a) (g a)) :
    CutShort limit (x >>= f) (x >>= g) :=
  (refl h).bind hfg

/-- What follows a condition that both check. -/
lemma guarded (b : Bool) (e : Error) (hxy : CutShort limit x y) :
    CutShort limit (if b = true then x else (throw e : Reader Expr Unit) >>= fun _ => x)
      (if b = true then y else (throw e : Reader Expr Unit) >>= fun _ => y) := by
  cases b with
  | true => exact hxy
  | false => exact .bind_refl (.throw Remembers.refl e) fun _ => hxy

end CutShort

/-! ## Readers that are the same for every allowance -/

/-- To scan is to forget nothing. -/
lemma remembers_scan (step : Cursor → β × Cursor) : Moves Remembers (Reader.scan step) :=
  fun s => Remembers.refl s

/-- To scan with failures is to forget nothing. -/
lemma remembers_scanExcept (step : Cursor → Except Error β × Cursor) :
    Moves Remembers (Reader.scanExcept step) := by
  intro s
  unfold Reader.scanExcept
  split <;> exact Remembers.refl s

/-- To fail is to forget nothing. -/
lemma remembers_throw (e : Error) : Moves Remembers (throw e : Reader Expr β) :=
  .throw Remembers.refl e

/-- To mark the results is to forget nothing. -/
lemma remembers_mark : Moves Remembers Reader.mark := Remembers.refl

/-- To look at the progress is to forget nothing. -/
lemma remembers_get : Moves Remembers (get : Reader Expr (Progress Expr)) := Remembers.refl

/-- Closing a parenthesis forgets nothing. -/
lemma remembers_closeGroup (opening : ℕ) : Moves Remembers (Reader.closeGroup opening) := by
  rintro ⟨c, done⟩
  rw [Reader.closeGroup_apply]
  split <;> exact Remembers.refl _

/-- Reading a mark forgets nothing. -/
lemma remembers_expect {ch : Char} (h : Cursor.IsMark ch) :
    Moves Remembers (Reader.expect ch : Reader Expr Unit) := by
  rintro ⟨c, done⟩
  rw [Reader.expect_apply h]
  split <;> exact Remembers.refl _

/-- A new result leaves the others. -/
lemma remembers_push (e : Expr) : Moves Remembers (Reader.push e) := fun s =>
  List.subset_append_right e.names (s.done.flatMap names)

/-- Replacing results forgets no name if the new result mentions all names of its parts. -/
lemma remembers_reduceSince {build : List Expr → Option Expr} (start : ℕ)
    (otherwise : List Expr → Error)
    (h : ∀ parts e, build parts = some e → e.names = parts.flatMap names) :
    Moves Remembers (Reader.reduceSince start build otherwise) := by
  intro s
  unfold Reader.reduceSince
  split
  · rename_i e hbuild
    have hparts := h _ _ hbuild
    intro name hname
    have hsplit := List.take_append_drop (s.done.length - start) s.done
    rw [← hsplit, List.flatMap_append, List.mem_append] at hname
    refine List.mem_append.2 (hname.imp_left fun hnew => ?_)
    rw [hparts]
    obtain ⟨part, hpart, hname⟩ := List.mem_flatMap.1 hnew
    exact List.mem_flatMap.2 ⟨part, List.mem_reverse.2 hpart, hname⟩
  · exact Remembers.refl s

/-- What is built mentions the variables of its parts, in their order. -/
lemma names_of_build? {m : Meaning} (args : List Expr) (e : Expr) (h : m.build? args = some e) :
    e.names = args.flatMap names := by
  unfold Meaning.build? at h
  split at h
  · cases h
    rfl
  · cases h
    simp [names]
  · cases h
    simp [names]
  · cases h

/-- A choice mentions the names of its three parts. -/
lemma names_of_choice? (args : List Expr) (e : Expr) (h : choice? args = some e) :
    e.names = args.flatMap names := by
  unfold choice? at h
  split at h
  · cases h
    simp [names]
  · cases h

/-- Applying a built-in forgets no name. -/
lemma remembers_apply (name : String) (m : Meaning) (start : ℕ) :
    Moves Remembers (apply name m start) :=
  remembers_reduceSince start _ names_of_build?

/-! ## Readers of the grammar -/

section

variable {limit : ℕ} {operand operand' branch branch' inner inner' group group' tighter tighter' :
  Reader Expr Unit}

/-- The pairs of a level are cut short if the next tighter level is. -/
lemma cutShort_pairs (operators : List (Spelling × BinaryOp)) (h : CutShort limit tighter tighter')
    (start turns : ℕ) :
    CutShort limit ((grammar operand).pairs operators tighter start turns)
      ((grammar operand').pairs operators tighter' start turns) := by
  induction turns with
  | zero => exact .refl (.pure Remembers.refl ())
  | succ turns ih =>
    refine .bind_refl (remembers_scan _) fun f => ?_
    cases f with
    | none => exact .refl (.pure Remembers.refl ())
    | some f => exact h.bind fun _ => .bind_refl (remembers_apply _ _ _) fun _ => ih

/-- All levels are cut short if the operands are. -/
lemma cutShort_climb (h : CutShort limit operand operand') (turns : ℕ) (levels : Levels) :
    CutShort limit ((grammar operand).climb turns levels)
      ((grammar operand').climb turns levels) := by
  induction levels with
  | nil => exact h
  | cons operators levels ih =>
    exact .bind_refl remembers_mark fun start => ih.bind fun _ =>
      cutShort_pairs operators ih start turns

/-- Expressions are cut short if their operands and branches are. -/
lemma cutShort_expressionWith (hoperand : CutShort limit operand operand')
    (hbranch : CutShort limit branch branch') :
    CutShort limit (expressionWith operand branch) (expressionWith operand' branch') := by
  have hphrase : CutShort limit (grammar operand).phrase (grammar operand').phrase :=
    .bind_refl remembers_get fun s => cutShort_climb hoperand s.cursor.rest.length _
  refine .bind_refl remembers_mark fun start => hphrase.bind fun _ =>
    .bind_refl (remembers_scan _) fun isChoice => ?_
  cases isChoice with
  | true =>
    exact hbranch.bind fun _ => .bind_refl (remembers_expect isMark_colon) fun _ =>
      hbranch.bind fun _ =>
      .refl (remembers_reduceSince start _ names_of_choice?)
  | false => exact .refl (.pure Remembers.refl ())

/-- The arguments of a call are cut short if a group is. -/
lemma cutShort_arguments (hgroup : CutShort limit group group') (opening turns : ℕ) :
    CutShort limit (arguments group opening turns) (arguments group' opening turns) := by
  induction turns with
  | zero => exact .refl (.pure Remembers.refl ())
  | succ turns ih =>
    refine hgroup.bind fun _ => .bind_refl (remembers_scan _) fun isMore => ?_
    cases isMore with
    | true => exact ih
    | false => exact .refl (remembers_closeGroup opening)

/-- A call is cut short if its arguments are. -/
lemma cutShort_call (hgroup : CutShort limit group group') (function : Builtin) (position : ℕ) :
    CutShort limit (call group function position) (call group' function position) := by
  refine .bind_refl (remembers_scan _) fun opening => .bind_refl (remembers_scan _) fun isOpen => ?_
  refine .guarded isOpen _ (.bind_refl remembers_mark fun start =>
    .bind_refl (remembers_scan _) fun isClosed => ?_)
  cases isClosed with
  | true => exact .refl (remembers_apply _ _ _)
  | false =>
    exact .bind_refl remembers_get fun s => (cutShort_arguments hgroup _ _).bind fun _ =>
      .refl (remembers_apply _ _ _)

/-- What a name stands for is cut short if a group is. -/
lemma cutShort_named (hgroup : CutShort limit group group') (name : String) (position : ℕ) :
    CutShort limit (named group name position) (named group' name position) := by
  unfold named
  split
  · exact .refl (remembers_push _)
  · exact .refl (remembers_push _)
  · exact cutShort_call hgroup _ position

/-- Primaries are cut short if a group is. -/
lemma cutShort_primary (hgroup : CutShort limit group group') :
    CutShort limit (primary group) (primary group') := by
  refine .bind_refl (remembers_scan _) fun position => .bind_refl (remembers_scanExcept _)
    fun number => ?_
  cases number with
  | some x => exact .refl (remembers_push _)
  | none =>
    refine .bind_refl (remembers_scan _) fun isGroup => ?_
    cases isGroup with
    | true => exact hgroup.bind fun _ => .refl (remembers_closeGroup position)
    | false =>
      refine .bind_refl (remembers_scan _) fun name => ?_
      cases name with
      | some name => exact cutShort_named hgroup name position
      | none => exact .refl (remembers_scanExcept _)

/-- Operands are cut short if those behind a sign and the groups are. -/
lemma cutShort_operandWith (hinner : CutShort limit inner inner')
    (hgroup : CutShort limit group group') :
    CutShort limit (operandWith inner group) (operandWith inner' group') := by
  refine .bind_refl (remembers_scan _) fun next => ?_
  cases next.bind fun c => signs.lookup c with
  | none => exact cutShort_primary hgroup
  | some sign =>
    refine .bind_refl remembers_mark fun start => .bind_refl (remembers_scan _) fun _ =>
      hinner.bind fun _ => ?_
    cases sign with
    | none => exact .refl (.pure Remembers.refl ())
    | some f => exact .refl (remembers_apply _ _ _)

/-- What a reader with a smaller allowance does. -/
theorem cutShort_reader (limit limit' : ℕ) {n n' : ℕ} (h : n ≤ n') (phrase : Phrase) :
    CutShort limit (reader limit n phrase) (reader limit' n' phrase) := by
  induction n' generalizing n phrase with
  | zero =>
    obtain rfl : n = 0 := Nat.le_zero.1 h
    have hnone : CutShort limit (throw (.nestingTooDeep limit) : Reader Expr Unit)
        (throw (.nestingTooDeep limit')) := .tooDeep (remembers_throw _)
    cases phrase with
    | expression => exact hnone
    | operand => exact cutShort_operandWith hnone hnone
  | succ n' ih =>
    cases n with
    | zero =>
      -- Whatever the other reader opens, this one fails to.
      have hoperand := (ih (Nat.zero_le n') .operand).remembers
      have hwhole := (cutShort_expressionWith (ih (Nat.zero_le n') .operand)
        (ih (Nat.zero_le n') .expression)).remembers
      cases phrase with
      | expression => exact .tooDeep hwhole
      | operand => exact cutShort_operandWith (.tooDeep hoperand) (.tooDeep hwhole)
    | succ n =>
      have hle : n ≤ n' := Nat.le_of_succ_le_succ h
      have hexpression := cutShort_expressionWith (ih hle .operand) (ih hle .expression)
      cases phrase with
      | expression => exact hexpression
      | operand => exact cutShort_operandWith (ih hle .operand) hexpression

end

/-! ## Sentences that are nested too deep -/

/-- A sentence that is nested deeper than the limit is not read, and what is left behind mentions no
other names. -/
lemma exists_read_of_limit_lt {source : String} {t : Tree} {limit : ℕ} (h : Sentence source t)
    (hlt : limit < t.nesting) : ∃ s, read limit ⟨Cursor.ofString source, []⟩ =
      .error (.nestingTooDeep limit) s ∧ s.done.flatMap names ⊆ t.expr.names := by
  obtain ⟨c, hread, hend⟩ := exists_read_of_sentence h (Nat.le_refl t.nesting)
  have hcut := cutShort_reader limit t.nesting (Nat.le_of_lt hlt) .expression
  rcases hcut.same_or_tooDeep ⟨Cursor.ofString source, []⟩ with hsame | ⟨s, herror, hkept⟩
  · -- A reader with this limit does not read a sentence that is nested deeper.
    exfalso
    obtain ⟨u, hnesting, -, hsentence⟩ := sentence_of_read (hsame.trans hread)
    obtain rfl := (hsentence hend).unique h
    exact absurd hnesting (Nat.not_le.2 hlt)
  · refine ⟨s, herror, ?_⟩
    have hread' : reader t.nesting t.nesting .expression ⟨Cursor.ofString source, []⟩ =
      .ok () ⟨c, [t.expr]⟩ := hread
    rw [hread', Remembers, final] at hkept
    simpa using hkept

end Reckon.Expr
