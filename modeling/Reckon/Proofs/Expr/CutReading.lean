import Reckon.Proofs.Expr.Cut
import Reckon.Proofs.Expr.Reading
import Reckon.Proofs.Expr.Resemblance

/-!
# Reading up to a semicolon

An expression is read and compiled alike in a text that is cut off at a semicolon and in the text
that goes on there: both attempts fail or both stop at the same place, and what they have done up to
then is the same (`Expr.readsAlike_reader`, `Expr.alike_compileAt`).  Only what the errors say about
places is different.

The readers are given more turns in the longer text.  So `Progress.Cut` also bounds what is left in
both texts, and a loop runs alike on both sides as long as its turns exceed these bounds.
-/

namespace Reckon

open Outcome

/-- Whether a progress in a text that is cut off stands for one in a text that goes on: the cursors
see the same up to the cut, with at most `n` and `m` characters left, and the results resemble each
other. -/
structure Progress.Cut (tail : List Char) (n m : ℕ) (s t : Progress Expr) : Prop where
  cursor : Cursor.Cut tail s.cursor t.cursor
  left_le : s.cursor.rest.length ≤ n
  right_le : t.cursor.rest.length ≤ m
  done : List.Forall₂ Expr.Resembles s.done t.done

namespace Progress.Cut

variable {tail : List Char} {n m n' m' : ℕ} {s t : Progress Expr} {c d : Cursor}
  {done done' : List Expr} {token : Token}

/-- The bounds of what is left may be raised. -/
lemma mono (h : Cut tail n m s t) (hn : n ≤ n') (hm : m ≤ m') : Cut tail n' m' s t :=
  ⟨h.cursor, h.left_le.trans hn, h.right_le.trans hm, h.done⟩

/-- The bounds of what is left may be given too high by one. -/
lemma weaken (h : Cut tail (n - 1) (m - 1) s t) : Cut tail n m s t :=
  h.mono (Nat.sub_le n 1) (Nat.sub_le m 1)

/-- The bounds can be taken from what is left. -/
lemma tight (h : Cut tail n m s t) : Cut tail s.cursor.rest.length t.cursor.rest.length s t :=
  ⟨h.cursor, le_rfl, le_rfl, h.done⟩

/-- Both texts show the same token. -/
lemma token?_eq (htail : IsCutOff tail) (h : Cut tail n m s t) :
    t.cursor.token? = s.cursor.token? :=
  h.cursor.token?_eq htail

/-- Blanks may be skipped in both texts. -/
lemma skipBlanks (h : Cut tail n m ⟨c, done⟩ ⟨d, done'⟩) :
    Cut tail n m ⟨c.skipBlanks, done⟩ ⟨d.skipBlanks, done'⟩ :=
  ⟨h.cursor.skipBlanks, c.length_skipBlanks_le.trans h.left_le,
    d.length_skipBlanks_le.trans h.right_le, h.done⟩

/-- A token that is passed on both sides leaves less. -/
lemma past (htail : IsCutOff tail) (h : Cut tail n m ⟨c, done⟩ ⟨d, done'⟩)
    (htoken : c.token? = some token) :
    Cut tail (n - 1) (m - 1) ⟨c.past token, done⟩ ⟨d.past token, done'⟩ := by
  have htoken' : d.token? = some token := (h.token?_eq htail).trans htoken
  have hleft := Cursor.length_past_lt htoken
  have hright := Cursor.length_past_lt htoken'
  have hn : c.rest.length ≤ n := h.left_le
  have hm : d.rest.length ≤ m := h.right_le
  refine ⟨h.cursor.past htail htoken, ?_, ?_, h.done⟩
  · dsimp only
    omega
  · dsimp only
    omega

/-- Expressions that resemble each other may be added to both results. -/
lemma push (h : Cut tail n m ⟨c, done⟩ ⟨d, done'⟩) {e e' : Expr} (he : e.Resembles e') :
    Cut tail n m ⟨c, e :: done⟩ ⟨d, e' :: done'⟩ :=
  ⟨h.cursor, h.left_le, h.right_le, .cons he h.done⟩

end Progress.Cut

/-- Whether two readers do the same in a text that is cut off and in the text that goes on. -/
def ReadsAlike (tail : List Char) (x y : Reader Expr Unit) : Prop :=
  ∀ n m, Alike (Progress.Cut tail n m) Eq x y

namespace Expr

open Progress (Cut)

variable {tail : List Char} {n m turns turns' : ℕ} {operand branch inner group : Reader Expr Unit}
  {tighter tighter' : Reader Expr Unit} {operators : List (Spelling × BinaryOp)} {c d : Cursor}
  {done done' : List Expr}

/-! ## Steps -/

/-- To mark the results is the same in both texts. -/
lemma alike_mark : Alike (Cut tail n m) Eq (Reader.mark : Reader Expr ℕ) Reader.mark :=
  fun _ _ h => .ok h.done.length_eq h

/-- Results are replaced alike if what they are built into depends only on what they resemble. -/
lemma readsAlike_reduceSince {build : List Expr → Option Expr}
    (hbuild : ∀ args args', List.Forall₂ Resembles args args' →
      Option.Rel Resembles (build args) (build args'))
    (start : ℕ) (otherwise : List Expr → Error) :
    ReadsAlike tail (Reader.reduceSince start build otherwise)
      (Reader.reduceSince start build otherwise) := by
  intro n m s t h
  have hlength : s.done.length = t.done.length := h.done.length_eq
  have hsince : List.Forall₂ Resembles (s.since start) (t.since start) := by
    rw [Progress.since, Progress.since, hlength]
    exact List.rel_reverse (List.forall₂_take _ h.done)
  have hbuilt := hbuild _ _ hsince
  unfold Reader.reduceSince
  generalize build (s.since start) = r at hbuilt ⊢
  generalize build (t.since start) = r' at hbuilt ⊢
  rcases hbuilt with he | _
  · refine .ok rfl ⟨h.cursor, h.left_le, h.right_le, .cons he ?_⟩
    rw [hlength]
    exact List.forall₂_drop _ h.done
  · exact .error h

/-- A built-in is applied alike in both texts. -/
lemma readsAlike_apply (name : String) (meaning : Meaning) (start : ℕ) :
    ReadsAlike tail (apply name meaning start) (apply name meaning start) :=
  readsAlike_reduceSince (fun _ _ => meaning.rel_build?) start _

/-- Closing a parenthesis is the same in both texts. -/
lemma readsAlike_closeGroup (htail : IsCutOff tail) (opening opening' : ℕ) :
    ReadsAlike tail (Reader.closeGroup opening) (Reader.closeGroup opening') := by
  rintro n m ⟨c, done⟩ ⟨d, done'⟩ h
  rw [Reader.closeGroup_apply, Reader.closeGroup_apply, h.token?_eq htail]
  split
  · rename_i htoken
    exact .ok rfl (h.past htail htoken).weaken
  · exact .error h.skipBlanks

/-- Reading a mark is the same in both texts. -/
lemma readsAlike_expect (htail : IsCutOff tail) {ch : Char} (hch : Cursor.IsMark ch) :
    ReadsAlike tail (Reader.expect ch) (Reader.expect ch) := by
  rintro n m ⟨c, done⟩ ⟨d, done'⟩ h
  rw [Reader.expect_apply hch, Reader.expect_apply hch, h.token?_eq htail]
  split
  · rename_i htoken
    exact .ok rfl (h.past htail htoken).weaken
  · exact .error h.skipBlanks

/-! ## Phrases of binary operators -/

/-- At the end no operator is read, with turns or without. -/
lemma exists_pairs_of_token?_eq_none (operand tighter : Reader Expr Unit)
    (h : ∀ candidate ∈ operators, candidate.1 ∈ binaryOperators.vocabulary) (start turns : ℕ)
    (htoken : c.token? = none) (done : List Expr) :
    ∃ c' : Cursor, c'.skipBlanks = c.skipBlanks ∧ c'.rest.length ≤ c.rest.length ∧
      (grammar operand).pairs operators tighter start turns ⟨c, done⟩ = .ok () ⟨c', done⟩ := by
  cases turns with
  | zero => exact ⟨c, rfl, le_rfl, rfl⟩
  | succ turns =>
    refine ⟨c.skipBlanks, c.skipBlanks_skipBlanks, c.length_skipBlanks_le, ?_⟩
    rw [pairs_succ operand h, htoken]

/-- Where both texts are at their end, no operator is found in either. -/
lemma agrees_pairs_of_token?_eq_none (htail : IsCutOff tail)
    (h : ∀ candidate ∈ operators, candidate.1 ∈ binaryOperators.vocabulary) (start turns turns' : ℕ)
    (hcut : Cut tail n m ⟨c, done⟩ ⟨d, done'⟩) (htoken : c.token? = none) :
    Agrees (Cut tail n m) Eq ((grammar operand).pairs operators tighter start turns ⟨c, done⟩)
      ((grammar operand).pairs operators tighter' start turns' ⟨d, done'⟩) := by
  have htoken' : d.token? = none := (hcut.token?_eq htail).trans htoken
  obtain ⟨c', hc, hlength, hpairs⟩ :=
    exists_pairs_of_token?_eq_none operand tighter h start turns htoken done
  obtain ⟨d', hd, hlength', hpairs'⟩ :=
    exists_pairs_of_token?_eq_none operand tighter' h start turns' htoken' done'
  rw [hpairs, hpairs']
  exact .ok rfl ⟨hcut.cursor.congr hc hd, hlength.trans hcut.left_le,
    hlength'.trans hcut.right_le, hcut.done⟩

/-- The pairs of a level are read alike if the next tighter level is. -/
lemma alike_pairs (htail : IsCutOff tail)
    (h : ∀ candidate ∈ operators, candidate.1 ∈ binaryOperators.vocabulary) (start : ℕ)
    (hn : n ≤ turns) (hm : m ≤ turns')
    (htighter : ∀ n' m', n' ≤ n → m' ≤ m → Alike (Cut tail n' m') Eq tighter tighter') :
    Alike (Cut tail n m) Eq ((grammar operand).pairs operators tighter start turns)
      ((grammar operand).pairs operators tighter' start turns') := by
  induction turns generalizing turns' n m with
  | zero =>
    rintro ⟨c, done⟩ ⟨d, done'⟩ hcut
    have htoken : c.token? = none := Cursor.token?_of_length_le_zero (hcut.left_le.trans hn)
    exact agrees_pairs_of_token?_eq_none htail h start _ _ hcut htoken
  | succ turns ih =>
    rintro ⟨c, done⟩ ⟨d, done'⟩ hcut
    rcases turns' with _ | turns'
    · have htoken : d.token? = none := Cursor.token?_of_length_le_zero (hcut.right_le.trans hm)
      exact agrees_pairs_of_token?_eq_none htail h start _ _ hcut
        ((hcut.token?_eq htail).symm.trans htoken)
    · rw [pairs_succ operand h, pairs_succ operand h, hcut.token?_eq htail]
      dsimp only
      split
      · rename_i spelling htoken
        split
        · exact .ok rfl hcut.skipBlanks
        · rename_i candidate _
          have hrest : Alike (Cut tail (n - 1) (m - 1)) Eq
              (do
                tighter
                apply candidate.2.mnemonic (.binary candidate.2) start
                (grammar operand).pairs operators tighter start turns)
              (do
                tighter'
                apply candidate.2.mnemonic (.binary candidate.2) start
                (grammar operand).pairs operators tighter' start turns') :=
            .bind_of_eq (htighter _ _ (Nat.sub_le n 1) (Nat.sub_le m 1)) fun _ =>
              .bind_of_eq (readsAlike_apply _ _ start _ _) fun _ =>
                ih (by omega) (by omega) fun n' m' hn' hm' =>
                  htighter n' m' (hn'.trans (Nat.sub_le n 1)) (hm'.trans (Nat.sub_le m 1))
          exact (hrest _ _ (hcut.past htail htoken)).mono fun _ _ => Cut.weaken
      · exact .ok rfl hcut.skipBlanks

/-- All levels are read alike if the operands are. -/
lemma alike_climb (htail : IsCutOff tail) {levels : List (List (Spelling × BinaryOp))}
    (h : ∀ operators ∈ levels, ∀ candidate ∈ operators, candidate.1 ∈ binaryOperators.vocabulary)
    (hoperand : ReadsAlike tail operand operand) (hn : n ≤ turns) (hm : m ≤ turns') :
    Alike (Cut tail n m) Eq ((grammar operand).climb turns levels)
      ((grammar operand).climb turns' levels) := by
  induction levels generalizing n m with
  | nil => exact hoperand n m
  | cons operators levels ih =>
    have hlevels := List.forall_mem_cons.1 h
    refine .bind_of_eq alike_mark fun start => .bind_of_eq (ih hlevels.2 hn hm) fun _ => ?_
    exact alike_pairs htail hlevels.1 start hn hm fun n' m' hn' hm' =>
      ih hlevels.2 (hn'.trans hn) (hm'.trans hm)

/-! ## Expressions and operands -/

/-- Expressions are read alike if their operands and branches are. -/
lemma readsAlike_expressionWith (htail : IsCutOff tail) (hoperand : ReadsAlike tail operand operand)
    (hbranch : ReadsAlike tail branch branch) :
    ReadsAlike tail (expressionWith operand branch) (expressionWith operand branch) := by
  intro n m s t h
  have htest := alike_climb htail mem_vocabulary_of_mem_levels hoperand le_rfl le_rfl _ _ h.tight
  rw [expressionWith_apply, expressionWith_apply, ← h.done.length_eq]
  generalize (grammar operand).climb s.cursor.rest.length binaryOperators.levels s = r at htest ⊢
  generalize (grammar operand).climb t.cursor.rest.length binaryOperators.levels t = r' at htest ⊢
  refine Agrees.mono (R := Cut tail s.cursor.rest.length t.cursor.rest.length) ?_ fun _ _ hcut =>
    hcut.mono h.left_le h.right_le
  rcases htest with ⟨-, hcut⟩ | hcut
  · dsimp only
    rw [hcut.token?_eq htail]
    split
    · rename_i htoken
      have hbranches : ReadsAlike tail
          (do
            branch
            Reader.expect ':'
            branch
            Reader.reduceSince s.done.length choice? fun found =>
              .argumentCount "?:" 3 found.length)
          (do
            branch
            Reader.expect ':'
            branch
            Reader.reduceSince s.done.length choice? fun found =>
              .argumentCount "?:" 3 found.length) :=
        fun _ _ => .bind_of_eq (hbranch _ _) fun _ =>
          .bind_of_eq (readsAlike_expect htail isMark_colon _ _) fun _ =>
            .bind_of_eq (hbranch _ _) fun _ =>
              readsAlike_reduceSince (fun _ _ => rel_choice?) _ _ _ _
      exact (hbranches _ _ _ _ (hcut.past htail htoken)).mono fun _ _ => Cut.weaken
    · exact .ok rfl hcut.skipBlanks
  · exact .error hcut

/-- The arguments of a call are read alike if a group is. -/
lemma alike_arguments (htail : IsCutOff tail) (hgroup : ReadsAlike tail group group)
    (opening opening' : ℕ) (hn : n < turns) (hm : m < turns') :
    Alike (Cut tail n m) Eq (arguments group opening turns) (arguments group opening' turns') := by
  induction turns generalizing turns' n m with
  | zero => exact absurd hn (Nat.not_lt_zero n)
  | succ turns ih =>
    obtain ⟨turns', rfl⟩ : ∃ k, turns' = k + 1 := ⟨turns' - 1, by omega⟩
    intro s t h
    have hfirst := hgroup n m s t h
    rw [arguments_succ, arguments_succ]
    generalize group s = r at hfirst ⊢
    generalize group t = r' at hfirst ⊢
    rcases hfirst with ⟨-, hcut⟩ | hcut
    · dsimp only
      rw [hcut.token?_eq htail]
      split
      · rename_i hcomma
        -- The comma takes a character, which pays for the turn.
        have hleft := Cursor.length_past_lt hcomma
        have hright := Cursor.length_past_lt ((hcut.token?_eq htail).trans hcomma)
        have hn' := hcut.left_le
        have hm' := hcut.right_le
        exact (ih (by omega) (by omega) _ _ (hcut.past htail hcomma)).mono fun _ _ => Cut.weaken
      · exact readsAlike_closeGroup htail opening opening' _ _ _ _ hcut.skipBlanks
    · exact .error hcut

/-- A call is read alike if its arguments are. -/
lemma readsAlike_call (htail : IsCutOff tail) (hgroup : ReadsAlike tail group group)
    (function : Builtin) (position position' : ℕ) :
    ReadsAlike tail (call group function position) (call group function position') := by
  rintro n m ⟨c, done⟩ ⟨d, done'⟩ h
  have hlength : done.length = done'.length := h.done.length_eq
  have htoken : d.token? = c.token? := h.token?_eq htail
  rw [call_apply, call_apply, htoken, hlength]
  split
  · rename_i hopen
    have hinside := h.past htail hopen
    have hnext : (d.past (.symbol ['('])).token? = (c.past (.symbol ['('])).token? :=
      hinside.token?_eq htail
    rw [hnext]
    refine Agrees.mono (R := Cut tail (n - 1) (m - 1)) ?_ fun _ _ => Cut.weaken
    split
    · rename_i hclose
      exact (readsAlike_apply _ _ _ _ _ _ _ (hinside.past htail hclose)).mono fun _ _ => Cut.weaken
    · have hcut := hinside.skipBlanks
      have harguments := alike_arguments htail hgroup c.skipBlanks.offset d.skipBlanks.offset
        (Nat.lt_succ_self (c.past (.symbol ['('])).skipBlanks.rest.length)
        (Nat.lt_succ_self (d.past (.symbol ['('])).skipBlanks.rest.length)
      have hrest := Alike.bind_of_eq harguments fun _ =>
        readsAlike_apply function.name function.meaning done'.length _ _
      exact (hrest _ _ hcut.tight).mono fun _ _ hdone => hdone.mono hcut.left_le hcut.right_le
  · exact .error h.skipBlanks

/-- What a name stands for is read alike if a group is. -/
lemma readsAlike_named (htail : IsCutOff tail) (hgroup : ReadsAlike tail group group)
    (name : String) (position position' : ℕ) :
    ReadsAlike tail (named group name position) (named group name position') := by
  intro n m
  unfold named
  rcases Builtin.lookup name with _ | ⟨functionName, meaning⟩
  · exact fun s t h => .ok rfl (h.push (.var name position position'))
  · cases meaning with
    | constant constant => exact fun s t h => .ok rfl (h.push (.constant constant))
    | unary | binary => exact readsAlike_call htail hgroup _ position position' n m

/-- Primaries are read alike if a group is. -/
lemma readsAlike_primary (htail : IsCutOff tail) (hgroup : ReadsAlike tail group group) :
    ReadsAlike tail (primary group) (primary group) := by
  rintro n m ⟨c, done⟩ ⟨d, done'⟩ h
  have htoken : d.token? = c.token? := h.token?_eq htail
  rw [primary_apply, primary_apply, htoken]
  split
  · rename_i numeral htoken
    split
    · rename_i x _
      exact .ok rfl ((h.past htail htoken).push (.number x)).weaken
    · exact .error h.skipBlanks
  · rename_i name htoken
    exact (readsAlike_named htail hgroup name _ _ _ _ _ _ (h.past htail htoken)).mono fun _ _ =>
      Cut.weaken
  · rename_i htoken
    have hrest := Alike.bind_of_eq (hgroup (n - 1) (m - 1)) fun _ =>
      readsAlike_closeGroup htail c.skipBlanks.offset d.skipBlanks.offset _ _
    exact (hrest _ _ (h.past htail htoken)).mono fun _ _ => Cut.weaken
  · exact .error h.skipBlanks

/-- Operands are read alike if those behind a sign and the groups are. -/
lemma readsAlike_operandWith (htail : IsCutOff tail) (hinner : ReadsAlike tail inner inner)
    (hgroup : ReadsAlike tail group group) :
    ReadsAlike tail (operandWith inner group) (operandWith inner group) := by
  rintro n m ⟨c, done⟩ ⟨d, done'⟩ h
  have hlength : done.length = done'.length := h.done.length_eq
  have htoken : d.token? = c.token? := h.token?_eq htail
  rw [operandWith_apply, operandWith_apply, htoken, hlength]
  split
  · exact readsAlike_primary htail hgroup _ _ _ _ h.skipBlanks
  · rename_i sign hsign
    obtain ⟨token, htoken', -⟩ := Option.bind_eq_some_iff.1 hsign
    have hfirst := Cursor.token?_eq_some_iff.1 htoken'
    have hpos : 1 ≤ c.skipBlanks.rest.length :=
      hfirst.1.length_pos.trans_le hfirst.1.2.length_le
    have hcut : Cut tail n m ⟨c.skipBlanks.skip 1, done⟩ ⟨d.skipBlanks.skip 1, done'⟩ :=
      ⟨h.cursor.skip htail hpos, (Cursor.length_skip_le _ 1).trans h.skipBlanks.left_le,
        (Cursor.length_skip_le _ 1).trans h.skipBlanks.right_le, h.done⟩
    refine Alike.bind_of_eq (hinner n m) (fun _ => ?_) _ _ hcut
    cases sign with
    | none => exact .pure rfl
    | some f => exact readsAlike_apply _ _ _ _ _

/-- Every reader of expressions does the same before the cut. -/
theorem readsAlike_reader (htail : IsCutOff tail) (limit n : ℕ) :
    ReadsAlike tail (reader limit n .expression) (reader limit n .expression) ∧
      ReadsAlike tail (reader limit n .operand) (reader limit n .operand) := by
  have hthrow : ∀ e, ReadsAlike tail (throw e) (throw e) := fun e _ _ => .throw e e
  induction n with
  | zero => exact ⟨hthrow _, readsAlike_operandWith htail (hthrow _) (hthrow _)⟩
  | succ n ih =>
    have hexpression : ReadsAlike tail (reader limit (n + 1) .expression)
        (reader limit (n + 1) .expression) :=
      readsAlike_expressionWith htail ih.2 ih.1
    exact ⟨hexpression, readsAlike_operandWith htail ih.2 hexpression⟩

/-! ## Compilations -/

/-- The expression at a cursor is compiled alike, and what follows it is found at the same place. -/
theorem alike_compileAt (htail : IsCutOff tail) (o : CompileOptions) (h : Cursor.Cut tail c d) :
    Alike Eq (Cursor.Cut tail) (compileAt o c) (compileAt o d) := by
  refine Compilation.alike_clearingOnError (.bind_of_eq .refl fun _ => ?_)
  have hread := (readsAlike_reader htail o.nestingLimit o.nestingLimit).1 _ _ ⟨c, []⟩ ⟨d, []⟩
    ⟨h, le_rfl, le_rfl, .nil⟩
  unfold read
  generalize reader o.nestingLimit o.nestingLimit .expression ⟨c, []⟩ = r at hread ⊢
  generalize reader o.nestingLimit o.nestingLimit .expression ⟨d, []⟩ = r' at hread ⊢
  rcases hread with ⟨-, hcut⟩ | hcut
  · exact .bind_of_eq (alike_emitAll o hcut.done) fun _ => .bind_of_eq .refl fun _ =>
      .pure hcut.cursor
  · exact .bind_of_eq (alike_emitAll o hcut.done) fun _ => .throw _ _

end Expr

end Reckon
