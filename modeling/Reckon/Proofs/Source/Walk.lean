import Reckon.Proofs.Outcome
import Reckon.Proofs.Source.Position
import Reckon.Proofs.Source.Progress
import Reckon.Source.Precedence

/-!
# Where readers look

A reader walks through a text if each of its accesses to the source begins and ends at a cursor that
stands in the text, and has the result there that a scan of the bytes has: one that never cuts a
character or goes past the end (`Reader.Walks`).  This is followed through the steps that make up
the reader, of which every access is one.

What is to be shown of a reader at one place usually depends on what it has seen on the way there.
So a run is judged as a whole (`Reader.Runs`): it walks through the text, it leaves a progress that
is right, an error in which it ends points into the text, and otherwise its answer and its progress
are as claimed.  Such judgements are put together along sequences (`Reader.Runs.bind`).
-/

namespace Reckon

open Outcome

namespace Reader

variable {α β γ : Type}

/-- Whether each access that a reader makes from a progress on begins and ends in the text, and
succeeds if it is made byte by byte. -/
inductive Walks (text : List Char) : {β : Type} → Reader α β → Progress α → Prop
  | pure {β : Type} (b : β) (s : Progress α) : Walks text (pure b) s
  | throw {β : Type} (e : Error) (s : Progress α) : Walks text (throw e : Reader α β) s
  | get (s : Progress α) : s.cursor.StandsIn text → Walks text get s
  | mark (s : Progress α) : Walks text mark s
  | push (a : α) (s : Progress α) : Walks text (push a) s
  | reduceSince (start : ℕ) (build : List α → Option α) (otherwise : List α → Error)
      (s : Progress α) : Walks text (reduceSince start build otherwise) s
  | scan {β : Type} (bytes : Bytewise β) (step : Cursor → β × Cursor) (s : Progress α) :
      Cursor.Access bytes step → s.cursor.StandsIn text →
      bytes text s.cursor.offset = some ((step s.cursor).1, (step s.cursor).2.offset) →
      (step s.cursor).2.StandsIn text → Walks text (scan step) s
  | scanExcept {β : Type} (bytes : Bytewise (Except Error β))
      (step : Cursor → Except Error β × Cursor) (s : Progress α) :
      Cursor.Access bytes step → s.cursor.StandsIn text →
      bytes text s.cursor.offset = some ((step s.cursor).1, (step s.cursor).2.offset) →
      (step s.cursor).2.StandsIn text → Walks text (scanExcept step) s
  | bind {β γ : Type} {x : Reader α β} {f : β → Reader α γ} {s : Progress α} : Walks text x s →
      (∀ b s', x s = .ok b s' → Walks text (f b) s') → Walks text (x >>= f) s

end Reader

/-- Whether the cursor of a progress stands in the text, and all finished results are as they should
be. -/
structure Progress.IsIn {α : Type} (text : List Char) (P : α → Prop) (s : Progress α) : Prop where
  standsIn : s.cursor.StandsIn text
  of_mem : ∀ a ∈ s.done, P a

namespace Reader

variable {α β γ : Type} {text : List Char} {P : α → Prop} {s : Progress α}

/-- Whether a reader walks through the text from a progress on, keeps the progress right, fails with
errors that point into the text only, and succeeds with what is claimed only. -/
structure Runs (text : List Char) (P : α → Prop) (x : Reader α β) (s : Progress α)
    (Q : β → Progress α → Prop) : Prop where
  walks : Walks text x s
  ok : ∀ {b s'}, x s = .ok b s' → s'.IsIn text P ∧ Q b s'
  error : ∀ {e s'}, x s = .error e s' → s'.IsIn text P ∧ e.PointsInto text

/-- Whether a reader runs well from every progress that is right. -/
def Keeps (text : List Char) (P : α → Prop) (x : Reader α β) : Prop :=
  ∀ s, s.IsIn text P → Runs text P x s fun _ _ => True

namespace Runs

variable {x : Reader α β} {f : β → Reader α γ} {Q Q' : β → Progress α → Prop}
  {R : γ → Progress α → Prop}

/-- What holds in the end may be relaxed. -/
lemma mono (h : Runs text P x s Q) (hQ : ∀ b s', Q b s' → Q' b s') : Runs text P x s Q' :=
  { h with ok := fun hrun => ⟨(h.ok hrun).1, hQ _ _ (h.ok hrun).2⟩ }

/-- A sequence runs well if its first part does and the rest does behind it. -/
lemma bind (hx : Runs text P x s Q)
    (hf : ∀ b s', s'.IsIn text P → Q b s' → Runs text P (f b) s' R) :
    Runs text P (x >>= f) s R where
  walks := .bind hx.walks fun b s' hrun => (hf b s' (hx.ok hrun).1 (hx.ok hrun).2).walks
  ok hrun := by
    obtain ⟨b, s', hfirst, hrest⟩ := bind_eq_ok_iff.1 hrun
    exact (hf b s' (hx.ok hfirst).1 (hx.ok hfirst).2).ok hrest
  error hrun := by
    rcases bind_eq_error_iff.1 hrun with hfirst | ⟨b, s', hfirst, hrest⟩
    · exact hx.error hfirst
    · exact (hf b s' (hx.ok hfirst).1 (hx.ok hfirst).2).error hrest

/-! ## The single steps -/

variable (hs : s.IsIn text P)

include hs

lemma pure {b : β} (h : Q b s) : Runs text P (pure b) s Q where
  walks := .pure b s
  ok hrun := by
    obtain ⟨rfl, rfl⟩ := pure_eq_ok_iff.1 hrun
    exact ⟨hs, h⟩
  error hrun := absurd hrun pure_ne_error

/-- Errors that point into the text may be thrown. -/
protected lemma throw {e : Error} (h : e.PointsInto text) :
    Runs text P (throw e : Reader α β) s Q where
  walks := .throw e s
  ok := nofun
  error hrun := by
    cases hrun
    exact ⟨hs, h⟩

/-- Nothing follows a failure. -/
lemma throw_bind {e : Error} (h : e.PointsInto text) :
    Runs text P ((throw e : Reader α β) >>= f) s R :=
  have hthrow : Runs text P (throw e : Reader α β) s fun _ _ => False := Runs.throw hs h
  hthrow.bind fun _ _ _ hfalse => hfalse.elim

lemma get : Runs text P get s fun s₁ s' => s₁ = s ∧ s' = s where
  walks := .get s hs.standsIn
  ok hrun := by
    cases hrun
    exact ⟨hs, rfl, rfl⟩
  error := nofun

/-- To mark is to answer with the number of results. -/
lemma mark : Runs text P mark s fun start s' => start = s.done.length ∧ s' = s where
  walks := .mark s
  ok hrun := by
    cases hrun
    exact ⟨hs, rfl, rfl⟩
  error := nofun

/-- An item with the property can be added. -/
lemma push {a : α} (h : P a) : Runs text P (push a) s fun _ _ => True where
  walks := .push a s
  ok hrun := by
    cases hrun
    exact ⟨⟨hs.standsIn, List.forall_mem_cons.2 ⟨h, hs.of_mem⟩⟩, trivial⟩
  error := nofun

/-- Results are replaced by a right one, if it is made of right ones. -/
lemma reduceSince {build : List α → Option α} {otherwise : List α → Error} (start : ℕ)
    (hbuild : ∀ found a, build found = some a → (∀ b ∈ found, P b) → P a)
    (hotherwise : ∀ found, (otherwise found).PointsInto text) :
    Runs text P (reduceSince start build otherwise) s fun _ _ => True where
  walks := .reduceSince start build otherwise s
  ok hrun := by
    unfold Reader.reduceSince at hrun
    split at hrun
    · rename_i a hsome
      cases hrun
      have hsince : ∀ b ∈ s.since start, P b := fun b hb =>
        hs.of_mem b (List.mem_of_mem_take (List.mem_reverse.1 hb))
      have hrest : ∀ b ∈ s.done.drop (s.done.length - start), P b := fun b hb =>
        hs.of_mem b (List.mem_of_mem_drop hb)
      exact ⟨⟨hs.standsIn, List.forall_mem_cons.2 ⟨hbuild _ a hsome hsince, hrest⟩⟩, trivial⟩
    · cases hrun
  error hrun := by
    unfold Reader.reduceSince at hrun
    split at hrun
    · cases hrun
    · cases hrun
      exact ⟨hs, hotherwise _⟩

/-- An access answers with what it sees and moves the cursor. -/
lemma scan {bytes : Bytewise β} {step : Cursor → β × Cursor} (h : Cursor.Access bytes step) :
    Runs text P (scan step) s fun b s' =>
      b = (step s.cursor).1 ∧ s' = ⟨(step s.cursor).2, s.done⟩ where
  walks := .scan bytes step s h hs.standsIn (h.agrees text s.cursor hs.standsIn)
    (h.standsIn hs.standsIn)
  ok hrun := by
    cases hrun
    exact ⟨⟨h.standsIn hs.standsIn, hs.of_mem⟩, rfl, rfl⟩
  error := nofun

/-- An access that can fail has to point at what it fails at. -/
lemma scanExcept {bytes : Bytewise (Except Error β)} {step : Cursor → Except Error β × Cursor}
    (h : Cursor.Access bytes step)
    (herror : ∀ e, (step s.cursor).1 = .error e → e.PointsInto text) :
    Runs text P (scanExcept step) s fun b s' =>
      (step s.cursor).1 = .ok b ∧ s' = ⟨(step s.cursor).2, s.done⟩ where
  walks := .scanExcept bytes step s h hs.standsIn (h.agrees text s.cursor hs.standsIn)
    (h.standsIn hs.standsIn)
  ok hrun := by
    unfold Reader.scanExcept at hrun
    split at hrun
    · rename_i b c hstep
      cases hrun
      have hstands := h.standsIn hs.standsIn
      rw [hstep] at hstands
      exact ⟨⟨hstands, hs.of_mem⟩, congrArg Prod.fst hstep, by rw [hstep]⟩
    · cases hrun
  error {e s'} hrun := by
    unfold Reader.scanExcept at hrun
    split at hrun
    · cases hrun
    · rename_i e' c hstep
      cases hrun
      have he := herror e (congrArg Prod.fst hstep)
      have hstands := h.standsIn hs.standsIn
      rw [hstep] at hstands
      exact ⟨⟨hstands, hs.of_mem⟩, he⟩

/-! ## Accesses by name -/

/-- The position of a token is where the cursor stands behind the blanks. -/
lemma tokenPosition : Runs text P tokenPosition s fun position s' =>
    position = s.cursor.skipBlanks.offset ∧ s' = ⟨s.cursor.skipBlanks, s.done⟩ :=
  scan hs .position

/-- To peek is to skip blanks and to see what is behind them. -/
lemma peek : Runs text P peek s fun next s' =>
    next = s.cursor.peek ∧ s' = ⟨s.cursor.skipBlanks, s.done⟩ :=
  scan hs .peek

/-- To ask for the end is to skip blanks and to see whether anything is behind them. -/
lemma atEnd : Runs text P atEnd s fun isEnd s' =>
    isEnd = s.cursor.atEnd ∧ s' = ⟨s.cursor.skipBlanks, s.done⟩ :=
  scan hs .atEnd

/-- A character that is not the next one is left where it is. -/
lemma eat (expected : Char) : Runs text P (eat expected) s fun isThere s' =>
    if isThere then s.cursor.peek = some expected else s' = ⟨s.cursor.skipBlanks, s.done⟩ := by
  refine (scan hs (.mark expected)).mono ?_
  rintro isThere s' ⟨rfl, rfl⟩
  unfold Cursor.eat
  by_cases hpeek : s.cursor.peek = some expected
  · rw [if_pos hpeek]
    exact hpeek
  · rw [if_neg hpeek]
    rfl

/-- What is unexpected is the next character, or that there is none. -/
lemma pointsInto_unexpectedAt : (unexpectedAt s.cursor).PointsInto text := by
  have hstands := hs.standsIn.skipBlanks
  unfold unexpectedAt
  split
  · rename_i found hpeek
    exact Error.pointsInto_of_standsIn hstands rfl hpeek
  · rename_i hpeek
    exact Error.pointsInto_of_standsIn hstands rfl (List.head?_eq_none_iff.1 hpeek)

/-- What is unexpected stands in the text. -/
lemma unexpected : Runs text P (unexpected : Reader α β) s Q := by
  refine (scanExcept hs .unexpected fun e he => ?_).mono ?_
  · cases he
    exact pointsInto_unexpectedAt hs
  · rintro b s' ⟨hok, -⟩
    contradiction

/-- What is unexpected stands in the text, whatever was to follow. -/
lemma unexpected_bind : Runs text P ((Reader.unexpected : Reader α β) >>= f) s R :=
  have hfails : Runs text P (Reader.unexpected : Reader α β) s fun _ _ => False := unexpected hs
  hfails.bind fun _ _ _ hfalse => hfalse.elim

end Runs

namespace Keeps

/-- Whether the expected character stands there or not, the error points into the text. -/
lemma expect (expected : Char) : Keeps text P (expect expected : Reader α Unit) := by
  intro s hs
  refine (Runs.eat hs expected).bind fun isThere s' hs' _ => ?_
  cases isThere with
  | true => exact Runs.pure hs' trivial
  | false => exact Runs.unexpected hs'

/-- Where a group does not end, the error points at its parenthesis or at what stands in the place
of the other one. -/
lemma closeGroup {opening : ℕ} (hopening : (Error.unterminatedGroup opening).PointsInto text) :
    Keeps text P (closeGroup opening : Reader α Unit) := by
  intro s hs
  refine (Runs.eat hs ')').bind fun isThere s' hs' _ => ?_
  cases isThere with
  | true => exact Runs.pure hs' trivial
  | false =>
    refine (Runs.atEnd hs').bind fun isEnd s'' hs'' _ => ?_
    cases isEnd with
    | true => exact Runs.throw_bind hs'' hopening
    | false => exact Runs.unexpected hs''

end Keeps

end Reader

/-! ## Operator precedence -/

namespace Grammar

open Reader

variable {α Op : Type} {g : Grammar α Op} {text : List Char} {P : α → Prop}
  {tighter : Reader α Unit}

/-- Pairs of operators and operands stay in the text. -/
lemma keeps_pairs (hreduce : ∀ op start, Keeps text P (g.reduce op start))
    (htighter : Keeps text P tighter) (operators : List (Spelling × Op)) (start turns : ℕ) :
    Keeps text P (g.pairs operators tighter start turns) := by
  induction turns with
  | zero => exact fun s hs => Runs.pure hs trivial
  | succ turns ih =>
    intro s hs
    refine (Runs.scan hs (.operator _ operators)).bind fun op s' hs' _ => ?_
    cases op with
    | none => exact Runs.pure hs' trivial
    | some op =>
      exact (htighter s' hs').bind fun _ s₁ hs₁ _ => (hreduce op start s₁ hs₁).bind
        fun _ s₂ hs₂ _ => ih s₂ hs₂

/-- All levels stay in the text. -/
lemma keeps_climb (hreduce : ∀ op start, Keeps text P (g.reduce op start))
    (hoperand : Keeps text P g.operand) (turns : ℕ) (levels : List (List (Spelling × Op))) :
    Keeps text P (g.climb turns levels) := by
  induction levels with
  | nil => exact hoperand
  | cons operators levels ih =>
    intro s hs
    refine (Runs.mark hs).bind fun start s₁ hs₁ _ => (ih s₁ hs₁).bind fun _ s₂ hs₂ _ => ?_
    exact keeps_pairs hreduce ih operators start turns s₂ hs₂

/-- A phrase runs well if its operands do, and what makes one of two. -/
lemma keeps_phrase (hreduce : ∀ op start, Keeps text P (g.reduce op start))
    (hoperand : Keeps text P g.operand) : Keeps text P g.phrase :=
  fun _ hs => (Runs.get hs).bind fun s₁ s₂ hs₂ _ =>
    keeps_climb hreduce hoperand s₁.cursor.rest.length g.table.levels s₂ hs₂

end Grammar

end Reckon
