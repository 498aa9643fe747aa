import Mathlib.Tactic.Common
import Reckon.Outcome

/-!
# What actions do to the state

Two ways to follow a stateful action through success and failure alike.

An action *moves* the state along a relation if what it leaves behind is always related to what it
found (`Moves`).  For a relation that is reflexive and transitive it is enough to look at the single
steps of a sequence (`Moves.bind`).

Two actions are *alike* if from related states both succeed or both fail, with related answers and
related states (`Alike`).  Again this is a matter of the single steps (`Alike.bind`).

Two actions run *in step* if they are alike and their errors are the same, unless one of them fails
in a way that is excused (`InStep`, `InStep.bind`).

Two outcomes *accord* if both are successes with the same answer or both are failures with the same
error; only of what successes leave behind is anything asked (`Accords`, `Accords.bind`).

What an action *yields* is judged by its answers and its errors, whatever the states (`Yields`,
`Yields.bind`).

An action *covers* another if it does the same, unless the other fails in a way that is excused or
both fail (`Covers`, `Covers.bind`).
-/

namespace Reckon.Outcome

variable {ε ε' σ τ α α' β β' : Type}

/-- The state that an outcome leaves behind. -/
def final : EStateM.Result ε σ α → σ
  | .ok _ s => s
  | .error _ s => s

/-- The answer or the error, without the state. -/
def answer : EStateM.Result ε σ α → Except ε α
  | .ok a _ => .ok a
  | .error e _ => .error e

/-- Whether an outcome is a success. -/
def isSuccess : EStateM.Result ε σ α → Bool
  | .ok _ _ => true
  | .error _ _ => false

/-- What succeeds does not answer with an error. -/
lemma answer_ne_error {r : EStateM.Result ε σ α} (h : isSuccess r = true) (e : ε) :
    answer r ≠ .error e := by
  rcases r with ⟨a, s⟩ | ⟨e', s⟩
  · exact nofun
  · exact nomatch h

/-! ## Moves -/

/-- Whether an action changes the state along a relation only, whether it succeeds or fails. -/
def Moves (R : σ → σ → Prop) (x : EStateM ε σ α) : Prop := ∀ s, R s (final (x s))

namespace Moves

variable {R : σ → σ → Prop} {x : EStateM ε σ α} {f : α → EStateM ε σ β}

/-- What succeeds has moved as it may. -/
lemma of_ok {s t : σ} {a : α} (h : Moves R x) (hrun : x s = .ok a t) : R s t := by
  have hmoves := h s
  rwa [hrun] at hmoves

/-- What fails has moved as it may. -/
lemma of_error {s t : σ} {e : ε} (h : Moves R x) (hrun : x s = .error e t) : R s t := by
  have hmoves := h s
  rwa [hrun] at hmoves

/-- To succeed is not to move. -/
lemma pure (hrefl : ∀ s, R s s) (a : α) : Moves R (pure a : EStateM ε σ α) := hrefl

/-- To fail is not to move. -/
lemma throw (hrefl : ∀ s, R s s) (e : ε) : Moves R (throw e : EStateM ε σ α) := hrefl

/-- A sequence moves the state along a relation if each of its steps does. -/
lemma bind (htrans : ∀ s t u, R s t → R t u → R s u) (hx : Moves R x) (hf : ∀ a, Moves R (f a)) :
    Moves R (x >>= f) := by
  intro s
  rw [bind_apply]
  cases hrun : x s with
  | ok a t => exact htrans s t _ (hx.of_ok hrun) (hf a t)
  | error e t => exact hx.of_error hrun

end Moves

/-! ## Agreement -/

/-- Whether two outcomes are both successes with related answers, or both failures, and leave
related states behind.  What the errors say does not matter. -/
inductive Agrees (R : σ → τ → Prop) (A : α → α' → Prop) :
    EStateM.Result ε σ α → EStateM.Result ε' τ α' → Prop
  | ok {a : α} {a' : α'} {s : σ} {t : τ} : A a a' → R s t → Agrees R A (.ok a s) (.ok a' t)
  | error {e : ε} {e' : ε'} {s : σ} {t : τ} : R s t → Agrees R A (.error e s) (.error e' t)

/-- Whether two actions agree wherever they begin in related states. -/
def Alike (R : σ → τ → Prop) (A : α → α' → Prop) (x : EStateM ε σ α) (y : EStateM ε' τ α') : Prop :=
  ∀ s t, R s t → Agrees R A (x s) (y t)

section

variable {R R' : σ → τ → Prop} {A : α → α' → Prop} {B : β → β' → Prop} {x : EStateM ε σ α}
  {y : EStateM ε' τ α'} {f : α → EStateM ε σ β} {g : α' → EStateM ε' τ β'}

/-- Outcomes that agree in a narrow sense agree in a wider one. -/
lemma Agrees.mono {r : EStateM.Result ε σ α} {r' : EStateM.Result ε' τ α'} (h : Agrees R A r r')
    (hR : ∀ s t, R s t → R' s t) : Agrees R' A r r' := by
  cases h with
  | ok hanswers hstates => exact .ok hanswers (hR _ _ hstates)
  | error hstates => exact .error (hR _ _ hstates)

namespace Alike

/-- Everything is like itself. -/
lemma refl {x : EStateM ε σ α} : Alike Eq Eq x x := by
  rintro s t rfl
  cases x s with
  | ok a s' => exact .ok rfl rfl
  | error e s' => exact .error rfl

/-- Actions that do nothing but answer are alike if their answers are. -/
lemma pure {a : α} {a' : α'} (h : A a a') :
    Alike R A (pure a : EStateM ε σ α) (pure a' : EStateM ε' τ α') :=
  fun _ _ hstates => .ok h hstates

/-- Failures are alike whatever the errors are. -/
lemma throw (e : ε) (e' : ε') :
    Alike R A (throw e : EStateM ε σ α) (throw e' : EStateM ε' τ α') :=
  fun _ _ hstates => .error hstates

/-- Sequences are alike if their steps are. -/
lemma bind (hxy : Alike R A x y) (hfg : ∀ a a', A a a' → Alike R B (f a) (g a')) :
    Alike R B (x >>= f) (y >>= g) := by
  intro s t hstates
  have hfirst := hxy s t hstates
  rw [bind_apply, bind_apply]
  generalize x s = r at hfirst ⊢
  generalize y t = r' at hfirst ⊢
  cases hfirst with
  | ok hanswers hstates' => exact hfg _ _ hanswers _ _ hstates'
  | error hstates' => exact .error hstates'

/-- Sequences whose first steps give the same answer. -/
lemma bind_of_eq {y : EStateM ε' τ α} {g : α → EStateM ε' τ β'} (hxy : Alike R Eq x y)
    (hfg : ∀ a, Alike R B (f a) (g a)) : Alike R B (x >>= f) (y >>= g) := by
  refine bind hxy ?_
  rintro a _ rfl
  exact hfg a

end Alike

end

/-! ## Actions in step -/

/-- Whether two outcomes are both successes with related answers, or both failures with the same
error, and leave related states behind, unless one of them is a failure that is excused. -/
inductive Coincides (excused : ε → Prop) (R : σ → τ → Prop) (A : α → α' → Prop) :
    EStateM.Result ε σ α → EStateM.Result ε τ α' → Prop
  | ok {a : α} {a' : α'} {s : σ} {t : τ} : A a a' → R s t →
      Coincides excused R A (.ok a s) (.ok a' t)
  | error {e : ε} {s : σ} {t : τ} : R s t → Coincides excused R A (.error e s) (.error e t)
  | left {e : ε} {s : σ} {r : EStateM.Result ε τ α'} :
      excused e → Coincides excused R A (.error e s) r
  | right {e : ε} {t : τ} {r : EStateM.Result ε σ α} :
      excused e → Coincides excused R A r (.error e t)

/-- Whether the outcomes of two actions coincide wherever they begin in related states. -/
def InStep (excused : ε → Prop) (R : σ → τ → Prop) (A : α → α' → Prop) (x : EStateM ε σ α)
    (y : EStateM ε τ α') : Prop :=
  ∀ s t, R s t → Coincides excused R A (x s) (y t)

section

variable {excused : ε → Prop} {R : σ → τ → Prop} {A : α → α' → Prop} {B : β → β' → Prop}
  {x : EStateM ε σ α} {y : EStateM ε τ α'} {f : α → EStateM ε σ β} {g : α' → EStateM ε τ β'}

/-- A sequence continues as it began, in step. -/
lemma Coincides.bind {s : σ} {t : τ} (h : Coincides excused R A (x s) (y t))
    (hfg : ∀ a a', A a a' → InStep excused R B (f a) (g a')) :
    Coincides excused R B ((x >>= f) s) ((y >>= g) t) := by
  rw [bind_apply, bind_apply]
  generalize x s = r at h ⊢
  generalize y t = r' at h ⊢
  rcases h with ⟨hanswers, hstates⟩ | hstates | hexcused | hexcused
  · exact hfg _ _ hanswers _ _ hstates
  · exact .error hstates
  · exact .left hexcused
  · exact .right hexcused

/-- Unless there is an excuse, outcomes that coincide are the same up to the state. -/
lemma Coincides.answer_eq {r : EStateM.Result ε σ α} {r' : EStateM.Result ε τ α}
    (h : Coincides excused R Eq r r') (hr : ∀ e, excused e → answer r ≠ .error e)
    (hr' : ∀ e, excused e → answer r' ≠ .error e) :
    answer r = answer r' ∧ R (final r) (final r') := by
  rcases h with ⟨rfl, hstates⟩ | hstates | hexcused | hexcused
  · exact ⟨rfl, hstates⟩
  · exact ⟨rfl, hstates⟩
  · exact absurd rfl (hr _ hexcused)
  · exact absurd rfl (hr' _ hexcused)

namespace InStep

/-- Sequences run in step if their steps do. -/
lemma bind (hxy : InStep excused R A x y) (hfg : ∀ a a', A a a' → InStep excused R B (f a) (g a')) :
    InStep excused R B (x >>= f) (y >>= g) :=
  fun s t hstates => (hxy s t hstates).bind hfg

/-- Sequences whose first steps give no answer. -/
lemma seq {x : EStateM ε σ Unit} {y : EStateM ε τ Unit} {f : EStateM ε σ β} {g : EStateM ε τ β'}
    (hxy : InStep excused R Eq x y) (hfg : InStep excused R B f g) :
    InStep excused R B (x >>= fun _ => f) (y >>= fun _ => g) :=
  hxy.bind fun _ _ _ => hfg

end InStep

end

/-! ## Outcomes that accord -/

/-- Whether two outcomes are successes with the same answer, and together with what they leave
behind as is asked, or failures with the same error. -/
inductive Accords (Q : α → σ → τ → Prop) : EStateM.Result ε σ α → EStateM.Result ε τ α → Prop
  | ok {a : α} {s : σ} {t : τ} : Q a s t → Accords Q (.ok a s) (.ok a t)
  | error {e : ε} {s : σ} {t : τ} : Accords Q (.error e s) (.error e t)

namespace Accords

variable {Q Q' : α → σ → τ → Prop} {R : β → σ → τ → Prop} {r : EStateM.Result ε σ α}
  {r' : EStateM.Result ε τ α} {x : EStateM ε σ α} {y : EStateM ε τ α} {f : α → EStateM ε σ β}
  {g : α → EStateM ε τ β} {s : σ} {t : τ}

/-- Outcomes that accord in a narrow sense accord in a wider one. -/
lemma mono (h : Accords Q r r') (hQ : ∀ a s t, Q a s t → Q' a s t) : Accords Q' r r' := by
  cases h with
  | ok hQs => exact .ok (hQ _ _ _ hQs)
  | error => exact .error

protected lemma pure {a : α} (h : Q a s t) :
    Accords Q ((pure a : EStateM ε σ α) s) ((pure a : EStateM ε τ α) t) :=
  .ok h

protected lemma throw {e : ε} : Accords Q ((throw e : EStateM ε σ α) s)
    ((throw e : EStateM ε τ α) t) :=
  .error

/-- Sequences accord if their first parts do, and their rests do from what these leave behind on. -/
lemma bind (h : Accords Q (x s) (y t))
    (hfg : ∀ a s' t', Q a s' t' → Accords R (f a s') (g a t')) :
    Accords R ((x >>= f) s) ((y >>= g) t) := by
  rw [bind_apply, bind_apply]
  generalize x s = r at h ⊢
  generalize y t = r' at h ⊢
  cases h with
  | ok hQ => exact hfg _ _ _ hQ
  | error => exact .error

/-- Nothing follows a failure. -/
lemma throw_bind {e : ε} :
    Accords R (((throw e : EStateM ε σ α) >>= f) s) (((throw e : EStateM ε τ α) >>= g) t) :=
  .error

end Accords

/-! ## Answers and errors -/

/-- Whether all answers of an action are such and all its errors are such. -/
structure Yields (P : ε → Prop) (Q : α → Prop) (x : EStateM ε σ α) : Prop where
  ok : ∀ {s t : σ} {a : α}, x s = .ok a t → Q a
  error : ∀ {s t : σ} {e : ε}, x s = .error e t → P e

namespace Yields

variable {P : ε → Prop} {Q : α → Prop} {R : β → Prop} {x : EStateM ε σ α} {f : α → EStateM ε σ β}

protected lemma pure {a : α} (h : Q a) : Yields P Q (pure a : EStateM ε σ α) where
  ok hrun := (pure_eq_ok_iff.1 hrun).1 ▸ h
  error hrun := absurd hrun pure_ne_error

protected lemma throw {e : ε} (h : P e) : Yields P Q (throw e : EStateM ε σ α) where
  ok := nofun
  error hrun := by
    cases hrun
    exact h

protected lemma get : Yields P (fun _ => True) (get : EStateM ε σ σ) where
  ok _ := trivial
  error := nofun

protected lemma modify (g : σ → σ) :
    Yields P (fun _ => True) (modify g : EStateM ε σ PUnit) where
  ok _ := trivial
  error := nofun

/-- A sequence is judged by its steps. -/
lemma bind (hx : Yields P Q x) (hf : ∀ a, Q a → Yields P R (f a)) : Yields P R (x >>= f) where
  ok hrun := by
    obtain ⟨a, t, hfirst, hrest⟩ := bind_eq_ok_iff.1 hrun
    exact (hf a (hx.ok hfirst)).ok hrest
  error hrun := by
    rcases bind_eq_error_iff.1 hrun with hfirst | ⟨a, t, hfirst, hrest⟩
    · exact hx.error hfirst
    · exact (hf a (hx.ok hfirst)).error hrest

/-- Nothing follows a failure. -/
lemma throw_bind {e : ε} (h : P e) : Yields P R ((throw e : EStateM ε σ α) >>= f) :=
  have hthrow : Yields P (fun _ => False) (throw e : EStateM ε σ α) := .throw h
  hthrow.bind fun _ hfalse => hfalse.elim

end Yields

/-! ## Actions that succeed more often -/

/-- Whether the second action does what the first one does, unless the first one fails, and either
that is excused or the second one fails too. -/
def Covers (excused : ε → Prop) (x y : EStateM ε σ α) : Prop :=
  ∀ s, x s = y s ∨ ∃ e t, x s = .error e t ∧ (excused e ∨ isSuccess (y s) = false)

namespace Covers

variable {excused : ε → Prop} {x y : EStateM ε σ α} {f g : α → EStateM ε σ β}

/-- Everything covers itself. -/
lemma refl (x : EStateM ε σ α) : Covers excused x x := fun _ => .inl rfl

/-- A sequence is covered step by step. -/
lemma bind (hxy : Covers excused x y) (hfg : ∀ a, Covers excused (f a) (g a)) :
    Covers excused (x >>= f) (y >>= g) := by
  intro s
  rw [bind_apply, bind_apply]
  rcases hxy s with hsame | ⟨e, t, hx, hy⟩
  · rw [hsame]
    cases y s with
    | ok a t => exact hfg a t
    | error e t => exact .inl rfl
  · refine .inr ⟨e, t, by rw [hx], hy.imp_right fun hfails => ?_⟩
    cases hrun : y s with
    | ok a t' =>
      rw [hrun] at hfails
      exact nomatch hfails
    | error e' t' => rfl

/-- Sequences that begin with the same step. -/
lemma bind_refl (hfg : ∀ a, Covers excused (f a) (g a)) : Covers excused (x >>= f) (x >>= g) :=
  (refl x).bind hfg

end Covers

end Reckon.Outcome
