/-!
# Outcomes of stateful actions

Readers, compilations and engines are actions that change a state and can fail, and that keep the
state when they fail.  These lemmas take the outcome of a sequence apart: it succeeds when both
parts do, one after the other, and it fails when the first part fails or the second does after it.
-/

namespace Reckon.Outcome

variable {ε σ α β : Type}

/-- What is done first decides whether the rest is done. -/
theorem bind_apply (x : EStateM ε σ α) (f : α → EStateM ε σ β) (s : σ) :
    (x >>= f) s = match x s with
      | .ok a t => f a t
      | .error e t => .error e t := by
  show EStateM.bind x f s = _
  unfold EStateM.bind
  cases x s <;> rfl

theorem pure_apply (a : α) (s : σ) : (pure a : EStateM ε σ α) s = .ok a s := rfl

theorem get_apply (s : σ) : (get : EStateM ε σ σ) s = .ok s s := rfl

theorem modify_apply (g : σ → σ) (s : σ) :
    (modify g : EStateM ε σ PUnit) s = .ok ⟨⟩ (g s) := rfl

theorem throw_apply (e : ε) (s : σ) : (throw e : EStateM ε σ α) s = .error e s := rfl

/-- A sequence succeeds if both parts do. -/
theorem bind_eq_ok_iff {x : EStateM ε σ α} {f : α → EStateM ε σ β} {s u : σ} {b : β} :
    (x >>= f) s = .ok b u ↔ ∃ a t, x s = .ok a t ∧ f a t = .ok b u := by
  show EStateM.bind x f s = _ ↔ _
  unfold EStateM.bind
  cases x s <;> simp [and_assoc]

/-- A sequence fails if its first part does, or the second after it. -/
theorem bind_eq_error_iff {x : EStateM ε σ α} {f : α → EStateM ε σ β} {s u : σ} {e : ε} :
    (x >>= f) s = .error e u ↔
      x s = .error e u ∨ ∃ a t, x s = .ok a t ∧ f a t = .error e u := by
  show EStateM.bind x f s = _ ↔ _
  unfold EStateM.bind
  cases x s <;> simp [and_assoc]

/-- To succeed answers with the value it is given, and leaves the state. -/
@[simp] theorem pure_eq_ok_iff {s u : σ} {a b : α} :
    (pure a : EStateM ε σ α) s = .ok b u ↔ a = b ∧ s = u := by
  show EStateM.Result.ok a s = _ ↔ _
  simp

/-- What succeeds does not fail. -/
@[simp] theorem pure_ne_error {s u : σ} {a : α} {e : ε} :
    (pure a : EStateM ε σ α) s ≠ .error e u := nofun

end Reckon.Outcome
