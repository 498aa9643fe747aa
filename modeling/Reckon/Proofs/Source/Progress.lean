import Reckon.Outcome
import Reckon.Proofs.Source.Cursor
import Reckon.Source.Progress

/-!
# What readers share

Steps of readers that do not depend on the grammar: what is said to be unexpected, and how results
are replaced by the phrase they make.
-/

namespace Reckon.Reader

open Outcome

variable {α : Type} {ch : Char} {s s' : Progress α}

/-- The character that stands there is passed. -/
lemma eat_of_peek_eq (h : s.cursor.peek = some ch) :
    eat ch s = .ok true ⟨s.cursor.skipBlanks.skip 1, s.done⟩ := by
  rw [eat, scan, Cursor.eat, if_pos h]

/-- Any other character is left there. -/
lemma eat_of_peek_ne (h : s.cursor.peek ≠ some ch) :
    eat ch s = .ok false ⟨s.cursor.skipBlanks, s.done⟩ := by
  rw [eat, scan, Cursor.eat, if_neg h]

/-- A group is closed by a parenthesis and nothing else. -/
lemma closeGroup_eq_ok_iff {opening : ℕ} : closeGroup opening s = .ok () s' ↔
    s.cursor.peek = some ')' ∧ s' = ⟨s.cursor.skipBlanks.skip 1, s.done⟩ := by
  rw [closeGroup, bind_apply]
  by_cases hpeek : s.cursor.peek = some ')'
  · rw [eat_of_peek_eq hpeek]
    dsimp only
    rw [if_pos rfl, pure_eq_ok_iff]
    exact ⟨fun h => ⟨hpeek, h.2.symm⟩, fun h => ⟨rfl, h.2.symm⟩⟩
  · rw [eat_of_peek_ne hpeek]
    dsimp only
    rw [if_neg Bool.false_ne_true, bind_eq_ok_iff]
    constructor
    · rintro ⟨ended, t, -, hrest⟩
      exfalso
      cases ended with
      | true =>
        obtain ⟨_, _, hthrow, -⟩ := bind_eq_ok_iff.1 hrest
        exact nomatch hthrow
      | false => exact nomatch hrest
    · exact fun h => absurd h.1 hpeek

@[simp] lemma unexpectedAt_skipBlanks (c : Cursor) :
    unexpectedAt c.skipBlanks = unexpectedAt c := by
  simp [unexpectedAt, Cursor.peek]

lemma unexpected_apply {α β : Type} (s : Progress α) :
    (unexpected : Reader α β) s =
      .error (unexpectedAt s.cursor) ⟨s.cursor.skipBlanks, s.done⟩ := rfl

/-- The results finished since `start` are replaced by what is made of them. -/
lemma reduceSince_apply (build : List α → Option α) (otherwise : List α → Error) (c : Cursor)
    (newer base : List α) :
    reduceSince base.length build otherwise ⟨c, newer ++ base⟩ =
      match build newer.reverse with
      | some a => .ok () ⟨c, a :: base⟩
      | none => .error (otherwise newer.reverse) ⟨c, newer ++ base⟩ := by
  have hsince : (⟨c, newer ++ base⟩ : Progress α).since base.length = newer.reverse := by
    simp [Progress.since]
  have hreplace : ∀ a, (⟨c, newer ++ base⟩ : Progress α).replaceSince base.length a =
      ⟨c, a :: base⟩ := by
    intro a
    simp [Progress.replaceSince]
  rw [reduceSince, hsince]
  cases build newer.reverse with
  | none => rfl
  | some a => exact congrArg (EStateM.Result.ok ()) (hreplace a)

end Reckon.Reader
