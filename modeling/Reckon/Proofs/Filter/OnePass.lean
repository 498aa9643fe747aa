import Reckon.Filter.Formula.Truth
import Reckon.Filter.OnePass
import Reckon.Proofs.Formula.Reading
import Reckon.Proofs.Outcome

/-!
# One pass decides what the formula says

A pass follows the reader of formulas (`Pass.Follows`): wherever the reader has finished a formula,
the pass has its outcome, until both fail with the same error.  So a pass answers as the formula of
its text does (`Pass.answer_whole`), and what its buffer and its cache hold at the beginning does
not matter.  What they hold behind a pass that fails is left open: the reader takes a literal as a
whole, while a pass can fail in the middle of one.
-/

namespace Reckon

open Outcome

namespace Pass

variable {β γ : Type} {row : Array String} {p : Pass} {s : Progress Formula}

/-- Whether a pass is where a reader of formulas is: the outcomes are those of the formulas, and the
cursors are the same.  Of the buffer and the patterns nothing is asked. -/
structure Follows (row : Array String) (p : Pass) (s : Progress Formula) : Prop where
  cursor : p.progress.cursor = s.cursor
  done : p.progress.done = s.done.map (Formula.truth row)

/-! ## Steps that have to do with the text only -/

/-- Whether two readers do the same at one cursor, and leave the results as they are. -/
def Alongside (x : Reader Bool β) (y : Reader Formula β) : Prop :=
  ∀ s t, s.cursor = t.cursor →
    Accords (fun _ s' t' => s'.cursor = t'.cursor ∧ s'.done = s.done ∧ t'.done = t.done) (x s) (y t)

namespace Alongside

/-- To succeed is to do the same at every cursor. -/
protected lemma pure (b : β) : Alongside (pure b) (pure b) :=
  fun _ _ h => .ok ⟨h, rfl, rfl⟩

/-- To fail is to do the same at every cursor. -/
protected lemma throw (e : Error) : Alongside (throw e : Reader Bool β) (throw e) :=
  fun _ _ _ => .error

/-- A step of the cursor has to do with the text only. -/
lemma scan (step : Cursor → β × Cursor) : Alongside (Reader.scan step) (Reader.scan step) := by
  intro s t h
  unfold Reader.scan
  rw [h]
  exact .ok ⟨rfl, rfl, rfl⟩

/-- A step of the cursor that may fail has to do with the text only. -/
lemma scanExcept (step : Cursor → Except Error β × Cursor) :
    Alongside (Reader.scanExcept step) (Reader.scanExcept step) := by
  intro s t h
  unfold Reader.scanExcept
  rw [h]
  split
  · exact .ok ⟨rfl, rfl, rfl⟩
  · exact .error

/-- Two readers that go alongside each other go on with others that do. -/
lemma bind {x : Reader Bool β} {y : Reader Formula β} {f : β → Reader Bool γ}
    {g : β → Reader Formula γ} (hxy : Alongside x y) (hfg : ∀ b, Alongside (f b) (g b)) :
    Alongside (x >>= f) (y >>= g) := by
  intro s t h
  refine (hxy s t h).bind fun b s' t' ⟨hcursor, hs, ht⟩ => ?_
  rw [← hs, ← ht]
  exact hfg b s' t' hcursor

/-- What is unexpected is a matter of the text. -/
lemma unexpected : Alongside (Reader.unexpected : Reader Bool β) Reader.unexpected := scanExcept _

/-- Whether a parenthesis is closed is a matter of the text. -/
lemma closeGroup (opening : ℕ) :
    Alongside (Reader.closeGroup opening) (Reader.closeGroup opening) := by
  refine (scan _).bind fun isThere => ?_
  cases isThere with
  | true => exact .pure ()
  | false =>
    refine (scan _).bind fun isEnd => ?_
    cases isEnd with
    | true => exact (Alongside.throw _).bind fun _ => unexpected
    | false => exact unexpected

end Alongside

/-- A pass that reads some text is where a reader is that reads it. -/
lemma Follows.reading {x : Reader Bool β} {y : Reader Formula β} (h : p.Follows row s)
    (hxy : Alongside x y) :
    Accords (fun _ p' s' => p'.Follows row s' ∧ s'.done = s.done)
      (reading x p) (y s) := by
  have hstep := hxy p.progress s h.cursor
  unfold Pass.reading
  generalize x p.progress = r at hstep ⊢
  generalize y s = r' at hstep ⊢
  cases hstep with
  | ok hsame =>
    obtain ⟨hcursor, hdone, hdone'⟩ := hsame
    exact .ok ⟨⟨hcursor, by rw [hdone, hdone']; exact h.done⟩, hdone'⟩
  | error => exact .error

/-- What is unexpected is so for both. -/
lemma Follows.unexpected {Q : β → Pass → Progress Formula → Prop} (h : p.Follows row s) :
    Accords Q (Pass.reading Reader.unexpected p) ((Reader.unexpected : Reader Formula β) s) := by
  unfold Pass.reading
  rw [Reader.unexpected_apply, Reader.unexpected_apply, h.cursor]
  exact .error

/-! ## Literals -/

/-- The pass `n` characters further on, with this text added to the literal. -/
def filled (p : Pass) (n : ℕ) (text : List Char) : Pass :=
  ⟨⟨p.progress.cursor.skip n, p.progress.done⟩, p.literal ++ String.ofList text, p.patterns⟩

section

variable {capacity opening turns used : ℕ} {c : Char} {rest : List Char}

/-- Text that is added twice is added together. -/
@[simp] lemma filled_filled (p : Pass) (m n : ℕ) (text text' : List Char) :
    (p.filled m text).filled n text' = p.filled (m + n) (text ++ text') := by
  unfold filled
  rw [Cursor.skip_skip, String.append_assoc, ← String.ofList_append]

/-- Where no text is added the cursor moves on alone. -/
lemma filled_nil (p : Pass) (n : ℕ) :
    p.filled n [] = { p with progress := ⟨p.progress.cursor.skip n, p.progress.done⟩ } := by
  simp [filled]

/-- There is room for a character, or there is not. -/
lemma push_filled (n : ℕ) (hused : p.literal.utf8ByteSize = used) :
    push capacity c (p.filled n []) =
      if used + c.utf8Size > capacity then .error (.literalTooLong capacity) (p.filled n [])
      else .ok () (p.filled n [c]) := by
  have hliteral : (p.filled n []).literal.utf8ByteSize = used := by
    rw [filled_nil]
    exact hused
  unfold push
  rw [hliteral]
  split
  · rfl
  · simp [filled]

/-- At the end of the text the literal is not closed. -/
lemma fill_of_nil (h : p.progress.cursor.rest = []) :
    fill capacity opening (turns + 1) p = .error (.unterminatedString opening) (p.filled 1 []) := by
  rw [filled_nil, fill, bind_apply]
  simp only [reading, Reader.scan, Cursor.bump, h, List.head?_nil]
  rfl

/-- Two quotes are one character of the literal. -/
lemma fill_of_quotes (h : p.progress.cursor.rest = '"' :: '"' :: rest) :
    fill capacity opening (turns + 1) p =
      (push capacity '"' >>= fun _ => fill capacity opening turns) (p.filled 2 []) := by
  have hrest : (p.progress.cursor.skip 1).rest.head? = some '"' := by
    rw [Cursor.skip, h]
    rfl
  rw [filled_nil, fill, bind_apply]
  simp only [reading, Reader.scan, Cursor.bump, h, List.head?_cons, if_true, bind_apply, get_apply,
    hrest, Cursor.skip_skip]

/-- A quote that no other one follows ends the literal. -/
lemma fill_of_quote (h : p.progress.cursor.rest = '"' :: rest) (hrest : rest.head? ≠ some '"') :
    fill capacity opening (turns + 1) p = .ok () (p.filled 1 []) := by
  have hrest : ¬(p.progress.cursor.skip 1).rest.head? = some '"' := by
    rw [Cursor.skip, h]
    exact hrest
  rw [filled_nil, fill, bind_apply]
  simp only [reading, Reader.scan, Cursor.bump, h, List.head?_cons, if_true, bind_apply, get_apply,
    hrest, if_false, pure_apply]

/-- Any other character is added to the literal. -/
lemma fill_of_ne (h : p.progress.cursor.rest = c :: rest) (hc : c ≠ '"') :
    fill capacity opening (turns + 1) p =
      (push capacity c >>= fun _ => fill capacity opening turns) (p.filled 1 []) := by
  rw [filled_nil, fill, bind_apply]
  simp only [reading, Reader.scan, Cursor.bump, h, List.head?_cons, hc, if_false]

/-- Whether an outcome of filling the buffer is what the reading of the literal as a whole gives. -/
def HasFilled (p : Pass) (r : EStateM.Result Error Pass Unit) :
    Except Error (List Char × ℕ) → Prop
  | .ok (text, n) => r = .ok () (p.filled n text)
  | .error e => ∃ p', r = .error e p'

/-- What is found behind a character goes on with it. -/
lemma HasFilled.cons {r : EStateM.Result Error Pass Unit} {found : Except Error (List Char × ℕ)}
    {n : ℕ}
    (h : (p.filled n [c]).HasFilled r found) :
    p.HasFilled r (found.map fun r => (c :: r.1, r.2 + n)) := by
  cases found with
  | error e => exact h
  | ok found =>
    have h : r = .ok () ((p.filled n [c]).filled found.2 found.1) := h
    rw [filled_filled, Nat.add_comm] at h
    exact h

/-- Behind the characters that were read stands what followed them. -/
lemma rest_filled (before : List Char) (h : p.progress.cursor.rest = before ++ rest)
    (text : List Char) :
    (p.filled before.length text).progress.cursor.rest = rest := by
  show p.progress.cursor.rest.drop before.length = rest
  rw [h, List.drop_left]

/-- A character takes its bytes in the buffer. -/
lemma utf8ByteSize_filled (hused : p.literal.utf8ByteSize = used) (n : ℕ) :
    (p.filled n [c]).literal.utf8ByteSize = used + c.utf8Size := by
  simp [filled, hused]

/-- Filling the buffer finds the literal that is read as a whole, or fails as its reading does. -/
lemma hasFilled_fill (hrest : p.progress.cursor.rest = rest) (hused : p.literal.utf8ByteSize = used)
    (hturns : rest.length < turns) :
    p.HasFilled (fill capacity opening turns p)
      (Cursor.literalFrom capacity opening used rest) := by
  have hquote : '"'.utf8Size = 1 := by decide
  fun_induction Cursor.literalFrom capacity opening used rest generalizing p turns with
  | case1 used =>
    obtain ⟨turns, rfl⟩ := Nat.exists_eq_add_of_lt hturns
    exact ⟨_, fill_of_nil hrest⟩
  | case2 used rest hfull =>
    obtain ⟨turns, rfl⟩ := Nat.exists_eq_add_of_lt hturns
    rw [fill_of_quotes hrest, bind_apply, push_filled 2 hused, hquote, if_pos hfull]
    exact ⟨_, rfl⟩
  | case3 used rest hroom ih =>
    obtain ⟨turns, rfl⟩ := Nat.exists_eq_add_of_lt hturns
    rw [fill_of_quotes hrest, bind_apply, push_filled 2 hused, hquote, if_neg hroom]
    refine (ih (rest_filled ['"', '"'] hrest _) (utf8ByteSize_filled hused 2) ?_).cons
    simp only [List.length_cons]
    omega
  | case4 used rest hquotes =>
    obtain ⟨turns, rfl⟩ := Nat.exists_eq_add_of_lt hturns
    refine fill_of_quote hrest fun hhead => ?_
    obtain ⟨tail, rfl⟩ := List.head?_eq_some_iff.1 hhead
    exact hquotes tail rfl
  | case5 used c rest hquotes hquote hfull =>
    obtain ⟨turns, rfl⟩ := Nat.exists_eq_add_of_lt hturns
    rw [fill_of_ne hrest fun hc => hquote hc, bind_apply, push_filled 1 hused, if_pos hfull]
    exact ⟨_, rfl⟩
  | case6 used c rest hquotes hquote hroom ih =>
    obtain ⟨turns, rfl⟩ := Nat.exists_eq_add_of_lt hturns
    rw [fill_of_ne hrest fun hc => hquote hc, bind_apply, push_filled 1 hused, if_neg hroom]
    refine (ih (rest_filled [c] hrest _) (utf8ByteSize_filled hused 1) ?_).cons
    simp only [List.length_cons]
    omega

end

/-- Where a literal begins, the buffer is emptied and filled. -/
lemma readLiteral_of_quote (capacity : ℕ) {rest : List Char}
    (h : p.progress.cursor.skipBlanks.rest = '"' :: rest) :
    readLiteral capacity p =
      match fill capacity p.progress.cursor.skipBlanks.offset (rest.length + 1)
        ⟨⟨p.progress.cursor.skipBlanks.skip 1, p.progress.done⟩, "", p.patterns⟩ with
      | .ok _ p' => .ok p'.literal p'
      | .error e p' => .error e p' := by
  have hskipped := h
  rw [← Cursor.skipBlanks_skipBlanks] at hskipped
  obtain ⟨heat, hrest⟩ := Cursor.eat_of_skipBlanks_rest hskipped
  rw [Cursor.skipBlanks_skipBlanks] at heat hrest
  unfold readLiteral
  simp only [bind_apply, reading, Reader.tokenPosition, Reader.scan, Reader.eat, heat, if_true]
  simp only [modify_apply, get_apply, hrest, pure_apply]
  generalize fill capacity _ (rest.length + 1) _ = r
  cases r with
  | ok a p' => rfl
  | error e p' => rfl

/-- What is read into the buffer is the literal. -/
lemma Follows.readLiteral (capacity : ℕ) (h : p.Follows row s) :
    Accords (fun _ p' s' => p'.Follows row s' ∧ s'.done = s.done) (readLiteral capacity p)
      (Reader.scanExcept (Cursor.literal capacity) s) := by
  by_cases hquote : p.progress.cursor.skipBlanks.rest.head? = some '"'
  · obtain ⟨rest, hrest⟩ := List.head?_eq_some_iff.1 hquote
    let q : Pass := ⟨⟨p.progress.cursor.skipBlanks.skip 1, p.progress.done⟩, "", p.patterns⟩
    have hfilled : q.HasFilled
        (fill capacity p.progress.cursor.skipBlanks.offset (rest.length + 1) q)
        (Cursor.literalFrom capacity p.progress.cursor.skipBlanks.offset 0 rest) :=
      hasFilled_fill (Cursor.eat_of_skipBlanks_rest hrest).2 rfl (Nat.lt_succ_self rest.length)
    rw [readLiteral_of_quote capacity hrest]
    unfold Reader.scanExcept Cursor.literal
    rw [← h.cursor]
    simp only [hrest]
    generalize fill capacity _ (rest.length + 1) _ = r at hfilled ⊢
    cases hfound : Cursor.literalFrom capacity p.progress.cursor.skipBlanks.offset 0 rest with
    | error e =>
      rw [hfound] at hfilled
      obtain ⟨p', rfl⟩ := hfilled
      exact .error
    | ok found =>
      rw [hfound] at hfilled
      obtain rfl : r = .ok () (q.filled found.2 found.1) := hfilled
      have hliteral : (q.filled found.2 found.1).literal = String.ofList found.1 :=
        String.empty_append
      dsimp only
      rw [hliteral]
      refine .ok ⟨⟨?_, h.done⟩, rfl⟩
      show (p.progress.cursor.skipBlanks.skip 1).skip found.2 = _
      rw [Cursor.skip_skip, Nat.add_comm]
  · have heat : Cursor.eat '"' p.progress.cursor.skipBlanks =
      (false, p.progress.cursor.skipBlanks) := by
      rw [Cursor.eat_of_head?_ne (by rwa [Cursor.skipBlanks_skipBlanks]),
        Cursor.skipBlanks_skipBlanks]
    have hliteral : Cursor.literal capacity s.cursor =
        (.error (.filter "expected string literal" p.progress.cursor.skipBlanks.offset),
          p.progress.cursor.skipBlanks) := by
      unfold Cursor.literal
      rw [← h.cursor]
      dsimp only
      split
      · rename_i hrest
        exact absurd (by rw [hrest]; rfl) hquote
      · rfl
    unfold Pass.readLiteral Reader.scanExcept
    simp only [bind_apply, Pass.reading, Reader.tokenPosition, Reader.scan, Reader.eat, heat,
      Bool.false_eq_true, if_false, hliteral]
    exact .error

/-! ## Formulas -/

/-- Whether an action computes the outcome of the one formula that a reader reads, or fails as the
reader does. -/
def Computes (row : Array String) (x : EStateM Error Pass Unit) (y : Reader Formula Unit) : Prop :=
  ∀ p s, Follows row p s →
    Accords (fun _ p' s' => p'.Follows row s' ∧ ∃ f, s'.done = f :: s.done) (x p) (y s)

/-- A test is asked while it is read, with whatever patterns. -/
lemma computes_test (literalCapacity : ℕ) (row : Array String) :
    Computes row (test literalCapacity row) (Formula.fieldTest literalCapacity row.size) := by
  intro p s h
  refine (h.reading (.scan _)).bind fun dollar p₁ s₁ ⟨h₁, hs₁⟩ =>
    (h₁.reading (.scan _)).bind fun isThere p₂ s₂ ⟨h₂, hs₂⟩ => ?_
  cases isThere with
  | false =>
    have hfails : Accords (fun _ _ _ => False) (reading (Reader.unexpected : Reader Bool PUnit) p₂)
        (Reader.unexpected s₂) := h₂.unexpected
    exact hfails.bind fun _ _ _ hfalse => hfalse.elim
  | true =>
    refine (h₂.reading (.scanExcept _)).bind fun field p₃ s₃ ⟨h₃, hs₃⟩ => ?_
    dsimp only
    split
    · exact .throw_bind
    · refine (h₃.reading (.scan _)).bind fun position p₄ s₄ ⟨h₄, hs₄⟩ =>
        (h₄.reading (.scan _)).bind fun comparison p₅ s₅ ⟨h₅, hs₅⟩ => ?_
      cases comparison with
      | none => exact .throw
      | some comparison =>
        refine (h₅.readLiteral literalCapacity).bind fun literal p₆ s₆ ⟨h₆, hs₆⟩ => ?_
        have hdone : s₆.done = s.done := by rw [hs₆, hs₅, hs₄, hs₃, hs₂, hs₁]
        have houtcome := FieldTest.holds_fst row ⟨field, comparison, literal⟩ p₆.patterns
        exact .ok ⟨⟨h₆.cursor, congrArg₂ List.cons houtcome h₆.done⟩, _, congrArg (_ :: ·) hdone⟩

/-- Two formulas that are joined hold as the connective says of their truth. -/
lemma truth_join (connective : Connective) (left right : Formula) :
    (connective.join left right).truth row =
      connective.holds (left.truth row) (right.truth row) := by
  cases connective with
  | or => rfl
  | and => rfl

/-- Two outcomes are joined as two formulas are. -/
lemma Follows.reduce (connective : Connective) {left right : Formula} {base : List Formula}
    (h : p.Follows row s) (hdone : s.done = right :: left :: base) :
    Accords (fun _ p' s' => p'.Follows row s' ∧ ∃ f, s'.done = f :: base) (reduce connective p)
      (Formula.join connective.build? base.length s) := by
  obtain ⟨cursor, done⟩ := s
  obtain rfl : done = right :: left :: base := hdone
  have hjoin := Formula.join_apply connective.build? cursor [right, left] base
    (connective.build?_pair left right)
  rw [List.cons_append, List.singleton_append] at hjoin
  have houtcomes : p.progress.done =
      right.truth row :: left.truth row :: base.map (Formula.truth row) :=
    h.done
  rw [hjoin, Pass.reduce, houtcomes]
  refine .ok ⟨⟨h.cursor, ?_⟩, _, rfl⟩
  exact congrArg (· :: _) (truth_join connective left right).symm

/-- The newest outcome is negated as the newest formula is. -/
lemma Follows.negate {condition : Formula} {base : List Formula} (h : p.Follows row s)
    (hdone : s.done = condition :: base) :
    Accords (fun _ p' s' => p'.Follows row s' ∧ ∃ f, s'.done = f :: base) (negate p)
      (Formula.join Formula.negation? base.length s) := by
  obtain ⟨cursor, done⟩ := s
  obtain rfl : done = condition :: base := hdone
  have hjoin := Formula.join_apply Formula.negation? cursor [condition] base rfl
  rw [List.singleton_append] at hjoin
  rw [hjoin]
  refine .ok ⟨⟨h.cursor, ?_⟩, _, rfl⟩
  show p.progress.done.modifyHead Bool.not = _
  rw [h.done]
  rfl

variable {test inner group operand tighter : EStateM Error Pass Unit}
  {test' inner' group' operand' tighter' : Reader Formula Unit}

/-- An operand is computed if its tests and its inner operands and groups are. -/
lemma computes_operandWith (htest : Computes row test test') (hinner : Computes row inner inner')
    (hgroup : Computes row group group') :
    Computes row (operandWith test inner group) (Formula.operandWith test' inner' group') := by
  intro p s h
  refine (h.reading (.scan _)).bind fun opening p₁ s₁ ⟨h₁, hs₁⟩ =>
    (h₁.reading (.scan _)).bind fun isNegation p₂ s₂ ⟨h₂, hs₂⟩ => ?_
  have hdone₂ : s₂.done = s.done := hs₂.trans hs₁
  rw [← hdone₂]
  cases isNegation with
  | true =>
    show Accords _ ((inner >>= fun _ => negate) p₂)
      ((inner' >>= fun _ => Formula.join Formula.negation? s₂.done.length) s₂)
    exact (hinner p₂ s₂ h₂).bind fun _ p₃ s₃ ⟨h₃, f, hs₃⟩ => h₃.negate hs₃
  | false =>
    refine (h₂.reading (.scan _)).bind fun isGroup p₃ s₃ ⟨h₃, hs₃⟩ => ?_
    rw [← hs₃]
    cases isGroup with
    | false => exact htest p₃ s₃ h₃
    | true =>
      refine (hgroup p₃ s₃ h₃).bind fun _ p₄ s₄ ⟨h₄, f, hs₄⟩ => ?_
      refine (h₄.reading (.closeGroup opening)).mono fun _ p₅ s₅ ⟨h₅, hs₅⟩ => ?_
      exact ⟨h₅, f, hs₅.trans hs₄⟩

/-- Pairs are joined to what stands before them. -/
lemma accords_pairs (operators : List (Spelling × Connective))
    (htighter : Computes row tighter tighter')
    (turns : ℕ) {f : Formula} {base : List Formula} (h : p.Follows row s)
      (hdone : s.done = f :: base) :
    Accords (fun _ p' s' => p'.Follows row s' ∧ ∃ f, s'.done = f :: base)
      (pairs operators tighter turns p)
      ((Formula.grammar operand').pairs operators tighter' base.length turns s) := by
  induction turns generalizing p s f with
  | zero => exact .pure ⟨h, f, hdone⟩
  | succ turns ih =>
    refine (h.reading (.scan _)).bind fun connective p₁ s₁ ⟨h₁, hs₁⟩ => ?_
    cases connective with
    | none => exact .pure ⟨h₁, f, hs₁.trans hdone⟩
    | some connective =>
      refine (htighter p₁ s₁ h₁).bind fun _ p₂ s₂ ⟨h₂, g, hs₂⟩ => ?_
      rw [hs₁, hdone] at hs₂
      exact (h₂.reduce connective hs₂).bind fun _ p₃ s₃ ⟨h₃, joined, hs₃⟩ => ih h₃ hs₃

/-- The levels of connectives are computed if their operands are. -/
lemma computes_climb (hoperand : Computes row operand operand') (turns : ℕ)
    (levels : List (List (Spelling × Connective))) :
    Computes row (climb operand turns levels) ((Formula.grammar operand').climb turns levels) := by
  induction levels with
  | nil => exact hoperand
  | cons operators levels ih =>
    intro p s h
    show Accords _ ((climb operand turns levels >>= fun _ =>
        pairs operators (climb operand turns levels) turns) p)
      (((Formula.grammar operand').climb turns levels >>= fun _ =>
        (Formula.grammar operand').pairs operators ((Formula.grammar operand').climb turns levels)
          s.done.length turns) s)
    exact (ih p s h).bind fun _ p₁ s₁ ⟨h₁, f, hs₁⟩ => accords_pairs operators ih turns h₁ hs₁

/-- A phrase is computed if its operands are. -/
lemma computes_phrase (hoperand : Computes row operand operand') :
    Computes row (phrase operand) (Formula.grammar operand').phrase := by
  intro p s h
  show Accords _ (climb operand p.progress.cursor.rest.length Formula.connectives.levels p)
    ((Formula.grammar operand').climb s.cursor.rest.length Formula.connectives.levels s)
  rw [h.cursor]
  exact computes_climb hoperand _ _ p s h

/-- Operands are computed at every depth if the tests are. -/
lemma computes_operand (limit : ℕ) (htest : Computes row test test') (allowance : ℕ) :
    Computes row (Pass.operand limit test allowance)
      (Formula.operandReader limit test' allowance) := by
  induction allowance with
  | zero => exact computes_operandWith htest (fun _ _ _ => .throw) fun _ _ _ => .throw
  | succ allowance ih => exact computes_operandWith htest ih (computes_phrase ih)

/-- A pass over a whole text answers as the formula of the text does, whatever it begins with in its
buffer and in its cache. -/
lemma answer_whole (limits : Formula.Limits) (row : Array String) {source : String}
    (hp : p.progress = ⟨Cursor.ofString source, []⟩)
      (hsource : (Cursor.ofString source).atEnd = false) :
    answer (whole limits row p) = (Formula.ofString limits row.size source).map fun f =>
      f.elim false (Formula.truth row) := by
  have hstart : p.Follows row ⟨Cursor.ofString source, []⟩ := by
    constructor
    · rw [hp]
    · rw [hp]
      rfl
  have hphrase := computes_phrase (computes_operand limits.nestingLimit
    (computes_test limits.literalCapacity row) limits.nestingLimit) p _ hstart
  unfold whole Formula.ofString Formula.reader
  rw [hsource, bind_apply]
  generalize phrase _ p = r at hphrase ⊢
  generalize (Formula.grammar _).phrase _ = r' at hphrase ⊢
  cases hphrase with
  | error => rfl
  | ok hfollows =>
    rename_i p' s'
    obtain ⟨h, f, hdone⟩ := hfollows
    have houtcomes : p'.progress.done = [f.truth row] := by rw [h.done, hdone]; rfl
    simp only [bind_apply, reading, Reader.atEnd, Reader.scan, h.cursor, houtcomes, hdone]
    cases s'.cursor.atEnd with
    | true => rfl
    | false => rfl

end Pass

end Reckon
