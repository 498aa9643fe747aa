import Reckon.Proofs.Formula.Reading

/-!
# What is read is a formula

Where a reader of filters succeeds, it has passed a phrase of the grammar and left the formula that
the phrase stands for (`Formula.Reads`).  This is kept by the pairs of a level and by operands
inside operands, so that it holds of the whole reader by induction on how deep phrases may be nested
(`Formula.reads_reader`).
-/

namespace Reckon

open Outcome

namespace Cursor

/-- Whether a text stands between two cursors, with nothing but blanks behind it. -/
def Passes (c : Cursor) (text : List Char) (c' : Cursor) : Prop :=
  ∃ blanks, IsBlanks blanks ∧ c.rest = text ++ (blanks ++ c'.rest)

variable {c c' : Cursor} {text : List Char} {ch : Char}

lemma Passes.of_eq (h : c.rest = text ++ c'.rest) : c.Passes text c' :=
  ⟨[], nofun, h⟩

/-- More blanks may be passed. -/
lemma Passes.skipBlanks (h : c.Passes text c') : c.Passes text c'.skipBlanks := by
  obtain ⟨blanks, hblanks, hrest⟩ := h
  obtain ⟨more, hmore, hrest'⟩ := c'.exists_blanks
  refine ⟨blanks ++ more, List.forall_mem_append.2 ⟨hblanks, hmore⟩, ?_⟩
  rw [hrest, hrest', List.append_assoc]

/-- A character that comes next is passed together with the blanks before it. -/
lemma exists_blanks_of_peek (h : c.peek = some ch) :
    ∃ blanks, IsBlanks blanks ∧ c.rest = blanks ++ ch :: (c.skipBlanks.skip 1).rest := by
  obtain ⟨blanks, hblanks, hrest⟩ := c.exists_blanks
  obtain ⟨rest, hskip⟩ := List.head?_eq_some_iff.1 h
  rw [(eat_of_skipBlanks_rest hskip).2, ← hskip]
  exact ⟨blanks, hblanks, hrest⟩

end Cursor

namespace Formula

open Cursor

/-- Whether a reader that succeeds has passed a phrase of a kind that opens less than so much at
once, and has left its formula, the tests of which satisfy a condition. -/
def Reads (admitted : FieldTest → Prop) (limit : ℕ) (p : Phrase) (x : Reader Formula Unit) : Prop :=
  ∀ s s', x s = .ok () s' → ∃ text f nesting, Derives p text f nesting ∧ nesting < limit ∧
    (∀ t ∈ f.tests, admitted t) ∧ s.cursor.Passes text s'.cursor ∧ s'.done = f :: s.done

variable {admitted : FieldTest → Prop} {limit turns literalCapacity fieldCount : ℕ}
  {operand inner group test tighter : Reader Formula Unit} {connective : Connective}

/-- What is read as a test is one that can be asked of the row. -/
lemma reads_fieldTest (hcount : fieldCount < largestField) :
    Reads (FieldTest.IsAdmitted literalCapacity fieldCount) 1 .operand
      (fieldTest literalCapacity fieldCount) := by
  intro s s' h
  obtain ⟨c, done⟩ := s
  rw [fieldTest_apply] at h
  split at h
  · rename_i hdollar
    split at h
    · exact nomatch h
    · rename_i field c₁ hnumber
      split at h
      · exact nomatch h
      · rename_i hfield
        split at h
        · exact nomatch h
        · rename_i comparison c₂ hcomparison
          split at h
          · exact nomatch h
          · rename_i literal c₃ hliteral
            cases h
            obtain ⟨blanks, hblanks, hrest⟩ := exists_blanks_of_peek hdollar
            obtain ⟨digits, hne, hdigits, hvalue, hrest₁⟩ := digits_of_fieldNumber hnumber
            obtain ⟨before, hbefore, hrest₂⟩ := c₁.exists_blanks
            obtain ⟨word, hword, hrest₃⟩ := exists_word_of_operator hcomparison
            obtain ⟨behind, hbehind, hrest₄⟩ := c₂.exists_blanks
            obtain ⟨hquote, hle⟩ := quote_of_literal hliteral
            rw [skipBlanks_skipBlanks] at hrest₃
            rw [digitsValue_eq_numberOf 10 fun d hd => isHexSign_of_isDigit (hdigits d hd)]
              at hvalue
            have hnumber : field = numberOf 10 digits := by omega
            obtain rfl := Comparison.mem_comparisons_iff.1 hword
            refine ⟨_, _, 0, .test hblanks ⟨digits, before, behind, hne, hdigits, hbefore, hbehind,
              hnumber, rfl⟩, Nat.zero_lt_one, ?_, .of_eq ?_, rfl⟩
            · exact List.forall_mem_singleton.2 ⟨by dsimp only; omega, by dsimp only; omega, hle⟩
            · rw [hrest, hrest₁, hrest₂, hrest₃, hrest₄, hquote]
              simp only [List.append_assoc, List.cons_append]
  · exact nomatch h

/-- An operand inside an operand is one phrase more that is open. -/
lemma reads_operandWith (htest : Reads admitted 1 .operand test)
    (hinner : Reads admitted limit .operand inner)
    (hgroup : Reads admitted limit (.joined .or) group) :
    Reads admitted (limit + 1) .operand (operandWith test inner group) := by
  intro s s' h
  obtain ⟨c, done⟩ := s
  rw [operandWith_apply] at h
  split at h
  · rename_i hnot
    obtain ⟨blanks, hblanks, hrest⟩ := exists_blanks_of_peek hnot
    obtain ⟨_, s₁, hoperand, hjoin⟩ := bind_eq_ok_iff.1 h
    obtain ⟨text, f, nesting, hderives, hnesting, hadmitted, ⟨more, hmore, hpasses⟩, hdone⟩ :=
      hinner _ _ hoperand
    obtain ⟨c₁, done₁⟩ := s₁
    dsimp only at hpasses hdone
    subst hdone
    have hnegation := join_apply negation? c₁ [f] done rfl
    rw [List.singleton_append] at hnegation
    rw [hnegation] at hjoin
    cases hjoin
    refine ⟨_, _, nesting + 1, .not hblanks hderives, Nat.succ_lt_succ hnesting, hadmitted,
      ⟨more, hmore, ?_⟩, rfl⟩
    rw [hrest, hpasses, List.append_assoc, List.cons_append]
  · split at h
    · rename_i hopen
      obtain ⟨blanks, hblanks, hrest⟩ := exists_blanks_of_peek hopen
      obtain ⟨_, s₁, hphrase, hclose⟩ := bind_eq_ok_iff.1 h
      obtain ⟨text, f, nesting, hderives, hnesting, hadmitted, ⟨more, hmore, hpasses⟩, hdone⟩ :=
        hgroup _ _ hphrase
      obtain ⟨hpeek, rfl⟩ := Reader.closeGroup_eq_ok_iff.1 hclose
      obtain ⟨before, hbefore, hrest₁⟩ := exists_blanks_of_peek hpeek
      refine ⟨_, f, nesting + 1, .group hblanks hderives
        (List.forall_mem_append.2 ⟨hmore, hbefore⟩), Nat.succ_lt_succ hnesting, hadmitted,
        .of_eq ?_, hdone⟩
      rw [hrest, hpasses, hrest₁]
      simp only [List.append_assoc, List.cons_append, List.nil_append]
    · obtain ⟨text, f, nesting, hderives, hnesting, hadmitted, ⟨more, hmore, hpasses⟩, hdone⟩ :=
        htest _ _ h
      obtain ⟨blanks, hblanks, hrest⟩ := c.exists_blanks
      refine ⟨_, f, nesting, hderives.prepend hblanks,
        Nat.lt_of_lt_of_le hnesting (Nat.le_add_left 1 limit),
        hadmitted, ⟨more, hmore, ?_⟩, hdone⟩
      rw [hrest, List.append_assoc]
      exact congrArg (blanks ++ ·) hpasses

/-- A phrase that was read is extended by all pairs that are read behind it. -/
lemma exists_of_pairs (htighter : Reads admitted limit connective.tighter tighter)
    {s s' : Progress Formula} {base : List Formula} {before : Cursor} {text : List Char}
    {left : Formula} {nesting : ℕ}
    (h : (grammar operand).pairs (level connective) tighter base.length turns s = .ok () s')
    (hdone : s.done = left :: base) (hpasses : before.Passes text s.cursor)
    (hderives : Derives (.joined connective) text left nesting) (hnesting : nesting < limit)
    (hadmitted : ∀ t ∈ left.tests, admitted t) :
    ∃ text' f nesting', Derives (.joined connective) text' f nesting' ∧ nesting' < limit ∧
      (∀ t ∈ f.tests, admitted t) ∧ before.Passes text' s'.cursor ∧ s'.done = f :: base := by
  induction turns generalizing s text left nesting with
  | zero =>
    obtain ⟨-, rfl⟩ := pure_eq_ok_iff.1 h
    exact ⟨text, left, nesting, hderives, hnesting, hadmitted, hpasses, hdone⟩
  | succ turns ih =>
    rw [pairs_succ] at h
    split at h
    · rename_i c hoperator
      cases h
      rw [eq_skipBlanks_of_operator hoperator]
      exact ⟨text, left, nesting, hderives, hnesting, hadmitted, hpasses.skipBlanks, hdone⟩
    · rename_i k c hoperator
      obtain ⟨word, hword, hrest⟩ := exists_word_of_operator hoperator
      obtain ⟨u, hspelled, hcandidate⟩ := List.mem_map.1 hword
      obtain ⟨rfl, rfl⟩ := Prod.mk.inj hcandidate
      obtain ⟨_, s₁, hright, h⟩ := bind_eq_ok_iff.1 h
      obtain ⟨_, s₂, hjoin, h⟩ := bind_eq_ok_iff.1 h
      obtain ⟨text', right, nesting', hderives', hnesting', hadmitted', hpasses', hdone'⟩ :=
        htighter _ _ hright
      obtain ⟨blanks, hblanks, hbefore⟩ := hpasses.skipBlanks
      obtain ⟨more, hmore, hbehind⟩ := hpasses'
      obtain ⟨c₁, done₁⟩ := s₁
      dsimp only at hbehind hdone'
      rw [hdone] at hdone'
      subst hdone'
      have hjoined := join_apply connective.build? c₁ [right, left] base
        (connective.build?_pair left right)
      rw [List.cons_append, List.singleton_append] at hjoined
      rw [hjoined] at hjoin
      cases hjoin
      refine ih h rfl ⟨more, hmore, ?_⟩ (.join hderives hblanks hspelled hderives')
        (Nat.max_lt.2 ⟨hnesting, hnesting'⟩) ?_
      · rw [hbefore, hrest, hbehind]
        simp only [List.append_assoc]
      · rw [connective.tests_join]
        exact List.forall_mem_append.2 ⟨hadmitted, hadmitted'⟩

/-- A level is read as one phrase of the tighter kind and the pairs behind it. -/
lemma reads_level (connective : Connective)
    (htighter : Reads admitted limit connective.tighter tighter) :
    Reads admitted limit (.joined connective)
      (do
        let start ← Reader.mark
        tighter
        (grammar operand).pairs (level connective) tighter start turns) := by
  intro s s' h
  obtain ⟨start, s₀, hmark, h⟩ := bind_eq_ok_iff.1 h
  cases hmark
  obtain ⟨_, s₁, hfirst, hpairs⟩ := bind_eq_ok_iff.1 h
  obtain ⟨text, f, nesting, hderives, hnesting, hadmitted, hpasses, hdone⟩ := htighter _ _ hfirst
  exact exists_of_pairs htighter hpairs hdone hpasses (.simple hderives) hnesting
    hadmitted

/-- A phrase is read as alternatives of conjunctions of operands. -/
lemma reads_phrase (h : Reads admitted limit .operand operand) :
    Reads admitted limit (.joined .or) (grammar operand).phrase := by
  intro s s' hphrase
  obtain ⟨_, s₀, hget, hphrase⟩ := bind_eq_ok_iff.1 hphrase
  cases hget
  have hconjunctions : Reads admitted limit Connective.or.tighter
      ((grammar operand).climb s.cursor.rest.length [level .and]) := reads_level .and h
  exact reads_level .or hconjunctions s s' hphrase

/-- Whatever an operand reader accepts is an operand, as deep as it is allowed to be. -/
lemma reads_operandReader (htest : Reads admitted 1 .operand test) (limit allowance : ℕ) :
    Reads admitted (allowance + 1) .operand (operandReader limit test allowance) := by
  induction allowance with
  | zero =>
    have hnothing : ∀ p, Reads admitted 0 p (throw (.nestingTooDeep limit)) :=
      fun p s s' h => nomatch h
    exact reads_operandWith htest (hnothing _) (hnothing _)
  | succ allowance ih => exact reads_operandWith htest ih (reads_phrase ih)

/-- Whatever is read as a formula is one, and its tests can be asked of the row. -/
theorem reads_reader (limits : Limits) (hcount : fieldCount < largestField) :
    Reads (FieldTest.IsAdmitted limits.literalCapacity fieldCount) (limits.nestingLimit + 1)
      (.joined .or) (reader limits fieldCount) :=
  reads_phrase (reads_operandReader (reads_fieldTest hcount) _ _)

end Formula

end Reckon
