import Reckon.Outcome
import Reckon.Proofs.Formula.Grammar
import Reckon.Proofs.Source.Operator
import Reckon.Proofs.Source.Progress

/-!
# Reading filters

What the steps of a cursor and the readers of filters do, in terms of the text that is left.
-/

namespace Reckon

open Outcome

/-! ## Literals -/

namespace Cursor

variable {capacity opening used : ℕ} {text rest tail : List Char} {length : ℕ}

/-- A quoted literal is read back, if it is not too long and its closing quote is not doubled. -/
lemma literalFrom_quoted (h : used + utf8Length text ≤ capacity) (htail : tail.head? ≠ some '"') :
    literalFrom capacity opening used (Literal.doubleQuotes text ++ '"' :: tail) =
      .ok (text, (Literal.doubleQuotes text).length + 1) := by
  induction text generalizing used with
  | nil =>
    rcases tail with _ | ⟨d, tail⟩
    · rfl
    · have hd : d ≠ '"' := fun hd => htail (by rw [hd, List.head?_cons])
      rw [Literal.doubleQuotes, List.nil_append, literalFrom]
      · rfl
      · intro more hmore
        exact hd (List.cons.inj hmore).1
  | cons c text ih =>
    rw [utf8Length] at h
    by_cases hc : c = '"'
    · subst hc
      have hsize : ('"').utf8Size = 1 := by decide
      rw [hsize] at h
      rw [Literal.doubleQuotes, if_pos rfl, List.cons_append, List.cons_append, literalFrom,
        if_neg (by omega), ih (by omega)]
      rfl
    · rw [Literal.doubleQuotes, if_neg hc, List.cons_append, literalFrom, if_neg (by omega),
        ih (by omega)]
      · rfl
      · exact fun _ hquote _ => hc hquote
      · exact hc

/-- What is read is a literal that was quoted. -/
lemma quoted_of_literalFrom (h : literalFrom capacity opening used rest = .ok (text, length)) :
    ∃ tail, rest = Literal.doubleQuotes text ++ '"' :: tail ∧
      length = (Literal.doubleQuotes text).length + 1 ∧
      (used ≤ capacity → used + utf8Length text ≤ capacity) := by
  fun_induction literalFrom capacity opening used rest generalizing text length with
  | case1 | case2 | case5 => contradiction
  | case3 used rest hroom ih =>
    rcases hrest : literalFrom capacity opening (used + 1) rest with e | ⟨more, taken⟩
    · rw [hrest] at h
      contradiction
    · rw [hrest] at h
      obtain ⟨rfl, rfl⟩ := Prod.mk.inj (Except.ok.inj h)
      obtain ⟨tail, rfl, hlength, hcapacity⟩ := ih hrest
      have hsize : ('"').utf8Size = 1 := by decide
      refine ⟨tail, ?_, ?_, fun _ => ?_⟩
      · rw [Literal.doubleQuotes, if_pos rfl, List.cons_append, List.cons_append]
      · rw [Literal.doubleQuotes, if_pos rfl, List.length_cons, List.length_cons]
        dsimp only at hlength ⊢
        omega
      · have hmore := hcapacity (by omega)
        rw [utf8Length, hsize]
        dsimp only
        omega
  | case4 used tail _ =>
    obtain ⟨rfl, rfl⟩ := Prod.mk.inj (Except.ok.inj h)
    exact ⟨tail, rfl, rfl, id⟩
  | case6 used c rest _ hc hroom ih =>
    rcases hrest : literalFrom capacity opening (used + c.utf8Size) rest with e | ⟨more, taken⟩
    · rw [hrest] at h
      contradiction
    · rw [hrest] at h
      obtain ⟨rfl, rfl⟩ := Prod.mk.inj (Except.ok.inj h)
      obtain ⟨tail, rfl, hlength, hcapacity⟩ := ih hrest
      refine ⟨tail, ?_, ?_, fun _ => ?_⟩
      · rw [Literal.doubleQuotes, if_neg hc, List.cons_append]
      · rw [Literal.doubleQuotes, if_neg hc, List.length_cons]
        dsimp only at hlength ⊢
        omega
      · have hmore := hcapacity (by omega)
        rw [utf8Length]
        dsimp only
        omega

/-- A literal that is not too long is read, if its closing quote is not doubled. -/
lemma literal_of_quote {c : Cursor} (hrest : c.skipBlanks.rest = Literal.quote text ++ tail)
    (hle : utf8Length text ≤ capacity) (htail : tail.head? ≠ some '"') :
    c.literal capacity = (.ok (String.ofList text), c.skipBlanks.skip (Literal.quote text).length) ∧
      (c.skipBlanks.skip (Literal.quote text).length).rest = tail := by
  have hquote : Literal.quote text ++ tail = '"' :: (Literal.doubleQuotes text ++ '"' :: tail) := by
    rw [Literal.quote, List.cons_append, List.append_assoc, List.singleton_append]
  constructor
  · have hused : 0 + utf8Length text ≤ capacity := by omega
    have hread : literalFrom capacity c.skipBlanks.offset 0
        (Literal.doubleQuotes text ++ '"' :: tail) =
          .ok (text, (Literal.doubleQuotes text).length + 1) := literalFrom_quoted hused htail
    unfold Cursor.literal
    dsimp only
    rw [hrest, hquote]
    split
    · rename_i more heq
      obtain rfl := (List.cons.inj heq).2
      rw [hread, Literal.quote, List.length_cons, List.length_append]
      rfl
    · rename_i hnot
      exact absurd rfl (hnot _)
  · rw [skip, hrest, List.drop_left]

/-- What is read as a literal was quoted and is not too long. -/
lemma quote_of_literal {c c' : Cursor} {literal : String}
    (h : c.literal capacity = (.ok literal, c')) :
    c.skipBlanks.rest = Literal.quote literal.toList ++ c'.rest ∧
      utf8Length literal.toList ≤ capacity := by
  unfold Cursor.literal at h
  dsimp only at h
  split at h
  · rename_i rest hrest
    split at h
    · rename_i text length hread
      obtain ⟨htext, rfl⟩ := Prod.mk.inj h
      obtain rfl := Except.ok.inj htext
      obtain ⟨tail, rfl, rfl, hle⟩ := quoted_of_literalFrom hread
      rw [String.toList_ofList]
      have hquote : c.skipBlanks.rest = Literal.quote text ++ tail := by
        rw [hrest, Literal.quote, List.cons_append, List.append_assoc, List.singleton_append]
      have hlength : (Literal.doubleQuotes text).length + 1 + 1 = (Literal.quote text).length := by
        rw [Literal.quote, List.length_cons, List.length_append]
        rfl
      refine ⟨?_, by simpa using hle (Nat.zero_le _)⟩
      rw [hlength, skip, hquote, List.drop_left]
    · have herror := (Prod.mk.inj h).1
      contradiction
  · have herror := (Prod.mk.inj h).1
    contradiction

/-! ## Numbers of fields -/

variable {dollar : ℕ} {digits : List Char} {n : ℕ} {c c' : Cursor}

/-- Digits are read as far as they go. -/
lemma fieldNumber_of_digits (dollar : ℕ) (hrest : c.rest = digits ++ tail) (hne : digits ≠ [])
    (hdigits : ∀ d ∈ digits, d.isDigit = true)
    (htail : tail.takeWhile Char.isDigit = []) :
    fieldNumber dollar c = (.ok (min (digitsValue 10 digits) largestField), c.skip digits.length) ∧
      (c.skip digits.length).rest = tail := by
  have htake : c.rest.takeWhile Char.isDigit = digits := by
    rw [hrest, List.takeWhile_append_of_pos hdigits, htail, List.append_nil]
  constructor
  · unfold fieldNumber
    dsimp only
    rw [htake, if_neg (mt List.isEmpty_iff.1 hne)]
  · rw [skip, hrest, List.drop_left]

/-- The number of a field is written in digits. -/
lemma digits_of_fieldNumber (h : fieldNumber dollar c = (.ok n, c')) :
    ∃ digits, digits ≠ [] ∧ (∀ d ∈ digits, d.isDigit = true) ∧
      n = min (digitsValue 10 digits) largestField ∧ c.rest = digits ++ c'.rest := by
  unfold fieldNumber at h
  dsimp only at h
  split at h
  · exact nomatch (Prod.mk.inj h).1
  · rename_i hne
    obtain ⟨hn, rfl⟩ := Prod.mk.inj h
    refine ⟨_, mt List.isEmpty_iff.2 hne, List.all_eq_true.1 List.all_takeWhile,
      (Except.ok.inj hn).symm, ?_⟩
    rw [rest_skip_takeWhile, List.takeWhile_append_dropWhile]

end Cursor

/-! ## Readers -/

namespace Formula

variable {test inner group operand tighter : Reader Formula Unit} {c : Cursor}
  {done : List Formula}

/-- An operand is told by its first character. -/
lemma operandWith_apply (test inner group : Reader Formula Unit) (c : Cursor)
    (done : List Formula) :
    operandWith test inner group ⟨c, done⟩ =
      if c.peek = some '!' then
        (do inner; join negation? done.length) ⟨c.skipBlanks.skip 1, done⟩
      else if c.peek = some '(' then
        (do group; Reader.closeGroup c.skipBlanks.offset) ⟨c.skipBlanks.skip 1, done⟩
      else test ⟨c.skipBlanks, done⟩ := by
  have hposition : Reader.tokenPosition (⟨c, done⟩ : Progress Formula) =
      .ok c.skipBlanks.offset ⟨c.skipBlanks, done⟩ := rfl
  have hpeek : (⟨c.skipBlanks, done⟩ : Progress Formula).cursor.peek = c.peek := by
    rw [Cursor.peek, Cursor.skipBlanks_skipBlanks, Cursor.peek]
  rw [operandWith, bind_apply, hposition]
  dsimp only
  rw [bind_apply]
  by_cases hnot : c.peek = some '!'
  · rw [if_pos hnot, Reader.eat_of_peek_eq (hpeek.trans hnot)]
    dsimp only
    rw [if_pos rfl, Cursor.skipBlanks_skipBlanks]
    rfl
  · rw [if_neg hnot, Reader.eat_of_peek_ne (hpeek ▸ hnot)]
    dsimp only
    rw [if_neg Bool.false_ne_true, bind_apply, Cursor.skipBlanks_skipBlanks]
    by_cases hopen : c.peek = some '('
    · rw [if_pos hopen, Reader.eat_of_peek_eq (hpeek.trans hopen)]
      dsimp only
      rw [if_pos rfl, Cursor.skipBlanks_skipBlanks]
    · rw [if_neg hopen, Reader.eat_of_peek_ne (hpeek ▸ hopen)]
      dsimp only
      rw [if_neg Bool.false_ne_true, Cursor.skipBlanks_skipBlanks]

/-- The formulas since the mark are joined. -/
lemma join_apply (build : List Formula → Option Formula) (c : Cursor)
    (newer base : List Formula) {f : Formula} (h : build newer.reverse = some f) :
    join build base.length ⟨c, newer ++ base⟩ = .ok () ⟨c, f :: base⟩ := by
  have hreduce := Reader.reduceSince_apply build
    (fun _ => Error.filter "missing operand" c.offset) c newer base
  rw [h] at hreduce
  rw [join, bind_apply, get_apply]
  exact hreduce

/-- The operators of the level of a connective. -/
def level (connective : Connective) : List (Spelling × Connective) :=
  connective.words.map fun word => (word, connective)

/-- A pair of a connective and a phrase is read where the connective follows. -/
lemma pairs_succ (operand tighter : Reader Formula Unit)
    (operators : List (Spelling × Connective)) (start turns : ℕ) (s : Progress Formula) :
    (grammar operand).pairs operators tighter start (turns + 1) s =
      match s.cursor.operator connectives.vocabulary operators with
      | (none, c) => .ok () ⟨c, s.done⟩
      | (some k, c) =>
        (do
          tighter
          join k.build? start
          (grammar operand).pairs operators tighter start turns) ⟨c, s.done⟩ := by
  rw [Grammar.pairs, bind_apply, Reader.scan]
  rcases hoperator : s.cursor.operator (grammar operand).table.vocabulary operators with ⟨_ | k, c⟩
  · have hoperator' : s.cursor.operator connectives.vocabulary operators = (none, c) := hoperator
    rw [hoperator']
    rfl
  · have hoperator' : s.cursor.operator connectives.vocabulary operators = (some k, c) := hoperator
    rw [hoperator']
    rfl

/-- A test is a field that exists, a comparison and a literal. -/
lemma fieldTest_apply (literalCapacity fieldCount : ℕ) (c : Cursor) (done : List Formula) :
    fieldTest literalCapacity fieldCount ⟨c, done⟩ =
      if c.peek = some '$' then
        match Cursor.fieldNumber c.skipBlanks.offset (c.skipBlanks.skip 1) with
        | (.error e, c₁) => .error e ⟨c₁, done⟩
        | (.ok field, c₁) =>
          if field = 0 ∨ fieldCount < field then
            .error (.fieldOutOfRange field fieldCount) ⟨c₁, done⟩
          else
            match c₁.skipBlanks.operator (comparisons.map Prod.fst) comparisons with
            | (none, c₂) =>
              .error (.filter "expected '==', '!=', '~' or '!~'" c₁.skipBlanks.offset) ⟨c₂, done⟩
            | (some comparison, c₂) =>
              match c₂.literal literalCapacity with
              | (.error e, c₃) => .error e ⟨c₃, done⟩
              | (.ok literal, c₃) => .ok () ⟨c₃, .test ⟨field, comparison, literal⟩ :: done⟩
      else .error (Reader.unexpectedAt c) ⟨c.skipBlanks, done⟩ := by
  have hposition : Reader.tokenPosition (⟨c, done⟩ : Progress Formula) =
      .ok c.skipBlanks.offset ⟨c.skipBlanks, done⟩ := rfl
  have hpeek : (⟨c.skipBlanks, done⟩ : Progress Formula).cursor.peek = c.peek := by
    rw [Cursor.peek, Cursor.skipBlanks_skipBlanks, Cursor.peek]
  rw [fieldTest, bind_apply, hposition]
  dsimp only
  rw [bind_apply]
  by_cases hdollar : c.peek = some '$'
  · rw [if_pos hdollar, Reader.eat_of_peek_eq (hpeek.trans hdollar)]
    dsimp only
    rw [if_pos rfl, Cursor.skipBlanks_skipBlanks]
    rw [bind_apply, Reader.scanExcept]
    dsimp only
    rcases Cursor.fieldNumber c.skipBlanks.offset (c.skipBlanks.skip 1) with ⟨e | field, c₁⟩
    · rfl
    · dsimp only
      by_cases hfield : field = 0 ∨ fieldCount < field
      · rw [if_pos hfield, if_pos (by simpa using hfield)]
        rfl
      · rw [if_neg hfield, if_neg (by simpa using hfield), bind_apply]
        have hposition' : Reader.tokenPosition (⟨c₁, done⟩ : Progress Formula) =
            .ok c₁.skipBlanks.offset ⟨c₁.skipBlanks, done⟩ := rfl
        rw [hposition']
        dsimp only
        rw [bind_apply, Reader.scan]
        dsimp only
        rcases c₁.skipBlanks.operator (comparisons.map Prod.fst) comparisons with
          ⟨_ | comparison, c₂⟩
        · rfl
        · dsimp only
          rw [bind_apply, Reader.scanExcept]
          dsimp only
          rcases c₂.literal literalCapacity with ⟨e | literal, c₃⟩
          · rfl
          · rfl
  · rw [if_neg hdollar, Reader.eat_of_peek_ne (hpeek ▸ hdollar)]
    dsimp only
    rw [if_neg Bool.false_ne_true, bind_apply, Reader.unexpected_apply,
      Reader.unexpectedAt_skipBlanks, Reader.unexpectedAt_skipBlanks, Cursor.skipBlanks_skipBlanks,
        Cursor.skipBlanks_skipBlanks]

end Formula

end Reckon
