import Reckon.Outcome
import Reckon.Proofs.Expr.Grammar
import Reckon.Proofs.Source.Progress

/-!
# What readers do

The readers of expressions decide by the next token what to do.  Each of them is given here by what
it does with a progress, as a choice between the tokens that can come next: a token is passed, and
what follows is left to the readers of the parts.
-/

namespace Reckon

open Outcome

namespace Reader

variable {α : Type} {ch : Char}

/-- A mark is eaten if it is the next token. -/
lemma eat_apply (h : Cursor.IsMark ch) (s : Progress α) :
    eat ch s =
      if s.cursor.token? = some (.symbol [ch]) then .ok true ⟨s.cursor.past (.symbol [ch]), s.done⟩
      else .ok false ⟨s.cursor.skipBlanks, s.done⟩ := by
  unfold eat scan
  rw [Cursor.eat_eq _ h]
  split <;> rfl

/-- A mark that is expected is the next token, or an error. -/
lemma expect_apply (h : Cursor.IsMark ch) (s : Progress α) :
    expect ch s =
      if s.cursor.token? = some (.symbol [ch]) then .ok () ⟨s.cursor.past (.symbol [ch]), s.done⟩
      else .error (unexpectedAt s.cursor) ⟨s.cursor.skipBlanks, s.done⟩ := by
  simp only [expect, bind_apply, eat_apply h]
  by_cases htoken : s.cursor.token? = some (.symbol [ch])
  · simp only [if_pos htoken]
    rfl
  · simp only [if_neg htoken]
    simp [unexpected_apply]

/-- Where a group does not end, it is either unterminated or goes on with something unexpected. -/
def unclosed (opening : ℕ) (c : Cursor) : Error :=
  if c.atEnd then .unterminatedGroup opening else unexpectedAt c

/-- A group ends with a parenthesis that is the next token, or with an error. -/
lemma closeGroup_apply (opening : ℕ) (s : Progress α) :
    closeGroup opening s =
      if s.cursor.token? = some (.symbol [')']) then
        .ok () ⟨s.cursor.past (.symbol [')']), s.done⟩
      else .error (unclosed opening s.cursor) ⟨s.cursor.skipBlanks, s.done⟩ := by
  have hmark : Cursor.IsMark ')' := by unfold Cursor.IsMark; decide
  simp only [closeGroup, bind_apply, eat_apply hmark]
  by_cases htoken : s.cursor.token? = some (.symbol [')'])
  · simp only [if_pos htoken]
    rfl
  · simp only [if_neg htoken]
    by_cases hend : s.cursor.atEnd
    · simp only [Cursor.atEnd] at hend
      simp [unclosed, atEnd, scan, bind_apply, Cursor.atEnd, hend]
      rfl
    · simp only [Cursor.atEnd] at hend
      simp [unclosed, atEnd, scan, bind_apply, Cursor.atEnd, hend, unexpected_apply]

end Reader

namespace Expr

variable {operand branch inner group : Reader Expr Unit} {c : Cursor} {done : List Expr}

lemma isMark_open : Cursor.IsMark '(' := by unfold Cursor.IsMark; decide

lemma isMark_close : Cursor.IsMark ')' := by unfold Cursor.IsMark; decide

lemma isMark_comma : Cursor.IsMark ',' := by unfold Cursor.IsMark; decide

lemma isMark_question : Cursor.IsMark '?' := by unfold Cursor.IsMark; decide

lemma isMark_colon : Cursor.IsMark ':' := by unfold Cursor.IsMark; decide

/-- The results finished since the mark are the arguments. -/
lemma apply_apply (name : String) (m : Meaning) (c : Cursor) (newer base : List Expr) :
    apply name m base.length ⟨c, newer ++ base⟩ =
      match m.build? newer.reverse with
      | some e => .ok () ⟨c, e :: base⟩
      | none => .error (.argumentCount name m.arity newer.length) ⟨c, newer ++ base⟩ := by
  rw [apply, Reader.reduceSince_apply, List.length_reverse]
  cases m.build? newer.reverse <;> rfl

/-- A primary is told by its first token. -/
lemma primary_apply (group : Reader Expr Unit) (c : Cursor) (done : List Expr) :
    primary group ⟨c, done⟩ =
      match c.token? with
      | some (.numeral n) =>
        match n.value? with
        | some x => .ok () ⟨c.past (.numeral n), number x :: done⟩
        | none =>
          .error (.invalidNumber (String.ofList n.text) c.skipBlanks.offset) ⟨c.skipBlanks, done⟩
      | some (.name name) => named group name c.skipBlanks.offset ⟨c.past (.name name), done⟩
      | some (.symbol ['(']) =>
        (do group; Reader.closeGroup c.skipBlanks.offset) ⟨c.past (.symbol ['(']), done⟩
      | _ => .error (Reader.unexpectedAt c) ⟨c.skipBlanks, done⟩ := by
  simp only [primary, Reader.tokenPosition, bind_apply, Reader.scan, Reader.scanExcept,
    Cursor.number_eq, Cursor.token?_skipBlanks, Cursor.past_skipBlanks,
    Cursor.skipBlanks_skipBlanks]
  rcases htoken : c.token? with _ | ⟨n⟩ | ⟨name⟩ | ⟨s⟩
  · simp [Reader.eat_apply isMark_open, htoken, Cursor.name_eq, Reader.unexpected_apply,
      bind_apply, Reader.scan]
  · dsimp only
    cases n.value? <;> rfl
  · simp [Reader.eat_apply isMark_open, htoken, Cursor.name_eq, bind_apply, Reader.scan]
  · by_cases hs : s = ['(']
    · subst hs
      simp [Reader.eat_apply isMark_open, htoken, bind_apply]
    · simp [Reader.eat_apply isMark_open, htoken, hs, Cursor.name_eq, Reader.unexpected_apply,
        bind_apply, Reader.scan]

/-- A function needs an argument list. -/
lemma call_apply (group : Reader Expr Unit) (function : Builtin) (position : ℕ) (c : Cursor)
    (done : List Expr) :
    call group function position ⟨c, done⟩ =
      if c.token? = some (.symbol ['(']) then
        if (c.past (.symbol ['('])).token? = some (.symbol [')']) then
          apply function.name function.meaning done.length
            ⟨(c.past (.symbol ['('])).past (.symbol [')']), done⟩
        else
          (do
            arguments group c.skipBlanks.offset
              ((c.past (.symbol ['('])).skipBlanks.rest.length + 1)
            apply function.name function.meaning done.length)
            ⟨(c.past (.symbol ['('])).skipBlanks, done⟩
      else .error (.missingArguments function.name position) ⟨c.skipBlanks, done⟩ := by
  simp only [call, Reader.tokenPosition, bind_apply, Reader.scan, Reader.eat_apply isMark_open,
    Cursor.token?_skipBlanks, Cursor.past_skipBlanks, Cursor.skipBlanks_skipBlanks]
  by_cases hopen : c.token? = some (.symbol ['('])
  · simp only [if_pos hopen]
    by_cases hclose : (c.past (.symbol ['('])).token? = some (.symbol [')'])
    · simp [bind_apply, Reader.mark, Reader.eat_apply isMark_close, hclose]
    · simp [bind_apply, get_apply, Reader.mark, Reader.eat_apply isMark_close, hclose]
  · simp [if_neg hopen, bind_apply, throw_apply]

/-- After each argument follows a comma or the end of the list. -/
lemma arguments_succ (group : Reader Expr Unit) (opening turns : ℕ) (s : Progress Expr) :
    arguments group opening (turns + 1) s =
      match group s with
      | .ok () t =>
        if t.cursor.token? = some (.symbol [',']) then
          arguments group opening turns ⟨t.cursor.past (.symbol [',']), t.done⟩
        else Reader.closeGroup opening ⟨t.cursor.skipBlanks, t.done⟩
      | .error e t => .error e t := by
  simp only [arguments, bind_apply, Reader.eat_apply isMark_comma]
  cases group s with
  | error e t => rfl
  | ok _ t =>
    dsimp only
    by_cases hcomma : t.cursor.token? = some (.symbol [','])
    · simp [if_pos hcomma]
    · simp [if_neg hcomma]

/-- An operand is a primary unless it begins with a sign, which is one character. -/
lemma operandWith_apply (inner group : Reader Expr Unit) (c : Cursor) (done : List Expr) :
    operandWith inner group ⟨c, done⟩ =
      match c.token?.bind Token.sign? with
      | none => primary group ⟨c.skipBlanks, done⟩
      | some sign =>
        (do
          inner
          match sign with
          | none => pure ()
          | some f => apply f.mnemonic (.unary f) done.length)
          ⟨c.skipBlanks.skip 1, done⟩ := by
  simp only [operandWith, bind_apply, Reader.peek, Reader.scan, Cursor.sign_eq]
  cases c.token?.bind Token.sign? with
  | none => rfl
  | some sign => cases sign <;> rfl

/-- After a phrase of binary operators, a question mark begins the branches of a choice. -/
lemma expressionWith_apply (operand branch : Reader Expr Unit) (s : Progress Expr) :
    expressionWith operand branch s =
      match (grammar operand).climb s.cursor.rest.length binaryOperators.levels s with
      | .ok () t =>
        if t.cursor.token? = some (.symbol ['?']) then
          (do
            branch
            Reader.expect ':'
            branch
            Reader.reduceSince s.done.length choice? fun found =>
              .argumentCount "?:" 3 found.length)
            ⟨t.cursor.past (.symbol ['?']), t.done⟩
        else .ok () ⟨t.cursor.skipBlanks, t.done⟩
      | .error e t => .error e t := by
  simp only [expressionWith, Reader.mark, bind_apply, Grammar.phrase, get_apply,
    Reader.eat_apply isMark_question]
  simp only [grammar]
  cases Grammar.climb _ s.cursor.rest.length binaryOperators.levels s with
  | error e t => rfl
  | ok _ t =>
    dsimp only
    by_cases hquestion : t.cursor.token? = some (.symbol ['?'])
    · simp [if_pos hquestion, bind_apply]
    · simp [if_neg hquestion, pure_apply]

/-- The operators of each level are in the vocabulary. -/
lemma mem_vocabulary_of_mem_levels : ∀ operators ∈ binaryOperators.levels,
    ∀ candidate ∈ operators, candidate.1 ∈ binaryOperators.vocabulary := by
  decide

/-- An operator of the level is followed by another operand of the tighter levels. -/
lemma pairs_succ (operand : Reader Expr Unit) {operators : List (Spelling × BinaryOp)}
    (h : ∀ candidate ∈ operators, candidate.1 ∈ binaryOperators.vocabulary)
    (tighter : Reader Expr Unit) (start turns : ℕ) (c : Cursor) (done : List Expr) :
    (grammar operand).pairs operators tighter start (turns + 1) ⟨c, done⟩ =
      match c.token? with
      | some (.symbol s) =>
        match operators.find? (fun candidate => candidate.1 = s) with
        | none => .ok () ⟨c.skipBlanks, done⟩
        | some candidate =>
          (do
            tighter
            apply candidate.2.mnemonic (.binary candidate.2) start
            (grammar operand).pairs operators tighter start turns) ⟨c.past (.symbol s), done⟩
      | _ => .ok () ⟨c.skipBlanks, done⟩ := by
  have hvocabulary : (grammar operand).table.vocabulary = binaryOperators.vocabulary := rfl
  rw [Grammar.pairs, bind_apply, Reader.scan]
  simp only [hvocabulary, Cursor.operator_eq c h]
  rcases c.token? with _ | ⟨n⟩ | ⟨name⟩ | ⟨s⟩
  · rfl
  · rfl
  · rfl
  · dsimp only
    cases operators.find? (fun candidate => candidate.1 = s) <;> rfl

end Expr

end Reckon
