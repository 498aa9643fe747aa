import Reckon.Expr.OnePass
import Reckon.Proofs.Expr.Reading

/-!
# What translations do

The parts of a translation decide by the next token what to do, as the readers of expressions do.
Each of them is given here by what it does where the translation stands, as a choice between the
tokens that can come next: the call is noted, a token is passed, and what follows is left to the
other parts.
-/

namespace Reckon.Translation

open CompileOptions

variable {α β : Type} {o : CompileOptions} {depth : ℕ} {calls : List Entry}

/-! ## Steps -/

/-- The translation with its cursor moved. -/
def moveTo (t : Translation) (c : Cursor) : Translation := { t with cursor := c }

/-- The translation with another event in its log. -/
def noted (t : Translation) (event : Event) : Translation :=
  { t with log := ⟨event, t.cursor, t.workplace.program⟩ :: t.log }

/-- The translation inside of these calls, the first of which it has just entered. -/
def entered (t : Translation) (calls : List Entry) : Translation := t.noted (.entering calls)

section

variable (t : Translation) (c d : Cursor)

/-- A cursor that is moved is where it was moved to. -/
@[simp] lemma cursor_moveTo : (t.moveTo c).cursor = c := rfl

/-- Of two moves the last one counts. -/
@[simp] lemma moveTo_moveTo : (t.moveTo c).moveTo d = t.moveTo d := rfl

/-- To enter a call does not move the cursor. -/
@[simp] lemma cursor_entered : (t.entered calls).cursor = t.cursor := rfl

end

/-- The second translation begins where the first one has ended, unless this has failed. -/
lemma bind_apply (x : Translating α) (f : α → Translating β) (t : Translation) :
    (x >>= f) t = match x t with
      | none => none
      | some (.ok a, t') => f a t'
      | some (.error e, t') => some (.error e, t') := by
  show ExceptT.bind x f t = _
  unfold ExceptT.bind ExceptT.mk
  show (x t).bind _ = _
  rcases x t with _ | ⟨_ | _, _⟩ <;> rfl

/-- To mark the program is to answer with it. -/
lemma mark_apply (t : Translation) : mark t = some (.ok t.workplace.program, t) := rfl

/-- A note is added to the log. -/
lemma note_apply (event : Event) (t : Translation) :
    note event t = some (.ok (), t.noted event) := rfl

/-- A call that is entered is put before the others and noted. -/
lemma enter_apply (station : Station) (calls : List Entry) (t : Translation) :
    enter station calls t =
      some (.ok (⟨station, t.cursor⟩ :: calls), t.entered (⟨station, t.cursor⟩ :: calls)) := rfl

/-- Nesting goes one deeper, up to the limit. -/
lemma nest_apply (o : CompileOptions) (depth : ℕ) (t : Translation) :
    nest o depth t =
      if depth < o.nestingLimit then some (.ok (depth + 1), t)
      else some (.error (.nestingTooDeep o.nestingLimit), t) := by
  unfold nest
  split <;> rfl

/-- Where the program ends is the same before and behind the check of the nesting. -/
lemma nest_mark_apply (o : CompileOptions) (depth : ℕ) (x : ℕ → Translating α)
    (finish : Program → Translating β) (t : Translation) :
    (do
      let depth ← nest o depth
      let before ← mark
      let _ ← x depth
      finish before : Translating β) t =
    ((nest o depth >>= x) >>= fun _ => finish t.workplace.program) t := by
  rw [bind_assoc, bind_apply, bind_apply, nest_apply]
  by_cases hdepth : depth < o.nestingLimit
  · rw [if_pos hdepth]
    rfl
  · rw [if_neg hdepth]

/-- A step of the cursor moves it, and nothing else. -/
lemma scan_apply (step : Cursor → β × Cursor) (t : Translation) :
    reading (Reader.scan step) t = some (.ok (step t.cursor).1, t.moveTo (step t.cursor).2) := rfl

/-- A step of the cursor that may fail moves it all the same. -/
lemma scanExcept_apply (step : Cursor → Except Error β × Cursor) (t : Translation) :
    reading (Reader.scanExcept step) t =
      some ((step t.cursor).1, t.moveTo (step t.cursor).2) := by
  unfold reading Reader.scanExcept
  dsimp only
  rcases step t.cursor with ⟨_ | _, c⟩ <;> rfl

/-- What is unexpected is reported where it stands, behind the blanks. -/
lemma unexpected_apply (t : Translation) :
    (reading Reader.unexpected : Translating β) t =
      some (.error (Reader.unexpectedAt t.cursor), t.moveTo t.cursor.skipBlanks) := rfl

/-- A mark is eaten if it is the next token. -/
lemma eat_apply {ch : Char} (h : Cursor.IsMark ch) (t : Translation) :
    reading (Reader.eat ch) t =
      if t.cursor.token? = some (.symbol [ch]) then
        some (.ok true, t.moveTo (t.cursor.past (.symbol [ch])))
      else some (.ok false, t.moveTo t.cursor.skipBlanks) := by
  unfold reading
  rw [Reader.eat_apply h]
  by_cases htoken : t.cursor.token? = some (.symbol [ch])
  · simp only [if_pos htoken]
    rfl
  · simp only [if_neg htoken]
    rfl

/-- A mark that is expected is the next token, or an error. -/
lemma expect_apply {ch : Char} (h : Cursor.IsMark ch) (t : Translation) :
    reading (Reader.expect ch) t =
      if t.cursor.token? = some (.symbol [ch]) then
        some (.ok (), t.moveTo (t.cursor.past (.symbol [ch])))
      else some (.error (Reader.unexpectedAt t.cursor), t.moveTo t.cursor.skipBlanks) := by
  unfold reading
  rw [Reader.expect_apply h]
  by_cases htoken : t.cursor.token? = some (.symbol [ch])
  · simp only [if_pos htoken]
    rfl
  · simp only [if_neg htoken]
    rfl

/-- A group ends with a parenthesis that is the next token, or with an error. -/
lemma closeGroup_apply (opening : ℕ) (t : Translation) :
    reading (Reader.closeGroup opening) t =
      if t.cursor.token? = some (.symbol [')']) then
        some (.ok (), t.moveTo (t.cursor.past (.symbol [')'])))
      else some (.error (Reader.unclosed opening t.cursor), t.moveTo t.cursor.skipBlanks) := by
  unfold reading
  rw [Reader.closeGroup_apply]
  by_cases htoken : t.cursor.token? = some (.symbol [')'])
  · simp only [if_pos htoken]
    rfl
  · simp only [if_neg htoken]
    rfl

/-! ## Phrases -/

/-- An expression is its levels and then, behind a question mark, two branches. -/
lemma expression_apply (o : CompileOptions) (depth : ℕ) (calls : List Entry) (t : Translation) :
    expression o depth calls t =
      let inside := ⟨.expression, t.cursor⟩ :: calls
      (do
        let depth ← nest o depth
        let before ← mark
        climb o depth inside Expr.binaryOperators.levels
        if ← reading (Reader.eat '?') then
          expression o depth inside
          reading (Reader.expect ':')
          expression o depth inside
          emitFolding o .choice before) (t.entered inside) := by
  rw [expression, bind_apply, enter_apply]

/-- A level is an operand of the next tighter level, and then its pairs. -/
lemma climb_cons_apply (o : CompileOptions) (depth : ℕ) (calls : List Entry)
    (operators : List (Spelling × BinaryOp)) (tighter : List (List (Spelling × BinaryOp)))
    (t : Translation) :
    climb o depth calls (operators :: tighter) t =
      let inside := ⟨.levels (tighter.length + 1), t.cursor⟩ :: calls
      (do
        climb o depth inside tighter
        operations o depth inside operators tighter t.workplace.program) (t.entered inside) := by
  rw [climb, bind_apply, enter_apply]
  dsimp only
  rw [bind_apply, mark_apply]
  rfl

/-- An operator of the level is followed by another operand of the tighter levels. -/
lemma operations_apply (o : CompileOptions) (depth : ℕ) (calls : List Entry)
    {operators : List (Spelling × BinaryOp)}
    (h : ∀ candidate ∈ operators, candidate.1 ∈ Expr.binaryOperators.vocabulary)
    (tighter : List (List (Spelling × BinaryOp))) (before : Program) (t : Translation) :
    operations o depth calls operators tighter before t =
      let inside := ⟨.operator, t.cursor⟩ :: calls
      match t.cursor.token? with
      | some (.symbol s) =>
        match operators.find? (fun candidate => candidate.1 = s) with
        | none => some (.ok (), (t.entered inside).moveTo t.cursor.skipBlanks)
        | some candidate =>
          (do
            climb o depth inside tighter
            note (.reducing before)
            emitFolding o (.binary candidate.2) before
            operations o depth inside operators tighter before)
            ((t.entered inside).moveTo (t.cursor.past (.symbol s)))
      | _ => some (.ok (), (t.entered inside).moveTo t.cursor.skipBlanks) := by
  rw [operations, bind_apply, enter_apply]
  dsimp only
  rw [bind_apply, scan_apply]
  simp only [cursor_entered, Cursor.operator_eq t.cursor h]
  rcases t.cursor.token? with _ | ⟨n⟩ | ⟨name⟩ | ⟨s⟩
  · rfl
  · rfl
  · rfl
  · dsimp only
    cases operators.find? (fun candidate => candidate.1 = s) <;> rfl

/-- An operand is a primary unless it begins with a sign, which is one character. -/
lemma operand_apply (o : CompileOptions) (depth : ℕ) (calls : List Entry) (t : Translation) :
    operand o depth calls t =
      let inside := ⟨.operand, t.cursor⟩ :: calls
      match t.cursor.token?.bind Token.sign? with
      | none => primary o depth inside ((t.entered inside).moveTo t.cursor.skipBlanks)
      | some sign =>
        (do
          let depth ← nest o depth
          let before ← mark
          operand o depth inside
          match sign with
          | none => pure ()
          | some f => emitFolding o (.unary f) before)
          ((t.entered inside).moveTo (t.cursor.skipBlanks.skip 1)) := by
  rw [operand, bind_apply, enter_apply]
  dsimp only
  rw [bind_apply, Reader.peek, scan_apply]
  simp only [cursor_entered, Cursor.sign_eq]
  rcases t.cursor.token?.bind Token.sign? with _ | _ | f
  · rfl
  · rfl
  · rfl

/-- A primary is told by its first token. -/
lemma primary_apply (o : CompileOptions) (depth : ℕ) (calls : List Entry) (t : Translation) :
    primary o depth calls t =
      match t.cursor.token? with
      | some (.numeral n) =>
        match n.value? with
        | some x => emit (.const x) (t.moveTo (t.cursor.past (.numeral n)))
        | none =>
          some (.error (.invalidNumber (String.ofList n.text) t.cursor.skipBlanks.offset),
            t.moveTo t.cursor.skipBlanks)
      | some (.name name) =>
        named o depth calls name t.cursor.skipBlanks.offset (t.moveTo (t.cursor.past (.name name)))
      | some (.symbol ['(']) =>
        (do
          expression o depth calls
          reading (Reader.closeGroup t.cursor.skipBlanks.offset))
          (t.moveTo (t.cursor.past (.symbol ['('])))
      | _ => some (.error (Reader.unexpectedAt t.cursor), t.moveTo t.cursor.skipBlanks) := by
  rw [primary, bind_apply, Reader.tokenPosition, scan_apply]
  dsimp only
  rw [bind_apply, scanExcept_apply, cursor_moveTo, moveTo_moveTo, Cursor.number_eq,
    Cursor.token?_skipBlanks]
  rcases htoken : t.cursor.token? with _ | ⟨n⟩ | ⟨name⟩ | ⟨s⟩
  · simp [bind_apply, eat_apply Expr.isMark_open, htoken, scan_apply, Cursor.name_eq,
      unexpected_apply]
  · dsimp only
    cases n.value? <;> simp
  · simp [bind_apply, eat_apply Expr.isMark_open, htoken, scan_apply, Cursor.name_eq]
  · by_cases hs : s = ['(']
    · subst hs
      simp [bind_apply, eat_apply Expr.isMark_open, htoken]
    · simp [bind_apply, eat_apply Expr.isMark_open, htoken, hs, scan_apply, Cursor.name_eq,
        unexpected_apply]

/-- A function needs an argument list. -/
lemma application_apply (o : CompileOptions) (depth : ℕ) (calls : List Entry) (function : Builtin)
    (position : ℕ) (t : Translation) :
    application o depth calls function position t =
      let finish := fun found : ℕ => (do
        unless found = function.meaning.arity do
          throw (.argumentCount function.name function.meaning.arity found)
        emitFolding o function.meaning.instruction t.workplace.program : Translating Unit)
      if t.cursor.token? = some (.symbol ['(']) then
        if (t.cursor.past (.symbol ['('])).token? = some (.symbol [')']) then
          finish 0 (t.moveTo ((t.cursor.past (.symbol ['('])).past (.symbol [')'])))
        else
          (arguments o depth calls t.cursor.skipBlanks.offset 0 >>= finish)
            (t.moveTo (t.cursor.past (.symbol ['('])).skipBlanks)
      else
        some (.error (.missingArguments function.name position), t.moveTo t.cursor.skipBlanks) := by
  rw [application, bind_apply, Reader.tokenPosition, scan_apply]
  dsimp only
  rw [bind_apply, eat_apply Expr.isMark_open, cursor_moveTo, Cursor.token?_skipBlanks,
    Cursor.past_skipBlanks, Cursor.skipBlanks_skipBlanks, moveTo_moveTo, moveTo_moveTo]
  by_cases hopen : t.cursor.token? = some (.symbol ['('])
  · rw [if_pos hopen, if_pos hopen]
    dsimp only
    rw [if_pos rfl, bind_apply, mark_apply]
    dsimp only
    rw [bind_apply, eat_apply Expr.isMark_close, cursor_moveTo, moveTo_moveTo, moveTo_moveTo]
    by_cases hclose : (t.cursor.past (.symbol ['('])).token? = some (.symbol [')'])
    · rw [if_pos hclose, if_pos hclose]
      rfl
    · rw [if_neg hclose, if_neg hclose]
      rfl
  · rw [if_neg hopen, if_neg hopen]
    rfl

/-- After each argument follows a comma or the end of the list. -/
lemma arguments_apply (o : CompileOptions) (depth : ℕ) (calls : List Entry) (opening found : ℕ)
    (t : Translation) :
    arguments o depth calls opening found t =
      let inside := ⟨.argument, t.cursor⟩ :: calls
      match expression o depth inside (t.entered inside) with
      | some (.ok (), t') =>
        if t'.cursor.token? = some (.symbol [',']) then
          arguments o depth inside opening (found + 1)
            (t'.moveTo (t'.cursor.past (.symbol [','])))
        else
          (do
            reading (Reader.closeGroup opening)
            pure (found + 1)) (t'.moveTo t'.cursor.skipBlanks)
      | some (.error e, t') => some (.error e, t')
      | none => none := by
  rw [arguments, bind_apply, enter_apply]
  dsimp only
  rw [bind_apply]
  rcases expression o depth (⟨.argument, t.cursor⟩ :: calls) _ with _ | ⟨_ | _, t'⟩
  · rfl
  · rfl
  · dsimp only
    rw [bind_apply, eat_apply Expr.isMark_comma]
    by_cases hcomma : t'.cursor.token? = some (.symbol [','])
    · simp only [if_pos hcomma, if_true]
    · simp only [if_neg hcomma, Bool.false_eq_true, if_false]

end Reckon.Translation
