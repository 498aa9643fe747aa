import Reckon.Proofs.Expr.Installation
import Reckon.Proofs.Expr.OnePass
import Reckon.Proofs.Expr.PhraseCode

/-!
# What is folded is the code of a phrase

A phrase notes where the program ends before it reads its first part, and folds what has been
emitted since. In between other phrases do the same further behind: they fold and emit, one inside
of the other, and each changes only what it has emitted itself.  So a translation that has come from
another one has the code of that one at the front of its program, now and at every moment since, and
behind it stands the code of what has been read since (`Translation.Adds`).

When a phrase comes to its end, this is the code of one expression (`Translation.AddsPhrase`).
Hence all that is ever folded is the complete code of the expression just read, and all that an
operator joins is the code of its two operands (`Translation.compile_folds_phrases`): a trial run
may find no room on the stack, but it never lacks an operand and never leaves more than one value.
-/

namespace Reckon

open CompileOptions Instruction Outcome Reckon.Expr

/-! ## Places -/

namespace Cursor

variable {c d : Cursor} {ts : List Lexeme}

/-- How much of the source is left behind the blanks. -/
def remaining (c : Cursor) : ℕ := c.skipBlanks.rest.length

/-- Blanks that are skipped do not count as left. -/
lemma remaining_skipBlanks (c : Cursor) : c.skipBlanks.remaining = c.remaining := by
  rw [remaining, remaining, skipBlanks_skipBlanks]

/-- Every token that is read takes at least one character from what is left. -/
lemma length_add_remaining_le (h : Lexes c ts d) : ts.length + d.remaining ≤ c.remaining :=
  (h.congr_left c.skipBlanks_skipBlanks.symm).length_add_le

/-- Reading tokens leaves no more than there was. -/
lemma remaining_le (h : Lexes c ts d) : d.remaining ≤ c.remaining :=
  Nat.le_trans (Nat.le_add_left _ _) (length_add_remaining_le h)

/-- Past a token less is left than before it. -/
lemma remaining_past_lt {t : Token} (h : c.token? = some t) : (c.past t).remaining < c.remaining :=
  Nat.lt_of_succ_le ((Nat.succ_eq_one_add _).le.trans (length_add_remaining_le (.single h)))

/-- Past a sign less is left than before it. -/
lemma remaining_sign_lt {sign : Option UnaryOp} (h : c.token?.bind Token.sign? = some sign) :
    (c.skipBlanks.skip 1).remaining < c.remaining := by
  obtain ⟨t, htoken, -⟩ := Option.bind_eq_some_iff.1 h
  have hpos : 0 < c.remaining := List.length_pos_iff.2 (skipBlanks_rest_ne_nil htoken)
  refine Nat.lt_of_le_of_lt (length_skipBlanks_le _) ?_
  rw [skip, List.length_drop]
  exact Nat.sub_lt hpos Nat.one_pos

end Cursor

/-! ## Moments -/

/-- Whether code is that of the expression between two places of the source. -/
def IsCodeBetween (symbols : SymbolTable) (c d : Cursor) (code : List Instruction) : Prop :=
  ∃ ts tree, Lexes c ts d ∧ Derives .expression ts tree ∧ IsCodeOf symbols [tree.expr] code

/-- The code of an expression stays its code when names are added to the table. -/
lemma IsCodeBetween.mono {symbols symbols' : SymbolTable} {c d : Cursor} {code : List Instruction}
    (h : IsCodeBetween symbols c d code) (hextends : symbols'.Extends symbols) :
    IsCodeBetween symbols' c d code := by
  obtain ⟨ts, tree, hlexes, hderives, hcode⟩ := h
  exact ⟨ts, tree, hlexes, hderives, hcode.mono hextends⟩

/-- The code of an expression is complete. -/
lemma IsCodeBetween.isComplete {symbols : SymbolTable} {c d : Cursor} {code : List Instruction}
    (h : IsCodeBetween symbols c d code) : IsComplete code := by
  obtain ⟨_, _, _, _, hcode⟩ := h
  exact hcode.isComplete

namespace Moment

/-- Whether a call was entered at a moment when this was the program, all of which has stayed
since. -/
structure IsStartOf (first : Moment) (before : Program) (earlier : List Moment) : Prop where
  exists_calls : ∃ calls, first.event = .entering calls
  program_eq : first.program = before
  exists_between : ∃ between older, earlier = between ++ first :: older ∧
    ∀ m ∈ between, before.code.toList <+: m.program.code.toList

/-- Whether what is folded at a moment is the code of what has been read since it began, and what is
joined by an operator that of its operands. -/
structure IsOrderly (symbols : SymbolTable) (m : Moment) (earlier : List Moment) : Prop where
  folding : ∀ before, m.event = .folding before → ∃ (first : Moment) (code : List Instruction),
    first.IsStartOf before earlier ∧ m.program.code.toList = before.code.toList ++ code ∧
    IsCodeBetween symbols first.cursor m.cursor code
  reducing : ∀ before, m.event = .reducing before →
    ∃ (first : Moment) (left right : List Instruction) (stop : Cursor) (s : Spelling),
    first.IsStartOf before earlier ∧
    m.program.code.toList = before.code.toList ++ (left ++ right) ∧
    s ∈ binaryOperators.vocabulary ∧ stop.token? = some (.symbol s) ∧
    IsCodeBetween symbols first.cursor stop left ∧
    IsCodeBetween symbols (stop.past (.symbol s)) m.cursor right

/-- What was in order at a moment stays in order when names are added to the table. -/
lemma IsOrderly.mono {symbols symbols' : SymbolTable} {m : Moment} {earlier : List Moment}
    (h : m.IsOrderly symbols earlier) (hextends : symbols'.Extends symbols) :
    m.IsOrderly symbols' earlier where
  folding before hevent := by
    obtain ⟨first, code, hfirst, hcode, hbetween⟩ := h.folding before hevent
    exact ⟨first, code, hfirst, hcode, hbetween.mono hextends⟩
  reducing before hevent := by
    obtain ⟨first, left, right, stop, s, hfirst, hcode, hmem, htoken, hleft, hright⟩ :=
      h.reducing before hevent
    exact ⟨first, left, right, stop, s, hfirst, hcode, hmem, htoken, hleft.mono hextends,
      hright.mono hextends⟩

end Moment

namespace Translation

variable {α β : Type} {o : CompileOptions} {t₀ t₁ t : Translation} {ts us : List Lexeme}
  {es fs : List Expr} {e : Expr} {tree : Tree} {c : Cursor} {calls : List Entry} {i : Instruction}
  {event : Event}

/-! ## From one translation to another -/

/-- Whether at every moment so far the right code was folded or joined. -/
def IsOrderly (t : Translation) : Prop :=
  ∀ m earlier, m :: earlier <:+ t.log → m.IsOrderly t.workplace.symbols earlier

/-- Whether a translation has come from another one by reading tokens and emitting the code of
expressions, while nothing that was there has changed. -/
structure Adds (t₀ t : Translation) (ts : List Lexeme) (es : List Expr) : Prop where
  lexes : Lexes t₀.cursor ts t.cursor
  extendsSymbols : t.workplace.symbols.Extends t₀.workplace.symbols
  exists_code : ∃ code,
    t.workplace.program.code.toList = t₀.workplace.program.code.toList ++ code ∧
    IsCodeOf t.workplace.symbols es code
  exists_log : ∃ recent, t.log = recent ++ t₀.log ∧
    ∀ m ∈ recent, t₀.workplace.program.code.toList <+: m.program.code.toList

/-- Whether the last thing that happened is that a call was entered. -/
def HasJustEntered (t : Translation) : Prop :=
  ∃ calls older, t.log = ⟨.entering calls, t.cursor, t.workplace.program⟩ :: older

/-- An entry is the last thing that has happened right after it. -/
lemma hasJustEntered_entered (t : Translation) (calls : List Entry) :
    (t.entered calls).HasJustEntered := ⟨calls, t.log, rfl⟩

namespace IsOrderly

/-- An event that is in order may be added to the log. -/
lemma noted (h : t.IsOrderly)
    (hmoment : Moment.IsOrderly t.workplace.symbols ⟨event, t.cursor, t.workplace.program⟩ t.log) :
    (t.noted event).IsOrderly := by
  intro m earlier hsuffix
  rcases List.suffix_cons_iff.1 hsuffix with heq | hsuffix
  · obtain ⟨rfl, rfl⟩ := List.cons.inj heq
    exact hmoment
  · exact h m earlier hsuffix

/-- A call may be entered at any moment. -/
lemma entered (h : t.IsOrderly) (calls : List Entry) : (t.entered calls).IsOrderly :=
  h.noted ⟨nofun, nofun⟩

/-- An instruction may be emitted at any moment. -/
lemma emitted (h : t.IsOrderly) (i : Instruction) : (t.noted (.emitted i)).IsOrderly :=
  h.noted ⟨nofun, nofun⟩

/-- The place in the source has no part in the order of what happened. -/
lemma moveTo (h : t.IsOrderly) (c : Cursor) : (t.moveTo c).IsOrderly := h

/-- A table to which names were added keeps everything in order. -/
lemma withWorkplace (h : t.IsOrderly) {w : Workplace}
    (hextends : w.symbols.Extends t.workplace.symbols) :
    ({ t with workplace := w } : Translation).IsOrderly :=
  fun m earlier hsuffix => (h m earlier hsuffix).mono hextends

end IsOrderly

namespace Adds

/-- To read tokens is to add nothing. -/
lemma of_lexes (h : Lexes t.cursor ts c) : Adds t (t.moveTo c) ts [] where
  lexes := h
  extendsSymbols := .refl _
  exists_code := ⟨[], (List.append_nil _).symm, .nil⟩
  exists_log := ⟨[], rfl, List.forall_mem_nil _⟩

/-- Where nothing is done nothing is added. -/
lemma refl (t : Translation) : Adds t t [] [] := of_lexes (.stop rfl)

/-- What is added in two stages is added. -/
lemma trans (h : Adds t₀ t₁ ts es) (h' : Adds t₁ t us fs) : Adds t₀ t (ts ++ us) (es ++ fs) where
  lexes := h.lexes.append h'.lexes
  extendsSymbols := h'.extendsSymbols.trans h.extendsSymbols
  exists_code := by
    obtain ⟨code, hprogram, hcode⟩ := h.exists_code
    obtain ⟨code', hprogram', hcode'⟩ := h'.exists_code
    refine ⟨code ++ code', ?_, (hcode.mono h'.extendsSymbols).append hcode'⟩
    rw [hprogram', hprogram, List.append_assoc]
  exists_log := by
    obtain ⟨code, hprogram, -⟩ := h.exists_code
    obtain ⟨recent, hlog, hrecent⟩ := h.exists_log
    obtain ⟨recent', hlog', hrecent'⟩ := h'.exists_log
    refine ⟨recent' ++ recent, by rw [hlog', hlog, List.append_assoc], ?_⟩
    -- at the later moments all of the program of `t₁` was in front, and so what stands in front of
    -- it
    have hprefix : t₀.workplace.program.code.toList <+: t₁.workplace.program.code.toList :=
      ⟨code, hprogram.symm⟩
    exact List.forall_mem_append.2 ⟨fun m hm => hprefix.trans (hrecent' m hm), hrecent⟩

/-- More tokens can be read behind what was added. -/
lemma moveTo (h : Adds t₀ t ts es) (hlexes : Lexes t.cursor us c) :
    Adds t₀ (t.moveTo c) (ts ++ us) es :=
  List.append_nil es ▸ h.trans (.of_lexes hlexes)

/-- Blanks can be skipped behind what was added. -/
lemma skipBlanks (h : Adds t₀ t ts es) : Adds t₀ (t.moveTo t.cursor.skipBlanks) ts es :=
  { h with lexes := h.lexes.congr_right t.cursor.skipBlanks_skipBlanks.symm }

/-- What was read since may begin further in front. -/
lemma of_moveTo (h : Adds (t₀.moveTo c) t ts es) (hlexes : Lexes t₀.cursor us t.cursor) :
    Adds t₀ t us es :=
  { h with lexes := hlexes }

/-- Notes change nothing of the program. -/
lemma noted (h : Adds t₀ t ts es) (event : Event) : Adds t₀ (t.noted event) ts es :=
  { h with
    exists_log := by
      obtain ⟨code, hprogram, -⟩ := h.exists_code
      obtain ⟨recent, hlog, hrecent⟩ := h.exists_log
      refine ⟨⟨event, t.cursor, t.workplace.program⟩ :: recent, ?_, ?_⟩
      · rw [List.cons_append, ← hlog]
        rfl
      · exact List.forall_mem_cons.2 ⟨⟨code, hprogram.symm⟩, hrecent⟩ }

/-- A call can be entered behind what was added. -/
lemma entered (h : Adds t₀ t ts es) (calls : List Entry) : Adds t₀ (t.entered calls) ts es :=
  h.noted _

/-- More names are known. -/
lemma withSymbols (h : Adds t₀ t ts es) {symbols : SymbolTable}
    (hextends : symbols.Extends t.workplace.symbols) :
    Adds t₀ { t with workplace := { t.workplace with symbols := symbols } } ts es :=
  { h with
    extendsSymbols := hextends.trans h.extendsSymbols
    exists_code := by
      obtain ⟨code, hprogram, hcode⟩ := h.exists_code
      exact ⟨code, hprogram, hcode.mono hextends⟩ }

/-- Other code in the place of what was emitted since. -/
lemma withProgram (h : Adds t₀ t ts es) {p : Program} {code : List Instruction}
    (hprogram : p.code.toList = t₀.workplace.program.code.toList ++ code)
    (hcode : IsCodeOf t.workplace.symbols fs code) :
    Adds t₀ { t with workplace := { t.workplace with program := p } } ts fs :=
  { h with exists_code := ⟨code, hprogram, hcode⟩ }

/-- What was there when a call was entered has stayed since. -/
lemma exists_isStartOf (h : Adds t₀ t ts es) (hentered : t₀.HasJustEntered) :
    ∃ first : Moment, first.cursor = t₀.cursor ∧ first.IsStartOf t₀.workplace.program t.log := by
  obtain ⟨calls, older, hold⟩ := hentered
  obtain ⟨recent, hlog, hrecent⟩ := h.exists_log
  exact ⟨_, rfl, ⟨calls, rfl⟩, rfl, recent, older, by rw [hlog, hold], hrecent⟩

end Adds

/-! ## Outcomes -/

/-- An outcome with nothing out of order, which is of some kind if it is a success. -/
inductive Reaches {β : Type} (P : β → Translation → Prop) :
    Option (Except Error β × Translation) → Prop
  | ok {b : β} {t : Translation} : t.IsOrderly → P b t → Reaches P (some (.ok b, t))
  | error {e : Error} {t : Translation} : t.IsOrderly → Reaches P (some (.error e, t))

namespace Reaches

variable {P P' : β → Translation → Prop} {Q : α → Translation → Prop} {x : Translating α}
  {f : α → Translating β}

/-- An outcome is of every wider kind. -/
lemma mono {r : Option (Except Error β × Translation)} (h : Reaches P r)
    (hP : ∀ b t', P b t' → P' b t') : Reaches P' r := by
  cases h with
  | ok horderly hb => exact .ok horderly (hP _ _ hb)
  | error horderly => exact .error horderly

/-- If two steps reach what they should, then so does one after the other. -/
lemma bind (hx : Reaches Q (x t)) (hf : ∀ a t', t'.IsOrderly → Q a t' → Reaches P (f a t')) :
    Reaches P ((x >>= f) t) := by
  rw [bind_apply]
  generalize x t = r at hx ⊢
  cases hx with
  | ok horderly ha => exact hf _ _ horderly ha
  | error horderly => exact .error horderly

end Reaches

/-! ## Steps -/

/-- The limit of nesting either stops the translation or has no effect. -/
lemma reaches_nest (o : CompileOptions) (depth : ℕ) (h : t.IsOrderly) :
    Reaches (fun _ t' => t' = t) (nest o depth t) := by
  rw [nest_apply]
  split
  · exact .ok h rfl
  · exact .error h

/-- To mark the program changes nothing. -/
lemma reaches_mark (h : t.IsOrderly) :
    Reaches (fun before t' => before = t.workplace.program ∧ t' = t) (mark t) :=
  .ok h ⟨rfl, rfl⟩

/-- A mark is passed, or the translation fails before it. -/
lemma reaches_of_mark (ch : Char) (e : Error) (h : t.IsOrderly) :
    Reaches (fun _ t' => t.cursor.token? = some (.symbol [ch]) ∧
        t' = t.moveTo (t.cursor.past (.symbol [ch])))
      (if t.cursor.token? = some (.symbol [ch]) then
        some (.ok (), t.moveTo (t.cursor.past (.symbol [ch])))
      else some (.error e, t.moveTo t.cursor.skipBlanks)) := by
  split
  · rename_i htoken
    exact .ok h ⟨htoken, rfl⟩
  · exact .error h

/-- A parenthesis that is closed has been read. -/
lemma reaches_closeGroup (opening : ℕ) (h : t.IsOrderly) :
    Reaches (fun _ t' => t.cursor.token? = some (.symbol [')']) ∧
        t' = t.moveTo (t.cursor.past (.symbol [')'])))
      (reading (Reader.closeGroup opening) t) :=
  closeGroup_apply opening t ▸ reaches_of_mark ')' _ h

/-- A mark that is expected has been read. -/
lemma reaches_expect {ch : Char} (hch : Cursor.IsMark ch) (h : t.IsOrderly) :
    Reaches (fun _ t' => t.cursor.token? = some (.symbol [ch]) ∧
        t' = t.moveTo (t.cursor.past (.symbol [ch])))
      (reading (Reader.expect ch) t) :=
  expect_apply hch t ▸ reaches_of_mark ch _ h

/-- A name that is resolved has an index from then on, and a name that is not changes nothing. -/
lemma reaches_resolve (o : CompileOptions) (name : String) (position : ℕ) (h : t.IsOrderly) :
    Reaches (fun index t' => ∃ symbols : SymbolTable, symbols.Extends t.workplace.symbols ∧
        symbols.lookup name = some index ∧
        t' = { t with workplace := { t.workplace with symbols := symbols } })
      (compiling (Compilation.resolve o name position) t) := by
  unfold compiling
  rcases Compilation.resolve_cases o name position t.workplace with
    ⟨index, ⟨symbols, program⟩, hresolve, -⟩ | ⟨e, hresolve⟩
  · obtain ⟨hprogram, hextends, -, hlookup⟩ := Compilation.resolved_of_resolve hresolve
    obtain rfl : program = t.workplace.program := hprogram
    rw [hresolve]
    exact .ok (h.withWorkplace hextends) ⟨symbols, hextends, hlookup, rfl⟩
  · rw [hresolve]
    exact .error h

/-- An instruction completes the code of an expression behind that of its operands. -/
lemma reaches_emit (h : t.IsOrderly) (hadds : Adds t₀ t ts es)
    (hjoins : Joins t.workplace.symbols i es e) :
    Reaches (fun _ t' => t'.cursor = t.cursor ∧ Adds t₀ t' ts [e]) (emit i t) := by
  rw [emit, bind_apply, compiling, Compilation.emit]
  cases hemit : t.workplace.program.emit i with
  | error e => exact .error h
  | ok p =>
    obtain ⟨code, hprogram, hcode⟩ := hadds.exists_code
    have hemitted : p.code.toList = t₀.workplace.program.code.toList ++ (code ++ [i]) := by
      obtain ⟨-, rfl⟩ := Program.emit_eq_ok_iff.1 hemit
      rw [Array.toList_push, hprogram, List.append_assoc]
    have horderly : IsOrderly { t with workplace := { t.workplace with program := p } } :=
      h.withWorkplace (.refl _)
    exact .ok (horderly.emitted i)
      ⟨rfl, (hadds.withProgram hemitted (hcode.joined hjoins)).noted _⟩

/-- What is folded is the code of the expression that was read since a call was entered. -/
lemma reaches_fold (o : CompileOptions) (h : t.IsOrderly) (hentered : t₀.HasJustEntered)
    (hadds : Adds t₀ t ts [tree.expr]) (hderives : Derives .expression ts tree) :
    Reaches (fun _ t' => t'.cursor = t.cursor ∧ Adds t₀ t' ts [tree.expr])
      (fold o t₀.workplace.program t) := by
  obtain ⟨first, hfirst, hstart⟩ := hadds.exists_isStartOf hentered
  obtain ⟨code, hprogram, hcode⟩ := hadds.exists_code
  have hbetween : IsCodeBetween t.workplace.symbols first.cursor t.cursor code :=
    ⟨ts, tree, hfirst ▸ hadds.lexes, hderives, hcode⟩
  have hfolding : Moment.IsOrderly t.workplace.symbols
      ⟨.folding t₀.workplace.program, t.cursor, t.workplace.program⟩ t.log := by
    refine ⟨fun before hevent => ?_, nofun⟩
    obtain rfl := Event.folding.inj hevent
    exact ⟨first, code, hstart, hprogram, hbetween⟩
  obtain ⟨code', hprogram', hcode'⟩ :=
    hcode.exists_fold hprogram t.workplace.symbols.value o.stackCapacity
  rw [Array.length_toList] at hprogram'
  exact .ok ((h.noted hfolding).withWorkplace (.refl _))
    ⟨rfl, (hadds.noted _).withProgram hprogram' hcode'⟩

/-- An expression of its operands is folded as soon as its instruction has been emitted. -/
lemma reaches_emitFolding (o : CompileOptions) (h : t.IsOrderly) (hentered : t₀.HasJustEntered)
    (hadds : Adds t₀ t ts es) (hderives : Derives .expression ts tree)
    (hjoins : Joins t.workplace.symbols i es tree.expr) :
    Reaches (fun _ t' => t'.cursor = t.cursor ∧ Adds t₀ t' ts [tree.expr])
      (emitFolding o i t₀.workplace.program t) :=
  (reaches_emit h hadds hjoins).bind fun _ _ horderly hemitted =>
    (reaches_fold o horderly hentered hemitted.2 hderives).mono fun _ _ hfolded =>
      ⟨hfolded.1.trans hemitted.1, hfolded.2⟩

/-- An operator joins the code of its operands, which were read since a call was entered. -/
lemma reaches_reducing {s : Spelling} {left right : Tree} (h : t.IsOrderly)
    (hentered : t₀.HasJustEntered) (hadds : Adds t₀ t₁ ts [left.expr])
    (hderives : Derives .expression ts left) (hmem : s ∈ binaryOperators.vocabulary)
    (htoken : t₁.cursor.token? = some (.symbol s))
    (hright : Adds (t₁.moveTo (t₁.cursor.past (.symbol s))) t us [right.expr])
    (hderives' : Derives .expression us right) :
    Reaches (fun _ t' => t' = t.noted (.reducing t₀.workplace.program))
      (note (.reducing t₀.workplace.program) t) := by
  have hall := (hadds.moveTo (.single htoken)).trans hright
  obtain ⟨first, hfirst, hstart⟩ := hall.exists_isStartOf hentered
  obtain ⟨leftCode, hprogram, hleftCode⟩ := hadds.exists_code
  obtain ⟨rightCode, hprogram', hrightCode⟩ := hright.exists_code
  have hboth : t.workplace.program.code.toList =
      t₀.workplace.program.code.toList ++ (leftCode ++ rightCode) := by
    rw [hprogram', ← List.append_assoc, ← hprogram]
    rfl
  have hleft : IsCodeBetween t.workplace.symbols first.cursor t₁.cursor leftCode :=
    ⟨ts, left, hfirst ▸ hadds.lexes, hderives, hleftCode.mono hright.extendsSymbols⟩
  refine .ok (h.noted ⟨nofun, fun before hevent => ?_⟩) rfl
  obtain rfl := Event.reducing.inj hevent
  exact ⟨first, leftCode, rightCode, t₁.cursor, s, hstart, hboth, hmem, htoken, hleft,
    us, right, hright.lexes, hderives', hrightCode⟩

/-! ## Phrases -/

section

variable {bound depth : ℕ} {cat : Category} {looser tighter levels : Levels}
  {operators : List (Spelling × BinaryOp)}

/-- Whether a translation has come from another one by a phrase of some category. -/
def AddsPhrase (t₀ : Translation) (cat : Category) (t : Translation) : Prop :=
  ∃ ts tree, Derives cat ts tree ∧ Adds t₀ t ts [tree.expr]

namespace AddsPhrase

/-- A phrase is the same whether it begins before or after a call was entered. -/
lemma of_entered (h : AddsPhrase (t₀.entered calls) cat t) : AddsPhrase t₀ cat t := by
  obtain ⟨ts, tree, hderives, hadds⟩ := h
  exact ⟨ts, tree, hderives, ((Adds.refl t₀).entered calls).trans hadds⟩

/-- A call can be entered behind a phrase. -/
lemma entered (h : AddsPhrase t₀ cat t) (calls : List Entry) :
    AddsPhrase t₀ cat (t.entered calls) := by
  obtain ⟨ts, tree, hderives, hadds⟩ := h
  exact ⟨ts, tree, hderives, hadds.entered calls⟩

/-- Blanks can be skipped behind a phrase. -/
lemma skipBlanks (h : AddsPhrase t₀ cat t) :
    AddsPhrase t₀ cat (t.moveTo t.cursor.skipBlanks) := by
  obtain ⟨ts, tree, hderives, hadds⟩ := h
  exact ⟨ts, tree, hderives, hadds.skipBlanks⟩

/-- A phrase leaves no more of the source than there was. -/
lemma remaining_le (h : AddsPhrase t₀ cat t) : t.cursor.remaining ≤ t₀.cursor.remaining := by
  obtain ⟨_, _, _, hadds⟩ := h
  exact Cursor.remaining_le hadds.lexes

end AddsPhrase

/-- An outcome is of the same kind whether it begins before or after a call was entered. -/
lemma Reaches.of_entered (calls : List Entry) {r : Option (Except Error Unit × Translation)}
    (h : Reaches (fun _ => AddsPhrase (t₀.entered calls) cat) r) :
    Reaches (fun _ => AddsPhrase t₀ cat) r :=
  h.mono fun _ _ => AddsPhrase.of_entered

/-- Whether calls add phrases of some category where less than so much of the source is left. -/
def Compiles (bound : ℕ) (cat : Category) (x : ℕ → List Entry → Translating Unit) : Prop :=
  ∀ depth calls t, t.IsOrderly → t.cursor.remaining < bound →
    Reaches (fun _ => AddsPhrase t cat) (x depth calls t)

/-- The phrase of a level that has been read so far becomes the left operand of a longer one. -/
lemma reaches_reduction {candidate : Spelling × BinaryOp}
    (hlevels : looser ++ operators :: tighter = binaryOperators.levels)
    (hmem : candidate ∈ operators) (hentered : t₀.HasJustEntered)
    (hleft : AddsPhrase t₀ (.level (operators :: tighter)) t₁)
    (htoken : t₁.cursor.token? = some (.symbol candidate.1)) (h : t.IsOrderly)
    (hright : AddsPhrase (t₁.moveTo (t₁.cursor.past (.symbol candidate.1))) (.level tighter) t) :
    Reaches (fun _ t' => t'.cursor = t.cursor ∧ AddsPhrase t₀ (.level (operators :: tighter)) t')
      ((note (.reducing t₀.workplace.program) >>= fun _ =>
        emitFolding o (.binary candidate.2) t₀.workplace.program) t) := by
  obtain ⟨ts, left, hderives, hleft⟩ := hleft
  obtain ⟨us, right, hderives', hright⟩ := hright
  have hvocabulary : candidate.1 ∈ binaryOperators.vocabulary :=
    mem_vocabulary_of_mem_levels operators
      (hlevels ▸ List.mem_append_right looser List.mem_cons_self) candidate hmem
  have hlevels' : (looser ++ [operators]) ++ tighter = binaryOperators.levels := by
    rw [List.append_assoc]
    exact hlevels
  have hbinary : ∀ p, Derives (.level (operators :: tighter))
      (ts ++ ⟨.symbol candidate.1, p⟩ :: us) (.binary candidate.2 left right) := fun p =>
    Derives.level_cons_iff.2
      (.inr ⟨ts, us, left, right, _, _, p, rfl, rfl, hmem, hderives, hderives'⟩)
  refine (reaches_reducing h hentered hleft (hderives.expression_of_level hlevels)
    hvocabulary htoken hright (hderives'.expression_of_level hlevels')).bind ?_
  rintro _ _ hreducing rfl
  have hall := ((hleft.moveTo (.single htoken)).trans hright).noted (.reducing t₀.workplace.program)
  rw [List.append_assoc, List.singleton_append] at hall
  exact (reaches_emitFolding o hreducing hentered hall ((hbinary _).expression_of_level hlevels)
    (.binary _ _ _)).mono fun _ _ hfolded => ⟨hfolded.1, _, _, hbinary _, hfolded.2⟩

/-- In every turn the left operand is the phrase of this level that has been read so far. -/
lemma reaches_operations (hlevels : looser ++ operators :: tighter = binaryOperators.levels)
    (htighter : Compiles bound (.level tighter) fun depth calls => climb o depth calls tighter)
    (hentered : t₀.HasJustEntered) (h : t.IsOrderly) (hbound : t.cursor.remaining < bound)
    (hleft : AddsPhrase t₀ (.level (operators :: tighter)) t) (calls : List Entry) :
    Reaches (fun _ => AddsPhrase t₀ (.level (operators :: tighter)))
      (operations o depth calls operators tighter t₀.workplace.program t) := by
  have hvocabulary : ∀ candidate ∈ operators, candidate.1 ∈ binaryOperators.vocabulary :=
    mem_vocabulary_of_mem_levels operators
      (hlevels ▸ List.mem_append_right looser List.mem_cons_self)
  -- every turn takes an operator, so there is less left for the next
  induction hremaining : t.cursor.remaining using Nat.strong_induction_on generalizing t calls with
  | _ n ih =>
  subst hremaining
  have hinside := h.entered (⟨.operator, t.cursor⟩ :: calls)
  have hleft := hleft.entered (⟨.operator, t.cursor⟩ :: calls)
  rw [operations_apply o depth calls hvocabulary]
  dsimp only
  split
  · rename_i s htoken
    split
    · exact .ok hinside hleft.skipBlanks
    · rename_i candidate hfind
      have hspelling := List.find?_some hfind
      obtain rfl : candidate.1 = s := of_decide_eq_true hspelling
      have hlt := Cursor.remaining_past_lt htoken
      refine (htighter depth _ _ (hinside.moveTo (t.cursor.past (.symbol candidate.1)))
        (Nat.lt_trans hlt hbound)).bind fun _ t₁ h₁ hright => ?_
      have hlt₁ := Nat.lt_of_le_of_lt hright.remaining_le hlt
      rw [← bind_assoc]
      refine (reaches_reduction hlevels (List.mem_of_find?_eq_some hfind) hentered hleft htoken h₁
        hright).bind ?_
      rintro _ t₂ h₂ ⟨hcursor, hphrase⟩
      have hlt₂ : t₂.cursor.remaining < t.cursor.remaining := hcursor ▸ hlt₁
      exact ih _ hlt₂ h₂ (Nat.lt_trans hlt₂ hbound) hphrase _ rfl
  · exact .ok hinside hleft.skipBlanks

/-- Each level begins with a phrase of the tighter ones. -/
lemma compiles_climb (hlevels : looser ++ levels = binaryOperators.levels)
    (hoperand : Compiles bound .operand (operand o)) :
    Compiles bound (.level levels) fun depth calls => climb o depth calls levels := by
  induction levels generalizing looser with
  | nil =>
    intro depth calls t h hbound
    dsimp only
    rw [climb]
    refine (hoperand depth calls t h hbound).mono ?_
    rintro _ _ ⟨ts, tree, hderives, hadds⟩
    exact ⟨ts, tree, .tightest hderives, hadds⟩
  | cons operators tighter ih =>
    have htighter := @ih (looser ++ [operators]) (by rw [List.append_assoc]; exact hlevels)
    intro depth calls t h hbound
    dsimp only
    rw [climb_cons_apply]
    refine .of_entered (⟨.levels (tighter.length + 1), t.cursor⟩ :: calls) ?_
    refine (htighter depth _ (t.entered _) (h.entered _) hbound).bind fun _ t₁ h₁ hleft => ?_
    have hbound₁ := Nat.lt_of_le_of_lt hleft.remaining_le hbound
    obtain ⟨ts, left, hderives, hadds⟩ := hleft
    exact reaches_operations hlevels htighter (hasJustEntered_entered t _) h₁ hbound₁
      ⟨ts, left, Derives.level_cons_iff.2 (.inl hderives), hadds⟩ _

/-- The code of a choice is that of its test and of its branches. -/
lemma reaches_choice (hexpression : Compiles bound .expression (expression o))
    (hentered : t₀.HasJustEntered) (h : t.IsOrderly) (hbound : t.cursor.remaining ≤ bound)
    (htest : AddsPhrase t₀ (.level binaryOperators.levels) t) (calls : List Entry) :
    Reaches (fun _ => AddsPhrase t₀ .expression) ((do
      if ← reading (Reader.eat '?') then
        expression o depth calls
        reading (Reader.expect ':')
        expression o depth calls
        emitFolding o .choice t₀.workplace.program : Translating Unit) t) := by
  obtain ⟨ts, test, htest, hadds⟩ := htest
  rw [bind_apply, eat_apply isMark_question]
  by_cases hquestion : t.cursor.token? = some (.symbol ['?'])
  · rw [if_pos hquestion]
    dsimp only
    rw [if_pos rfl]
    have hlt := Nat.lt_of_lt_of_le (Cursor.remaining_past_lt hquestion) hbound
    refine (hexpression depth calls _ (h.moveTo (t.cursor.past (.symbol ['?']))) hlt).bind
      fun _ t₁ h₁ hyes => ?_
    have hle := hyes.remaining_le
    obtain ⟨us, yes, hyes, hadds₁⟩ := hyes
    refine (reaches_expect isMark_colon h₁).bind ?_
    rintro _ _ h₂ ⟨hcolon, rfl⟩
    have hlt₂ := Nat.lt_trans (Nat.lt_of_lt_of_le (Cursor.remaining_past_lt hcolon) hle) hlt
    refine (hexpression depth calls _ h₂ hlt₂).bind fun _ t₃ h₃ hno => ?_
    obtain ⟨vs, no, hno, hadds₃⟩ := hno
    have hall :=
      (((hadds.moveTo (.single hquestion)).trans hadds₁).moveTo (.single hcolon)).trans hadds₃
    simp only [List.append_assoc, List.cons_append, List.nil_append] at hall
    have hchoice := fun p q => Derives.choice (o := p) (p := q) htest hyes hno
    exact (reaches_emitFolding o h₃ hentered hall (hchoice _ _) (.choice _ _ _)).mono
      fun _ _ hfolded => ⟨_, _, hchoice _ _, hfolded.2⟩
  · rw [if_neg hquestion]
    exact .ok (h.moveTo _) ⟨ts, test, .simple htest, hadds.skipBlanks⟩

/-- The levels of an expression are entered where it begins, its branches further on. -/
lemma reaches_expression (hoperand : Compiles (bound + 1) .operand (operand o))
    (hexpression : Compiles bound .expression (expression o)) (h : t.IsOrderly)
    (hbound : t.cursor.remaining < bound + 1) (calls : List Entry) :
    Reaches (fun _ => AddsPhrase (t.entered (⟨.expression, t.cursor⟩ :: calls)) .expression)
      (expression o depth calls t) := by
  rw [expression_apply]
  refine (reaches_nest o depth (h.entered _)).bind ?_
  rintro depth _ h₀ rfl
  refine (reaches_mark h₀).bind ?_
  rintro before _ - ⟨rfl, rfl⟩
  refine (compiles_climb (List.nil_append _) hoperand depth _ (t.entered _) h₀ hbound).bind
    fun _ t₁ h₁ htest => ?_
  have hle := Nat.le_trans htest.remaining_le (Nat.le_of_lt_succ hbound)
  exact reaches_choice hexpression (hasJustEntered_entered t _) h₁ hle htest _

/-- The code of the arguments stands in their order. -/
lemma reaches_arguments (hexpression : Compiles bound .expression (expression o))
    (h : t.IsOrderly) (hbound : t.cursor.remaining < bound) (calls : List Entry)
    (opening found : ℕ) :
    Reaches (fun count t' => ∃ ts args, Arguments ts args ∧ count = found + args.length ∧
        Adds t t' ts (args.map Tree.expr))
      (arguments o depth calls opening found t) := by
  induction hremaining : t.cursor.remaining using Nat.strong_induction_on
    generalizing t calls found with
  | _ n ih =>
  subst hremaining
  have hfirst := hexpression depth (⟨.argument, t.cursor⟩ :: calls) _
    (h.entered (⟨.argument, t.cursor⟩ :: calls)) hbound
  rw [arguments_apply]
  dsimp only
  generalize expression o depth _ _ = r at hfirst ⊢
  cases hfirst with
  | error herror => exact .error herror
  | @ok _ t₁ h₁ hphrase =>
    have hle := hphrase.of_entered.remaining_le
    obtain ⟨ts, tree, hderives, hadds⟩ := hphrase.of_entered
    dsimp only
    split
    · rename_i hcomma
      have hlt := Nat.lt_of_lt_of_le (Cursor.remaining_past_lt hcomma) hle
      refine (ih _ hlt (h₁.moveTo (t₁.cursor.past (.symbol [',']))) (Nat.lt_trans hlt hbound) _
        (found + 1) rfl).mono ?_
      rintro count t₂ ⟨us, args, hargs, rfl, hadds₂⟩
      have hall := (hadds.moveTo (.single hcomma)).trans hadds₂
      rw [List.append_assoc, List.singleton_append] at hall
      refine ⟨_, tree :: args, .more hderives hargs, ?_, hall⟩
      rw [List.length_cons, Nat.add_right_comm, Nat.add_assoc]
    · refine (reaches_closeGroup opening (h₁.moveTo t₁.cursor.skipBlanks)).bind ?_
      rintro _ _ h₂ ⟨hclose, rfl⟩
      exact .ok h₂ ⟨_, [tree], .last hderives, rfl, hadds.skipBlanks.moveTo (.single hclose)⟩

/-- As many arguments as a function takes are its operands. -/
lemma exists_joins_of_arguments {name : String} {m : Meaning} {args : List Tree} {p q : ℕ}
    (hmeaning : (name, m) ∈ Builtin.dictionary)
    (hconstant : ∀ c, m ≠ .constant c) (hargs : Arguments ts args)
      (hlength : args.length = m.arity) :
    ∃ tree, Derives .primary (⟨.name name, p⟩ :: ⟨.symbol ['('], q⟩ :: ts) tree ∧
      ∀ symbols, Joins symbols m.instruction (args.map Tree.expr) tree.expr := by
  cases m with
  | constant c => exact absurd rfl (hconstant c)
  | unary f =>
    cases hargs with
    | @last ts argument _ hderives =>
      exact ⟨.apply₁ f argument, .apply₁ hmeaning hderives, fun _ => .unary f _⟩
    | more _ hargs => cases hargs <;> cases hlength
  | binary f =>
    cases hargs with
    | last => cases hlength
    | @more _ _ first _ _ hfirst hargs =>
      cases hargs with
      | @last _ second _ hsecond =>
        exact ⟨.apply₂ f first second, .apply₂ hmeaning hfirst hsecond, fun _ => .binary f _ _⟩
      | more _ hargs => cases hargs <;> cases hlength

/-- The code of a function is that of its arguments and of the function. -/
lemma reaches_application (hexpression : Compiles bound .expression (expression o))
    {name : String} {function : Builtin} {position : ℕ}
      (hname : Builtin.lookup name = some function)
    (hconstant : ∀ c, function.meaning ≠ .constant c) (hentered : t₀.HasJustEntered)
    (h : t₀.IsOrderly) (hlexes : Lexes t₀.cursor [⟨.name name, position⟩] c)
    (hbound : c.remaining < bound) (calls : List Entry) :
    Reaches (fun _ => AddsPhrase t₀ .primary)
      (application o depth calls function position (t₀.moveTo c)) := by
  have hmeaning : (name, function.meaning) ∈ Builtin.dictionary :=
    Builtin.mem_dictionary_iff.2 (by rw [hname, Option.map_some])
  rw [application_apply]
  dsimp only
  split
  · rename_i hopen
    have hopened := hlexes.append (.single hopen)
    have hlt := Cursor.remaining_past_lt hopen
    split
    · -- no function does without arguments
      rw [if_neg fun hzero => ?_]
      · exact .error (h.moveTo _)
      · cases hfunction : function.meaning with
        | constant c => exact hconstant c hfunction
        | unary | binary =>
          rw [hfunction] at hzero
          cases hzero
    · have hblanks := (Cursor.remaining_skipBlanks _).trans_lt (Nat.lt_trans hlt hbound)
      rw [moveTo_moveTo]
      refine (reaches_arguments hexpression
        (h.moveTo ((t₀.moveTo c).cursor.past (.symbol ['('])).skipBlanks) hblanks calls _ 0).bind ?_
      rintro found t₁ h₁ ⟨ts, args, hargs, rfl, hadds⟩
      have hall := hadds.of_moveTo (hopened.append (hadds.lexes.congr_left (by simp)))
      split
      · rename_i hlength
        obtain ⟨tree, hderives, hjoins⟩ := exists_joins_of_arguments hmeaning hconstant hargs
          ((Nat.zero_add _).symm.trans hlength)
        have hwhole := (Derives.primary hderives).expression_of_operand
        exact (reaches_emitFolding o h₁ hentered hall hwhole (hjoins _)).mono
          fun _ _ hfolded => ⟨_, _, hderives, hfolded.2⟩
      · exact .error h₁
  · exact .error (h.moveTo _)

/-- A name is that of a variable, of a constant or of a function. -/
lemma reaches_named (hexpression : Compiles bound .expression (expression o)) {name : String}
    {position : ℕ} (hentered : t₀.HasJustEntered) (h : t₀.IsOrderly)
    (hlexes : Lexes t₀.cursor [⟨.name name, position⟩] c) (hbound : c.remaining < bound)
    (calls : List Entry) :
    Reaches (fun _ => AddsPhrase t₀ .primary)
      (named o depth calls name position (t₀.moveTo c)) := by
  have hmoved := h.moveTo c
  have hadds := Adds.of_lexes hlexes
  rw [CompileOptions.named]
  rcases hlookup : Builtin.lookup name with _ | ⟨functionName, constant | f | f⟩
  · refine (reaches_resolve o name position hmoved).bind ?_
    rintro index _ h₁ ⟨symbols, hextends, hindex, rfl⟩
    exact (reaches_emit h₁ (hadds.withSymbols hextends) (.var position hindex)).mono
      fun _ _ hemitted =>
        ⟨_, .var name position, .var (Builtin.notMem_dictionary_iff.2 hlookup), hemitted.2⟩
  · have hderives : Derives .primary [⟨.name name, position⟩] (.constant constant) :=
      .constant (Builtin.mem_dictionary_iff.2 (by rw [hlookup, Option.map_some]))
    have hwhole := (Derives.primary hderives).expression_of_operand
    refine (reaches_mark hmoved).bind ?_
    rintro before _ - ⟨rfl, rfl⟩
    exact (reaches_emitFolding o hmoved hentered hadds hwhole (.constant constant)).mono
      fun _ _ hfolded => ⟨_, _, hderives, hfolded.2⟩
  · exact reaches_application hexpression hlookup (by simp) hentered h hlexes hbound calls
  · exact reaches_application hexpression hlookup (by simp) hentered h hlexes hbound calls

/-- A primary is told by its first token. -/
lemma reaches_primary (hexpression : Compiles bound .expression (expression o))
    (hentered : t₀.HasJustEntered) (h : t₀.IsOrderly) (hlexes : Lexes t₀.cursor [] c)
    (hbound : c.remaining ≤ bound) (calls : List Entry) :
    Reaches (fun _ => AddsPhrase t₀ .primary) (primary o depth calls (t₀.moveTo c)) := by
  rw [primary_apply]
  split
  · rename_i n htoken
    split
    · rename_i x hx
      have hlexes' := hlexes.append (.single htoken)
      exact (reaches_emit (h.moveTo _) (.of_lexes hlexes') (.number x)).mono
        fun _ _ hemitted => ⟨_, .number x, .number_of_token htoken hx, hemitted.2⟩
    · exact .error (h.moveTo _)
  · rename_i name htoken
    exact reaches_named hexpression hentered h (hlexes.append (.single htoken))
      (Nat.lt_of_lt_of_le (Cursor.remaining_past_lt htoken) hbound) calls
  · rename_i htoken
    have hlt := Nat.lt_of_lt_of_le (Cursor.remaining_past_lt htoken) hbound
    refine (hexpression depth calls _ (h.moveTo (c.past (.symbol ['(']))) hlt).bind
      fun _ t₁ h₁ hinner => ?_
    obtain ⟨ts, tree, hderives, hadds⟩ := hinner
    have hopened := (hlexes.append (.single htoken)).append hadds.lexes
    refine (reaches_closeGroup _ h₁).mono ?_
    rintro _ _ ⟨hclose, rfl⟩
    exact ⟨_, .group tree, .group hderives,
      (hadds.of_moveTo hopened).moveTo (.single hclose)⟩
  · exact .error (h.moveTo _)

/-- A sign is joined with the operand behind it. -/
lemma compiles_operand (hoperand : Compiles bound .operand (operand o))
    (hexpression : Compiles bound .expression (expression o)) :
    Compiles (bound + 1) .operand (operand o) := by
  intro depth calls t h hbound
  have hentered := hasJustEntered_entered t (⟨.operand, t.cursor⟩ :: calls)
  have h₀ := h.entered (⟨.operand, t.cursor⟩ :: calls)
  have hle := Nat.le_of_lt_succ hbound
  rw [operand_apply]
  refine .of_entered (⟨.operand, t.cursor⟩ :: calls) ?_
  dsimp only
  split
  · have hblanks : Lexes t.cursor [] t.cursor.skipBlanks :=
      .stop t.cursor.skipBlanks_skipBlanks.symm
    refine (reaches_primary hexpression hentered h₀ hblanks
      ((Cursor.remaining_skipBlanks _).trans_le hle) _).mono ?_
    rintro _ _ ⟨ts, tree, hderives, hadds⟩
    exact ⟨ts, tree, .primary hderives, hadds⟩
  · rename_i sign hsign
    have hlt := Nat.lt_of_lt_of_le (Cursor.remaining_sign_lt hsign) hle
    refine (reaches_nest o depth (h₀.moveTo (t.cursor.skipBlanks.skip 1))).bind ?_
    rintro depth _ h₁ rfl
    refine (reaches_mark h₁).bind ?_
    rintro before _ - ⟨rfl, rfl⟩
    refine (hoperand depth _ _ h₁ hlt).bind fun _ t₂ h₂ hinner => ?_
    obtain ⟨ts, tree, hderives, hadds⟩ := hinner
    obtain ⟨_ | _ | s, htoken, hsign⟩ := Option.bind_eq_some_iff.1 hsign
    · cases hsign
    · cases hsign
    · -- `!=` begins like a sign, but no operand begins with the rest of it
      obtain ⟨ch, rfl, hmem⟩ := sign_of_derives htoken hsign hderives hadds.lexes
      have hsigned := fun p => Derives.sign (o := p) hmem hderives
      have hall := hadds.of_moveTo (Lexes.cons htoken hadds.lexes)
      cases sign with
      | none => exact .ok h₂ ⟨_, _, hsigned _, hall⟩
      | some f =>
        exact (reaches_emitFolding o h₂ hentered hall (hsigned _).expression_of_operand
          (.unary f _)).mono fun _ _ hfolded => ⟨_, _, hsigned _, hfolded.2⟩

/-- Operands and expressions are phrases and their code, however much of the source is left. -/
theorem compiles_phrases (o : CompileOptions) (bound : ℕ) :
    Compiles bound .operand (operand o) ∧ Compiles bound .expression (expression o) := by
  induction bound with
  | zero => exact ⟨fun _ _ _ _ hlt => absurd hlt (Nat.not_lt_zero _),
      fun _ _ _ _ hlt => absurd hlt (Nat.not_lt_zero _)⟩
  | succ bound ih =>
    have hoperand := compiles_operand ih.1 ih.2
    exact ⟨hoperand, fun _ _ _ h hlt => (reaches_expression hoperand ih.2 h hlt _).of_entered⟩

end

/-! ## Sources -/

/-- What is left in the end is folded as a whole. -/
lemma reaches_whole (o : CompileOptions) (source : String) (w : Workplace) :
    Reaches (fun _ _ => True) (whole o (begin source w)) := by
  have hbegin : (begin source w).IsOrderly :=
    fun m earlier hsuffix => absurd (List.suffix_nil.1 hsuffix) (List.cons_ne_nil _ _)
  -- the first call is entered before anything is emitted, hence with the program marked here
  have hentered := hasJustEntered_entered (begin source w) [⟨.expression, (begin source w).cursor⟩]
  refine (reaches_mark hbegin).bind ?_
  rintro before _ - ⟨rfl, rfl⟩
  refine (reaches_expression (compiles_phrases o _).1 (compiles_phrases o _).2 hbegin
    (Nat.lt_succ_self _) []).bind fun _ t₁ h₁ hphrase => ?_
  obtain ⟨ts, tree, hderives, hadds⟩ := hphrase
  refine (reaches_fold o h₁ hentered hadds hderives).bind fun _ t₂ h₂ _ => ?_
  rw [bind_apply, Reader.atEnd, scan_apply]
  dsimp only
  split
  · exact .ok (h₂.moveTo _) trivial
  · exact .error (h₂.moveTo _)

/-- Whatever the source and the limits are, at each moment at which what has been emitted behind a
program is folded, this program was all there was when some call was entered, and all of it has
stayed since.  What was emitted behind it is complete code, that of the expression that stands in
the source between there and here, some parts of which may have been folded before.  So a trial run
computes a value or overflows the stack, and never lacks an operand.  At each moment at which an
operator is about to be emitted, what was emitted is such code of the expression in front of the
operator and then such code of the one behind it. -/
theorem compile_folds_phrases (o : CompileOptions) (source : String) (w : Workplace) :
    ∃ log, compile o source w = some (Expr.compile o source w, log) ∧
      ∀ m earlier, m :: earlier <:+ log → ∀ before,
        let symbols := (final (Expr.compile o source w)).symbols
        (m.event = .folding before → ∃ (first : Moment) (code : List Instruction),
          first.IsStartOf before earlier ∧
          m.program.code.toList = before.code.toList ++ code ∧
          m.program.codeFrom before.size = code ∧
          IsCodeBetween symbols first.cursor m.cursor code ∧
          IsComplete code ∧
          ∀ values capacity, run values capacity code = .error (.stackOverflow capacity) ∨
            ∃ x, run values capacity code = .ok x) ∧
        (m.event = .reducing before →
          ∃ (first : Moment) (left right : List Instruction) (stop : Cursor) (s : Spelling),
            first.IsStartOf before earlier ∧
            m.program.code.toList = before.code.toList ++ (left ++ right) ∧
            s ∈ binaryOperators.vocabulary ∧ stop.token? = some (.symbol s) ∧
            IsCodeBetween symbols first.cursor stop left ∧
            IsCodeBetween symbols (stop.past (.symbol s)) m.cursor right ∧
            IsComplete left ∧ IsComplete right) := by
  obtain ⟨log, hcompile⟩ := exists_compile o source w
  obtain ⟨t, rfl, hsymbols, horderly⟩ : ∃ t : Translation, t.log = log ∧
      t.workplace.symbols = (final (Expr.compile o source w)).symbols ∧ t.IsOrderly := by
    have hreaches := reaches_whole o source w
    rw [compile_eq] at hcompile
    generalize whole o (begin source w) = y at hreaches hcompile
    cases hreaches with
    | @ok _ t horderly _ | @error _ t horderly =>
      obtain ⟨hresult, hlog⟩ := Prod.mk.inj (Option.some.inj hcompile)
      exact ⟨t, hlog, by rw [← hresult]; rfl, horderly⟩
  refine ⟨t.log, hcompile, fun m earlier hsuffix before => ?_⟩
  obtain ⟨hfolding, hreducing⟩ := horderly m earlier hsuffix
  rw [hsymbols] at hfolding hreducing
  constructor
  · intro hevent
    obtain ⟨first, code, hstart, hprogram, hbetween⟩ := hfolding before hevent
    have hfrom : m.program.codeFrom before.size = code := by
      rw [Program.codeFrom_eq_drop, hprogram]
      exact List.drop_left' Array.length_toList
    exact ⟨first, code, hstart, hprogram, hfrom, hbetween, hbetween.isComplete,
      hbetween.isComplete.run_eq⟩
  · intro hevent
    obtain ⟨first, left, right, stop, s, hstart, hprogram, hmem, htoken, hleft, hright⟩ :=
      hreducing before hevent
    exact ⟨first, left, right, stop, s, hstart, hprogram, hmem, htoken, hleft, hright,
      hleft.isComplete, hright.isComplete⟩

end Translation

end Reckon
