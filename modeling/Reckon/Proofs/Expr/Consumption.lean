import Reckon.Proofs.Expr.Translation
import Reckon.Proofs.Outcome
import Reckon.Proofs.Program.Folding

/-!
# Translations consume the source

A translation comes to its end because its calls lead on.  A call that is entered inside of another
one stands further on in the source or, at the same place, is the call of a tighter phrase
(`Entry.Within`); so no call is entered inside of itself before something has been consumed.

The bytes that are consumed pay for what is emitted.  Every part of a translation begins with some
credit and keeps it when it succeeds (`Translation.Ends`): at no moment have more instructions been
emitted than bytes have been consumed.
-/

namespace Reckon

/-! ## Places -/

namespace Cursor

variable {c : Cursor} {text : List Char}

/-- A cursor in a text is not behind its end. -/
lemma StandsIn.offset_le (h : c.StandsIn text) : c.offset ≤ utf8Length text :=
  h.offset_add_utf8Length ▸ Nat.le_add_right c.offset (utf8Length c.rest)

/-- Skipping blanks does not lead back. -/
lemma offset_skipBlanks_le (c : Cursor) : c.offset ≤ c.skipBlanks.offset := Nat.le_add_right _ _

/-- Where something is left, something is consumed. -/
lemma offset_skip_lt {n : ℕ} (h : c.rest ≠ []) (hn : 0 < n) : c.offset < (c.skip n).offset := by
  have hlength : 0 < (c.rest.take n).length := by
    rw [List.length_take]
    exact Nat.lt_min.2 ⟨hn, List.length_pos_iff.2 h⟩
  have hbytes := length_le_utf8Length (c.rest.take n)
  have hoffset : (c.skip n).offset = c.offset + utf8Length (c.rest.take n) := rfl
  omega

/-- Where a token stands, something is left behind the blanks. -/
lemma skipBlanks_rest_ne_nil {t : Token} (h : c.token? = some t) : c.skipBlanks.rest ≠ [] := by
  obtain ⟨ch, more, hrest, -⟩ := (token?_eq_some_iff.1 h).1.exists_opens
  rw [hrest]
  exact List.cons_ne_nil ch more

/-- Reading a token leads on. -/
lemma offset_past_lt {t : Token} (h : c.token? = some t) : c.offset < (c.past t).offset := by
  have hpos := (token?_eq_some_iff.1 h).1.length_pos
  exact Nat.lt_of_le_of_lt c.offset_skipBlanks_le (offset_skip_lt (skipBlanks_rest_ne_nil h) hpos)

/-- Reading a sign leads on. -/
lemma offset_sign_lt {sign : Option UnaryOp} (h : c.token?.bind Token.sign? = some sign) :
    c.offset < (c.skipBlanks.skip 1).offset := by
  obtain ⟨t, htoken, -⟩ := Option.bind_eq_some_iff.1 h
  exact Nat.lt_of_le_of_lt c.offset_skipBlanks_le
    (offset_skip_lt (skipBlanks_rest_ne_nil htoken) Nat.one_pos)

/-- Past a token a cursor stands in the same text. -/
lemma StandsIn.past (h : c.StandsIn text) (t : Token) : (c.past t).StandsIn text :=
  h.skipBlanks.skip t.text.length

end Cursor

/-! ## Calls -/

/-- How much the calls at one place can still lead to: calls of tighter phrases weigh less. -/
def Station.weight : Station → ℕ
  | argument => Expr.binaryOperators.levels.length + 2
  | expression => Expr.binaryOperators.levels.length + 1
  | levels count => count
  | operator | operand => 0

/-- Whether a call stands further on in the source than another one or, at the same place, weighs
less. -/
def Entry.Within (inner outer : Entry) : Prop :=
  outer.cursor.offset < inner.cursor.offset ∨
    outer.cursor.offset = inner.cursor.offset ∧ inner.station.weight < outer.station.weight

/-- A lighter call within another one need only not stand before it. -/
lemma Entry.Within.of_le {inner outer : Entry} (hle : outer.cursor.offset ≤ inner.cursor.offset)
    (hweight : inner.station.weight < outer.station.weight) : inner.Within outer :=
  (Nat.lt_or_eq_of_le hle).imp_right fun heq => ⟨heq, hweight⟩

/-- A call within another one is within all those that it is in. -/
lemma Entry.Within.trans {e f g : Entry} (h : e.Within f) (h' : f.Within g) : e.Within g := by
  unfold Within at *
  omega

/-- What lies before a call: the bytes that are left and then its weight. -/
def Entry.measure (e : Entry) : ℕ × ℕ := (utf8Length e.cursor.rest, e.station.weight)

/-- With every call that is entered inside of another the measure falls, in the order of pairs. -/
lemma Entry.Within.measure_lt {text : List Char} {inner outer : Entry} (h : inner.Within outer)
    (hinner : inner.cursor.StandsIn text) (houter : outer.cursor.StandsIn text) :
    Prod.Lex (· < ·) (· < ·) inner.measure outer.measure := by
  have hbytes := hinner.offset_add_utf8Length
  have hbytes' := houter.offset_add_utf8Length
  rcases h with hlt | ⟨heq, hweight⟩
  · exact Prod.Lex.left _ _ (by omega)
  · have hsame : utf8Length inner.cursor.rest = utf8Length outer.cursor.rest := by omega
    rw [measure, measure, hsame]
    exact Prod.Lex.right _ hweight

/-- No call is entered inside of one of its own kind before something has been consumed. -/
lemma Entry.Within.offset_lt {inner outer : Entry} (h : inner.Within outer)
    (hstation : inner.station = outer.station) : outer.cursor.offset < inner.cursor.offset := by
  rcases h with hlt | ⟨-, hweight⟩
  · exact hlt
  · rw [hstation] at hweight
    exact absurd hweight (Nat.lt_irrefl _)

/-- Whether calls have been entered one inside of the other, the last of them first. -/
structure IsNested (text : List Char) (calls : List Entry) : Prop where
  standsIn : ∀ e ∈ calls, e.cursor.StandsIn text
  pairwise : calls.Pairwise Entry.Within

namespace IsNested

variable {text : List Char} {e f : Entry} {calls : List Entry}

/-- Without the last call the others are still nested. -/
lemma tail (h : IsNested text (e :: calls)) : IsNested text calls :=
  ⟨fun f hf => h.standsIn f (List.mem_cons_of_mem e hf), (List.pairwise_cons.1 h.pairwise).2⟩

/-- What leads on from the last call leads on from all of them. -/
lemma cons (h : IsNested text (e :: calls)) (hf : f.cursor.StandsIn text) (hwithin : f.Within e) :
    IsNested text (f :: e :: calls) := by
  refine ⟨List.forall_mem_cons.2 ⟨hf, h.standsIn⟩, List.pairwise_cons.2 ⟨?_, h.pairwise⟩⟩
  intro outer houter
  rcases List.mem_cons.1 houter with rfl | houter
  · exact hwithin
  · exact hwithin.trans ((List.pairwise_cons.1 h.pairwise).1 outer houter)

/-- A call at the same place that weighs the same. -/
lemma congr (h : IsNested text (e :: calls)) (hcursor : f.cursor = e.cursor)
    (hweight : f.station.weight = e.station.weight) : IsNested text (f :: calls) := by
  obtain ⟨hfirst, hrest⟩ := List.pairwise_cons.1 h.pairwise
  refine ⟨List.forall_mem_cons.2 ⟨hcursor ▸ h.standsIn e List.mem_cons_self, h.tail.standsIn⟩,
    List.pairwise_cons.2 ⟨fun outer houter => ?_, hrest⟩⟩
  have hwithin := hfirst outer houter
  unfold Entry.Within at hwithin ⊢
  rwa [hcursor, hweight]

end IsNested

/-- Whether any call can be entered inside of these ones that stands behind a place. -/
def IsOpen (text : List Char) (calls : List Entry) (c : Cursor) : Prop :=
  ∀ station d, d.StandsIn text → c.offset < d.offset → IsNested text (⟨station, d⟩ :: calls)

/-- Any call that stands further on can be entered inside of the last one. -/
lemma IsNested.isOpen {text : List Char} {e : Entry} {calls : List Entry}
    (h : IsNested text (e :: calls)) : IsOpen text (e :: calls) e.cursor :=
  fun _ _ hd hlt => h.cons hd (.inl hlt)

/-- What can be entered behind one place can be entered behind all later ones. -/
lemma IsOpen.mono {text : List Char} {calls : List Entry} {c d : Cursor} (h : IsOpen text calls c)
    (hle : c.offset ≤ d.offset) : IsOpen text calls d :=
  fun station e he hlt => h station e he (Nat.lt_of_le_of_lt hle hlt)

/-! ## Emissions -/

/-- Whether an instruction has been emitted. -/
def Event.isEmission : Event → Bool
  | emitted _ => true
  | _ => false

/-- How many instructions have been emitted. -/
def emissions (log : List Moment) : ℕ := log.countP fun m => m.event.isEmission

/-- A moment counts as one emission if an instruction was emitted, and as none otherwise. -/
lemma emissions_cons (m : Moment) (log : List Moment) :
    emissions (m :: log) = emissions log + if m.event.isEmission then 1 else 0 :=
  List.countP_cons

/-- Whether at some moment no more had been emitted than was consumed, and the calls had led on. -/
structure Moment.IsSound (text : List Char) (m : Moment) (earlier : List Moment) : Prop where
  standsIn : m.cursor.StandsIn text
  emissions_le : emissions (m :: earlier) ≤ m.cursor.offset
  isNested : ∀ calls, m.event = .entering calls → IsNested text calls

namespace Translation

/-- Whether the bytes consumed so far have paid for what is emitted, with so much credit left. -/
structure IsPaid (text : List Char) (credit : ℕ) (t : Translation) : Prop where
  standsIn : t.cursor.StandsIn text
  emissions_add_le : emissions t.log + credit ≤ t.cursor.offset
  size_le : t.workplace.program.size ≤ emissions t.log
  isSound : ∀ m earlier, m :: earlier <:+ t.log → m.IsSound text earlier

/-- An outcome that does not lie before an offset.  A success keeps the credit. -/
inductive Ends {β : Type} (text : List Char) (credit start : ℕ) :
    Option (Except Error β × Translation) → Prop
  | ok {b : β} {t : Translation} : start ≤ t.cursor.offset → t.IsPaid text credit →
      Ends text credit start (some (.ok b, t))
  | error {e : Error} {t : Translation} : start ≤ t.cursor.offset → t.IsPaid text 0 →
      Ends text credit start (some (.error e, t))

variable {α β : Type} {text : List Char} {o : CompileOptions} {credit start : ℕ} {t : Translation}
  {c : Cursor} {calls : List Entry} {before : Program}

namespace IsPaid

/-- Credit can be forgotten. -/
lemma mono (h : t.IsPaid text credit) {less : ℕ} (hle : less ≤ credit) : t.IsPaid text less :=
  { h with emissions_add_le := Nat.le_trans (Nat.add_le_add_left hle _) h.emissions_add_le }

/-- What is consumed is added to the credit. -/
lemma moveTo (h : t.IsPaid text credit) (hc : c.StandsIn text) {more : ℕ}
    (hle : t.cursor.offset + more ≤ c.offset) : (t.moveTo c).IsPaid text (credit + more) where
  standsIn := hc
  emissions_add_le := by
    have hpaid := h.emissions_add_le
    show emissions t.log + (credit + more) ≤ c.offset
    omega
  size_le := h.size_le
  isSound := h.isSound

/-- Blanks cost nothing. -/
lemma skipBlanks (h : t.IsPaid text credit) :
    (t.moveTo t.cursor.skipBlanks).IsPaid text (credit + 0) :=
  h.moveTo h.standsIn.skipBlanks t.cursor.offset_skipBlanks_le

/-- A token pays for one instruction. -/
lemma past {token : Token} (h : t.IsPaid text credit) (htoken : t.cursor.token? = some token) :
    (t.moveTo (t.cursor.past token)).IsPaid text (credit + 1) :=
  h.moveTo (h.standsIn.past token) (Cursor.offset_past_lt htoken)

/-- Other events than emissions cost nothing. -/
lemma noted (h : t.IsPaid text credit) {event : Event} (hevent : event.isEmission = false)
    (hnested : ∀ calls, event = .entering calls → IsNested text calls) :
    (t.noted event).IsPaid text credit := by
  have hemissions : emissions (t.noted event).log = emissions t.log := by
    rw [Translation.noted, emissions_cons, hevent]
    rfl
  refine ⟨h.standsIn, hemissions ▸ h.emissions_add_le, hemissions ▸ h.size_le, ?_⟩
  intro m earlier hsuffix
  rcases List.suffix_cons_iff.1 hsuffix with heq | hsuffix
  · obtain ⟨rfl, rfl⟩ := List.cons.inj heq
    refine ⟨h.standsIn, ?_, hnested⟩
    exact hemissions.le.trans (Nat.le_trans (Nat.le_add_right _ credit) h.emissions_add_le)
  · exact h.isSound m earlier hsuffix

/-- To enter a call costs nothing. -/
lemma entered (h : t.IsPaid text credit) (hnested : IsNested text calls) :
    (t.entered calls).IsPaid text credit := by
  refine h.noted rfl fun calls' heq => ?_
  cases heq
  exact hnested

/-- A workplace with a program that is no longer. -/
lemma withWorkplace (h : t.IsPaid text credit) {w : Workplace}
    (hsize : w.program.size ≤ t.workplace.program.size) :
    ({ t with workplace := w } : Translation).IsPaid text credit :=
  ⟨h.standsIn, h.emissions_add_le, Nat.le_trans hsize h.size_le, h.isSound⟩

end IsPaid

namespace Ends

variable {x : Translating α} {f : α → Translating β} {r : Option (Except Error β × Translation)}

/-- An outcome may be said to keep less credit and to lie behind an earlier offset. -/
lemma mono (h : Ends text credit start r) {less earlier : ℕ} (hless : less ≤ credit)
    (hearlier : earlier ≤ start) : Ends text less earlier r := by
  cases h with
  | ok hle hpaid => exact .ok (Nat.le_trans hearlier hle) (hpaid.mono hless)
  | error hle hpaid => exact .error (Nat.le_trans hearlier hle) hpaid

/-- A sequence comes to its end if its parts do. -/
lemma bind {credit' : ℕ} (hx : Ends text credit start (x t))
    (hf : ∀ a t', start ≤ t'.cursor.offset → t'.IsPaid text credit →
      Ends text credit' t'.cursor.offset (f a t')) :
    Ends text credit' start ((x >>= f) t) := by
  rw [bind_apply]
  generalize x t = r at hx ⊢
  cases hx with
  | ok hle hpaid => exact (hf _ _ hle hpaid).mono (Nat.le_refl _) hle
  | error hle hpaid => exact .error hle hpaid

end Ends

/-! ## Steps -/

/-- The limit of nesting takes no credit. -/
lemma ends_nest (o : CompileOptions) (depth : ℕ) (h : t.IsPaid text credit) :
    Ends text credit t.cursor.offset (nest o depth t) := by
  rw [nest_apply]
  split
  · exact .ok (Nat.le_refl _) h
  · exact .error (Nat.le_refl _) (h.mono (Nat.zero_le credit))

/-- To mark the program takes no credit. -/
lemma ends_mark (h : t.IsPaid text credit) : Ends text credit t.cursor.offset (mark t) :=
  .ok (Nat.le_refl _) h

/-- An emission costs one unit of the credit. -/
lemma ends_emit (i : Instruction) (h : t.IsPaid text (credit + 1)) :
    Ends text credit t.cursor.offset (emit i t) := by
  rw [emit, bind_apply, compiling, Compilation.emit]
  cases hemit : t.workplace.program.emit i with
  | error e => exact .error (Nat.le_refl _) (h.mono (Nat.zero_le _))
  | ok p =>
    obtain ⟨-, rfl⟩ := Program.emit_eq_ok_iff.1 hemit
    have hpaid := h.emissions_add_le
    dsimp only
    rw [note_apply]
    refine .ok (Nat.le_refl _) ⟨h.standsIn, ?_, ?_, ?_⟩
    · rw [noted, emissions_cons]
      show emissions t.log + 1 + credit ≤ t.cursor.offset
      omega
    · have hsize := h.size_le
      rw [noted, emissions_cons]
      simp only [Program.size, Array.size_push] at hsize ⊢
      exact Nat.succ_le_succ hsize
    · intro m earlier hsuffix
      rcases List.suffix_cons_iff.1 hsuffix with heq | hsuffix
      · obtain ⟨rfl, rfl⟩ := List.cons.inj heq
        refine ⟨h.standsIn, ?_, nofun⟩
        rw [emissions_cons]
        show emissions t.log + 1 ≤ t.cursor.offset
        omega
      · exact h.isSound m earlier hsuffix

/-- Folding makes no program longer. -/
lemma size_fold_le (p : Program) (values : ℕ → Float) (stackCapacity start : ℕ) :
    (p.fold values stackCapacity start).size ≤ p.size := by
  rcases p.fold_cases values stackCapacity start with hsame | ⟨x, -, hrun, -, hfold⟩
  · rw [hsame]
  · have hcode : p.codeFrom start ≠ [] := by
      intro hnil
      rw [hnil, Instruction.run_eq_ok_iff, Instruction.steps_nil_eq_ok_iff] at hrun
      contradiction
    rw [Program.codeFrom_eq_drop, ne_eq, List.drop_eq_nil_iff, Nat.not_le, Array.length_toList]
      at hcode
    rw [hfold, Program.size, Program.replaceFrom, Array.size_push, Array.size_extract, Program.size]
    omega

/-- Folding takes no credit. -/
lemma ends_fold (o : CompileOptions) (before : Program) (h : t.IsPaid text credit) :
    Ends text credit t.cursor.offset (fold o before t) :=
  have hnoted : (t.noted (.folding before)).IsPaid text credit := h.noted rfl nofun
  .ok (Nat.le_refl _) (hnoted.withWorkplace (size_fold_le _ _ _ _))

/-- An emission that is folded at once. -/
lemma ends_emitFolding (o : CompileOptions) (i : Instruction) (before : Program)
    (h : t.IsPaid text (credit + 1)) :
    Ends text credit t.cursor.offset (emitFolding o i before t) :=
  (ends_emit i h).bind fun _ _ _ hpaid => ends_fold o before hpaid

/-- Resolving a name takes no credit. -/
lemma ends_resolve (o : CompileOptions) (name : String) (position : ℕ) (h : t.IsPaid text credit) :
    Ends text credit t.cursor.offset (compiling (Compilation.resolve o name position) t) := by
  have hprogram : (Outcome.final (Compilation.resolve o name position t.workplace)).program =
      t.workplace.program := by
    unfold Compilation.resolve
    split
    · rfl
    · split
      · split <;> rfl
      · rfl
  unfold compiling
  cases hrun : Compilation.resolve o name position t.workplace with
  | ok index w =>
    rw [hrun] at hprogram
    exact .ok (Nat.le_refl _) (h.withWorkplace (congrArg Program.size hprogram).le)
  | error e w =>
    rw [hrun] at hprogram
    exact .error (Nat.le_refl _)
      ((h.withWorkplace (congrArg Program.size hprogram).le).mono (Nat.zero_le credit))

/-- A mark is passed, or the translation fails before it. -/
lemma ends_of_mark (ch : Char) (e : Error) (h : t.IsPaid text credit) :
    Ends text credit t.cursor.offset
      (if t.cursor.token? = some (.symbol [ch]) then
        some (.ok (), t.moveTo (t.cursor.past (.symbol [ch])))
      else some (.error e, t.moveTo t.cursor.skipBlanks)) := by
  split
  · rename_i htoken
    exact .ok (Nat.le_of_lt (Cursor.offset_past_lt htoken))
      ((h.past htoken).mono (Nat.le_succ credit))
  · exact .error t.cursor.offset_skipBlanks_le (h.skipBlanks.mono (Nat.zero_le credit))

/-- Closing a parenthesis takes no credit. -/
lemma ends_closeGroup (opening : ℕ) (h : t.IsPaid text credit) :
    Ends text credit t.cursor.offset (reading (Reader.closeGroup opening) t) :=
  closeGroup_apply opening t ▸ ends_of_mark ')' _ h

/-- Reading a mark takes no credit. -/
lemma ends_expect {ch : Char} (hch : Cursor.IsMark ch) (h : t.IsPaid text credit) :
    Ends text credit t.cursor.offset (reading (Reader.expect ch) t) :=
  expect_apply hch t ▸ ends_of_mark ch _ h

/-- The question mark pays for the choice, and the branches are entered behind it. -/
lemma ends_choice {x : Translating Unit} (before : Program)
    (hbranch : ∀ t' : Translation, t.cursor.offset < t'.cursor.offset →
      t'.IsPaid text (credit + 1) → Ends text (credit + 1) t'.cursor.offset (x t'))
    (h : t.IsPaid text credit) :
    Ends text credit t.cursor.offset ((do
      if ← reading (Reader.eat '?') then
        x
        reading (Reader.expect ':')
        x
        emitFolding o .choice before : Translating Unit) t) := by
  rw [bind_apply, eat_apply Expr.isMark_question]
  by_cases hquestion : t.cursor.token? = some (.symbol ['?'])
  · rw [if_pos hquestion]
    dsimp only
    rw [if_pos rfl]
    have hlt := Cursor.offset_past_lt hquestion
    refine Ends.mono ?_ (Nat.le_refl credit) (Nat.le_of_lt hlt)
    exact (hbranch _ hlt (h.past hquestion)).bind fun _ t₁ hle₁ h₁ =>
      (ends_expect Expr.isMark_colon h₁).bind fun _ t₂ hle₂ h₂ =>
        (hbranch t₂ (Nat.lt_of_lt_of_le hlt (Nat.le_trans hle₁ hle₂)) h₂).bind fun _ t₃ _ h₃ =>
          ends_emitFolding o .choice before h₃
  · rw [if_neg hquestion]
    exact .ok t.cursor.offset_skipBlanks_le h.skipBlanks

/-! ## Phrases -/

open CompileOptions

/-- Whether calls at a station come to their end, wherever from some offset on they are entered. -/
def EndsFrom (text : List Char) (start : ℕ) (station : Station)
    (x : ℕ → List Entry → Translating β) : Prop :=
  ∀ depth calls credit t, start ≤ t.cursor.offset → t.IsPaid text credit →
    IsNested text (⟨station, t.cursor⟩ :: calls) →
    Ends text credit t.cursor.offset (x depth calls t)

section

variable {station : Station} {x : ℕ → List Entry → Translating β}

/-- Behind the end of the source nothing is entered. -/
lemma endsFrom_of_lt (h : utf8Length text < start) : EndsFrom text start station x :=
  fun _ _ _ _ hstart hpaid => absurd (Nat.le_trans hstart hpaid.standsIn.offset_le) (Nat.not_le.2 h)

/-- What holds behind the end of a source, and holds from an offset on if it does from the next one
on, holds from everywhere on. -/
lemma of_later {P : ℕ → Prop} (text : List Char) (hend : ∀ n, utf8Length text < n → P n)
    (hstep : ∀ n, start ≤ n → P (n + 1) → P n) : P start := by
  rcases Nat.lt_or_ge (utf8Length text) start with hlt | hle
  · exact hend start hlt
  · exact Nat.decreasingInduction' (fun n _ hn => hstep n hn) (Nat.le_succ_of_le hle)
      (hend _ (Nat.lt_succ_self _))

end

/-- An operator pays for its instruction, and the next turn begins behind it. -/
lemma endsFrom_operations {operators : List (Spelling × BinaryOp)}
    {tighter : List (List (Spelling × BinaryOp))}
    (h : ∀ candidate ∈ operators, candidate.1 ∈ Expr.binaryOperators.vocabulary)
    (htighter : EndsFrom text start (.levels tighter.length) fun depth calls =>
      climb o depth calls tighter) (before : Program) :
    EndsFrom text start .operator fun depth calls =>
      operations o depth calls operators tighter before := by
  refine of_later text (fun n => endsFrom_of_lt) fun n hstart ih => ?_
  intro depth calls credit t hn hpaid hnested
  have hinside := hpaid.entered hnested
  have hopen := hnested.isOpen
  have hdone : Ends text credit t.cursor.offset
      (some (.ok (), (t.entered (⟨.operator, t.cursor⟩ :: calls)).moveTo t.cursor.skipBlanks) :
        Option (Except Error Unit × Translation)) :=
    .ok t.cursor.offset_skipBlanks_le hinside.skipBlanks
  dsimp only
  rw [operations_apply o depth calls h]
  dsimp only
  split
  · rename_i s htoken
    split
    · exact hdone
    · rename_i candidate _
      have hlt := Cursor.offset_past_lt htoken
      have hpast := hinside.past htoken
      refine Ends.mono ?_ (Nat.le_refl credit) (Nat.le_of_lt hlt)
      refine (htighter depth _ _ _ (Nat.le_trans hstart (Nat.le_trans hn (Nat.le_of_lt hlt))) hpast
        (hopen _ _ hpast.standsIn hlt)).bind fun _ t₁ hle₁ h₁ => ?_
      have hreducing : Ends text (credit + 1) t₁.cursor.offset (note (.reducing before) t₁) :=
        .ok (Nat.le_refl _) (h₁.noted rfl nofun)
      refine hreducing.bind fun _ t₂ hle₂ h₂ =>
        (ends_emitFolding o _ before h₂).bind fun _ t₃ hle₃ h₃ => ?_
      have hlt₃ : t.cursor.offset < t₃.cursor.offset :=
        Nat.lt_of_lt_of_le hlt (Nat.le_trans hle₁ (Nat.le_trans hle₂ hle₃))
      exact ih depth _ _ t₃ (Nat.lt_of_le_of_lt hn hlt₃) h₃ (hopen _ _ h₃.standsIn hlt₃)
  · exact hdone

/-- Levels are left behind on the way to the operand, so that nothing needs to be consumed there. -/
lemma endsFrom_climb {levels : List (List (Spelling × BinaryOp))}
    (h : ∀ operators ∈ levels, ∀ candidate ∈ operators,
      candidate.1 ∈ Expr.binaryOperators.vocabulary)
    (hoperand : EndsFrom text start .operand (operand o)) :
    EndsFrom text start (.levels levels.length) fun depth calls => climb o depth calls levels := by
  induction levels with
  | nil =>
    intro depth calls credit t hstart hpaid hnested
    dsimp only
    rw [climb]
    exact hoperand depth calls credit t hstart hpaid (hnested.congr rfl rfl)
  | cons operators tighter ih =>
    have htighter := ih fun operators' h' => h operators' (List.mem_cons_of_mem _ h')
    intro depth calls credit t hstart hpaid hnested
    have hinside := hpaid.entered hnested
    dsimp only
    rw [climb_cons_apply]
    refine (htighter depth _ _ (t.entered _) hstart hinside
      (hnested.cons hpaid.standsIn (.of_le (Nat.le_refl _) (Nat.lt_succ_self _)))).bind
      fun _ t₁ hle₁ h₁ => ?_
    exact endsFrom_operations (h operators List.mem_cons_self) htighter _ depth _ _ t₁
      (Nat.le_trans hstart hle₁) h₁ (hnested.cons h₁.standsIn (.of_le hle₁ (Nat.succ_pos _)))

/-- The levels of an expression are entered where it begins, its branches further on. -/
lemma endsFrom_expression (hoperand : EndsFrom text start .operand (operand o))
    (hexpression : EndsFrom text (start + 1) .expression (expression o)) :
    EndsFrom text start .expression (expression o) := by
  intro depth calls credit t hstart hpaid hnested
  have hinside := hpaid.entered hnested
  rw [expression_apply]
  refine (ends_nest o depth hinside).bind fun depth t₁ hle₁ h₁ =>
    (ends_mark h₁).bind fun before t₂ hle₂ h₂ => ?_
  have hle₂ : t.cursor.offset ≤ t₂.cursor.offset := Nat.le_trans hle₁ hle₂
  have hlevels : IsNested text (⟨.levels Expr.binaryOperators.levels.length, t₂.cursor⟩ ::
      ⟨.expression, t.cursor⟩ :: calls) :=
    hnested.cons h₂.standsIn (.of_le hle₂ (Nat.lt_succ_self _))
  refine (endsFrom_climb Expr.mem_vocabulary_of_mem_levels hoperand depth _ _ t₂
    (Nat.le_trans hstart hle₂) h₂ hlevels).bind fun _ t₃ hle₃ h₃ => ?_
  refine ends_choice before (fun t' hlt h => ?_) h₃
  have hlt : t.cursor.offset < t'.cursor.offset :=
    Nat.lt_of_le_of_lt (Nat.le_trans hle₂ hle₃) hlt
  exact hexpression depth _ _ t' (Nat.lt_of_le_of_lt hstart hlt) h
    (hnested.isOpen _ _ h.standsIn hlt)

/-- A comma is consumed in every turn but the last. -/
lemma endsFrom_arguments (hexpression : EndsFrom text start .expression (expression o))
    (opening found : ℕ) :
    EndsFrom text start .argument fun depth calls => arguments o depth calls opening found := by
  refine of_later (P := fun n => ∀ found, EndsFrom text n .argument fun depth calls =>
    arguments o depth calls opening found) text (fun n hn found => endsFrom_of_lt hn)
    (fun n hstart ih found => ?_) found
  intro depth calls credit t hn hpaid hnested
  have hinside := hpaid.entered hnested
  have hwithin : IsNested text (⟨.expression, t.cursor⟩ :: ⟨.argument, t.cursor⟩ :: calls) :=
    hnested.cons hpaid.standsIn (.of_le (Nat.le_refl _) (Nat.lt_succ_self _))
  have hfirst := hexpression depth (⟨.argument, t.cursor⟩ :: calls) credit (t.entered _)
    (Nat.le_trans hstart hn) hinside hwithin
  dsimp only
  rw [arguments_apply]
  dsimp only
  generalize expression o depth _ _ = r at hfirst ⊢
  cases hfirst with
  | error hle h => exact .error hle h
  | @ok _ t₁ hle₁ h₁ =>
    dsimp only
    split
    · rename_i hcomma
      have hlt : t.cursor.offset < (t₁.cursor.past (.symbol [','])).offset :=
        Nat.lt_of_le_of_lt hle₁ (Cursor.offset_past_lt hcomma)
      have hpast := h₁.past hcomma
      exact (ih (found + 1) depth _ _ (t₁.moveTo _) (Nat.lt_of_le_of_lt hn hlt) hpast
        (hnested.isOpen _ _ hpast.standsIn hlt)).mono (Nat.le_succ credit) (Nat.le_of_lt hlt)
    · refine Ends.mono ?_ (Nat.le_refl credit)
        (Nat.le_trans hle₁ t₁.cursor.offset_skipBlanks_le)
      exact (ends_closeGroup opening h₁.skipBlanks).bind fun _ t₂ hle₂ h₂ =>
        .ok (Nat.le_refl _) h₂

/-- The name of a function has paid for its instruction. -/
lemma ends_application (hexpression : EndsFrom text (start + 1) .expression (expression o))
    (depth : ℕ) (hstart : start ≤ t.cursor.offset) (hpaid : t.IsPaid text (credit + 1))
    (hopen : IsOpen text calls t.cursor) (function : Builtin) (position : ℕ) :
    Ends text credit t.cursor.offset (application o depth calls function position t) := by
  have hfinish : ∀ (found : ℕ) (t' : Translation), t'.IsPaid text (credit + 1) →
      Ends text credit t'.cursor.offset ((do
        unless found = function.meaning.arity do
          throw (.argumentCount function.name function.meaning.arity found)
        emitFolding o function.meaning.instruction t.workplace.program : Translating Unit) t') := by
    intro found t' h
    dsimp only
    split
    · exact ends_emitFolding o _ _ h
    · exact .error (Nat.le_refl _) (h.mono (Nat.zero_le _))
  rw [application_apply]
  dsimp only
  split
  · rename_i hparenthesis
    have hlt := Cursor.offset_past_lt hparenthesis
    have hpast := (hpaid.past hparenthesis).mono (Nat.le_succ (credit + 1))
    split
    · rename_i hclose
      refine (hfinish 0 _ ((hpast.past hclose).mono (Nat.le_succ _))).mono (Nat.le_refl _) ?_
      exact Nat.le_of_lt (Nat.lt_trans hlt (Cursor.offset_past_lt hclose))
    · have hblanks := hpast.skipBlanks
      have hlt := Nat.lt_of_lt_of_le hlt (t.cursor.past (.symbol ['('])).offset_skipBlanks_le
      refine Ends.mono ?_ (Nat.le_refl credit) (Nat.le_of_lt hlt)
      exact (endsFrom_arguments hexpression _ 0 depth calls _ _ (Nat.lt_of_le_of_lt hstart hlt)
        hblanks (hopen _ _ hblanks.standsIn hlt)).bind fun found t' _ h => hfinish found t' h
  · exact .error t.cursor.offset_skipBlanks_le (hpaid.skipBlanks.mono (Nat.zero_le _))

/-- A name has paid for the instruction that it stands for. -/
lemma ends_named (hexpression : EndsFrom text (start + 1) .expression (expression o)) (depth : ℕ)
    (hstart : start ≤ t.cursor.offset) (hpaid : t.IsPaid text (credit + 1))
    (hopen : IsOpen text calls t.cursor) (name : String) (position : ℕ) :
    Ends text credit t.cursor.offset (named o depth calls name position t) := by
  rw [named]
  rcases Builtin.lookup name with _ | ⟨functionName, _ | _ | _⟩
  · exact (ends_resolve o name position hpaid).bind fun index t' _ h => ends_emit (.load index) h
  · exact (ends_mark hpaid).bind fun before t' _ h => ends_emitFolding o _ before h
  · exact ends_application hexpression depth hstart hpaid hopen _ position
  · exact ends_application hexpression depth hstart hpaid hopen _ position

/-- Primaries come to their end if the expressions behind their first byte do. -/
lemma ends_primary (hexpression : EndsFrom text (start + 1) .expression (expression o)) (depth : ℕ)
    (hstart : start ≤ t.cursor.offset) (hpaid : t.IsPaid text credit)
    (hopen : IsOpen text calls t.cursor) :
    Ends text credit t.cursor.offset (primary o depth calls t) := by
  rw [primary_apply]
  split
  · rename_i n htoken
    have hle := Nat.le_of_lt (Cursor.offset_past_lt htoken)
    split
    · rename_i x _
      exact (ends_emit (.const x) (hpaid.past htoken)).mono (Nat.le_refl _) hle
    · exact .error t.cursor.offset_skipBlanks_le (hpaid.skipBlanks.mono (Nat.zero_le _))
  · rename_i name htoken
    have hle := Nat.le_of_lt (Cursor.offset_past_lt htoken)
    exact (ends_named hexpression depth (Nat.le_trans hstart hle) (hpaid.past htoken)
      (hopen.mono hle) name _).mono (Nat.le_refl _) hle
  · rename_i htoken
    have hlt := Cursor.offset_past_lt htoken
    have hpast := hpaid.past htoken
    refine Ends.mono ?_ (Nat.le_succ credit) (Nat.le_of_lt hlt)
    exact (hexpression depth calls _ _ (Nat.lt_of_le_of_lt hstart hlt) hpast
      (hopen _ _ hpast.standsIn hlt)).bind fun _ t' _ h => ends_closeGroup _ h
  · exact .error t.cursor.offset_skipBlanks_le (hpaid.skipBlanks.mono (Nat.zero_le _))

/-- A sign pays for its instruction, and the operand behind it is entered further on. -/
lemma endsFrom_operand (hoperand : EndsFrom text (start + 1) .operand (operand o))
    (hexpression : EndsFrom text (start + 1) .expression (expression o)) :
    EndsFrom text start .operand (operand o) := by
  intro depth calls credit t hstart hpaid hnested
  have hinside := hpaid.entered hnested
  have hopen := hnested.isOpen
  rw [operand_apply]
  dsimp only
  split
  · have hle := t.cursor.offset_skipBlanks_le
    exact (ends_primary hexpression depth (Nat.le_trans hstart hle) hinside.skipBlanks
      (hopen.mono hle)).mono (Nat.le_refl _) hle
  · rename_i sign hsign
    have hlt := Cursor.offset_sign_lt hsign
    have hmoved : IsPaid text (credit + 1) _ :=
      hinside.moveTo (hpaid.standsIn.skipBlanks.skip 1) hlt
    refine Ends.mono ?_ (Nat.le_refl credit) (Nat.le_of_lt hlt)
    refine (ends_nest o depth hmoved).bind fun depth t₁ hle₁ h₁ =>
      (ends_mark h₁).bind fun before t₂ hle₂ h₂ => ?_
    have hlt₂ := Nat.lt_of_lt_of_le hlt (Nat.le_trans hle₁ hle₂)
    refine (hoperand depth _ _ t₂ (Nat.lt_of_le_of_lt hstart hlt₂) h₂
      (hopen _ _ h₂.standsIn hlt₂)).bind fun _ t₃ hle₃ h₃ => ?_
    cases sign with
    | none => exact .ok (Nat.le_refl _) (h₃.mono (Nat.le_succ credit))
    | some f => exact ends_emitFolding o (.unary f) before h₃

/-- Expressions and operands come to their end, whatever the limits are. -/
theorem endsFrom_phrases (text : List Char) (o : CompileOptions) (start : ℕ) :
    EndsFrom text start .operand (operand o) ∧ EndsFrom text start .expression (expression o) := by
  refine of_later (P := fun n => EndsFrom text n .operand (operand o) ∧
    EndsFrom text n .expression (expression o)) text
    (fun n hn => ⟨endsFrom_of_lt hn, endsFrom_of_lt hn⟩) fun n _ ih => ?_
  have hoperand := endsFrom_operand ih.1 ih.2
  exact ⟨hoperand, endsFrom_expression hoperand ih.2⟩

/-! ## Sources -/

/-- The translation of a source before its first step. -/
def begin (source : String) (w : Workplace) : Translation :=
  ⟨Cursor.ofString source, { w with program := w.program.clear }, []⟩

/-- Before the first step nothing has been emitted and nothing is owed. -/
lemma isPaid_begin (source : String) (w : Workplace) :
    (begin source w).IsPaid source.toList 0 where
  standsIn := Cursor.standsIn_ofString source
  emissions_add_le := Nat.le_refl 0
  size_le := Nat.le_refl 0
  isSound _ _ hsuffix := absurd (List.suffix_nil.1 hsuffix) (List.cons_ne_nil _ _)

/-- The translation of a source comes to its end. -/
theorem ends_whole (o : CompileOptions) (source : String) (w : Workplace) :
    Ends source.toList 0 0 (whole o (begin source w)) := by
  have hexpression := (endsFrom_phrases source.toList o 0).2
  refine (ends_mark (isPaid_begin source w)).bind fun before t hle h => ?_
  refine (hexpression 0 [] 0 t (Nat.zero_le _) h ⟨List.forall_mem_singleton.2 h.standsIn,
    List.pairwise_singleton _ _⟩).bind fun _ t₁ _ h₁ =>
      (ends_fold o before h₁).bind fun _ t₂ _ h₂ => ?_
  rw [bind_apply, Reader.atEnd, scan_apply]
  have hblanks : (t₂.moveTo t₂.cursor.skipBlanks).IsPaid source.toList 0 := h₂.skipBlanks
  dsimp only
  split
  · exact .ok t₂.cursor.offset_skipBlanks_le hblanks
  · have htwice : (t₂.moveTo t₂.cursor.skipBlanks.skipBlanks).IsPaid source.toList 0 :=
      hblanks.skipBlanks
    refine .error ?_ htwice
    exact Nat.le_trans t₂.cursor.offset_skipBlanks_le t₂.cursor.skipBlanks.offset_skipBlanks_le

end Translation

end Reckon
