import Reckon.Proofs.Expr.Translation
import Reckon.Proofs.Outcome

/-!
# Translations and readers side by side

A reader of expressions finishes them first and has them compiled afterwards; a translation compiles
each part as soon as it is read.  The two are compared from any moment on: the expressions that the
reader has finished since are the ones that the translation has compiled (`Translation.Renders`).

A translation stops where the compilation fails, while the reader goes on and may find an error of
its own or none.  Whatever it still reads, the compilation of all it has finished fails as before
(`Translation.Stopped`), so that nothing has to be known of how it goes on but that what was
finished remains part of it.  Parts of translations and readers that carry on alike in both cases
(`Translation.Carries`) can be put in sequence.
-/

namespace Reckon

open Outcome

namespace Expr

variable {o : CompileOptions} {older : List Expr} {w w' : Workplace} {e : Error}

/-- What was finished first is compiled first. -/
lemma emitAll_append (o : CompileOptions) (newer older : List Expr) :
    emitAll o (newer ++ older) = emitAll o older >>= fun _ => emitAll o newer := by
  unfold emitAll
  rw [List.reverse_append]
  exact List.forM_append

/-- Newer expressions are emitted where the older ones have left the workplace. -/
lemma emitAll_append_of_ok (h : emitAll o older w = .ok () w') (newer : List Expr) :
    emitAll o (newer ++ older) w = emitAll o newer w' := by
  rw [emitAll_append, bind_apply, h]

/-- If the older expressions fail, the newer ones are not emitted. -/
lemma emitAll_append_of_error (h : emitAll o older w = .error e w') (newer : List Expr) :
    emitAll o (newer ++ older) w = .error e w' := by
  rw [emitAll_append, bind_apply, h]

/-- A single expression is emitted by itself. -/
lemma emitAll_singleton (o : CompileOptions) (e : Expr) : emitAll o [e] = e.emit o :=
  bind_pure (e.emit o)

/-- The newest expression is emitted last. -/
lemma emitAll_cons (o : CompileOptions) (e : Expr) (newer : List Expr) :
    emitAll o (e :: newer) = emitAll o newer >>= fun _ => e.emit o := by
  rw [← emitAll_singleton]
  exact emitAll_append o [e] newer

end Expr

namespace Translation

variable {β γ : Type} {o : CompileOptions} {base newer : List Expr} {w w' : Workplace} {e : Error}
  {t : Translation} {S : β → Cursor → List Expr → Prop} {S' : γ → Cursor → List Expr → Prop}
  {x : Translating β} {f : β → Translating γ} {r q : Reader Expr Unit} {p : Progress Expr}
  {room : ℕ}

/-! ## Outcomes -/

/-- Whether a reader has finished expressions whose compilation fails like this. -/
def Stopped (o : CompileOptions) (base : List Expr) (w : Workplace)
    (S : β → Cursor → List Expr → Prop) (e : Error) (w' : Workplace)
    (r : EStateM.Result Error (Progress Expr) Unit) : Prop :=
  ∃ newer, (final r).done = newer ++ base ∧ Expr.emitAll o newer w = .error e w' ∧
    (isSuccess r = true → ∃ b, S b (final r).cursor newer)

/-- Whether a translation that began in a workplace has done what a reader has, and compiled what
that has finished since, unless this fails: then the translation has failed in the same way. -/
inductive Renders (o : CompileOptions) (base : List Expr) (w : Workplace)
    (S : β → Cursor → List Expr → Prop) :
    Option (Except Error β × Translation) → EStateM.Result Error (Progress Expr) Unit → Prop
  | ok {b : β} {newer : List Expr} {t : Translation} : S b t.cursor newer →
      Expr.emitAll o newer w = .ok () t.workplace →
      Renders o base w S (some (.ok b, t)) (.ok () ⟨t.cursor, newer ++ base⟩)
  | error {e : Error} {newer : List Expr} {t : Translation} {c : Cursor} :
      Expr.emitAll o newer w = .ok () t.workplace →
      Renders o base w S (some (.error e, t)) (.error e ⟨c, newer ++ base⟩)
  | stopped {e : Error} {t : Translation} {r : EStateM.Result Error (Progress Expr) Unit} :
      Stopped o base w S e t.workplace r → Renders o base w S (some (.error e, t)) r

/-- Whether a part of a translation and a reader carry on alike, from expressions of some shape
on. -/
structure Carries (o : CompileOptions) (base : List Expr) (w : Workplace)
    (S : β → Cursor → List Expr → Prop) (S' : γ → Cursor → List Expr → Prop)
    (f : β → Translating γ) (q : Reader Expr Unit) : Prop where
  going : ∀ b t newer, S b t.cursor newer → Expr.emitAll o newer w = .ok () t.workplace →
    Renders o base w S' (f b t) (q ⟨t.cursor, newer ++ base⟩)
  stopped : ∀ b c newer e w', S b c newer → Expr.emitAll o newer w = .error e w' →
    Stopped o base w S' e w' (q ⟨c, newer ++ base⟩)

/-- Once a compilation has failed it stays failed while the reader carries on. -/
lemma Stopped.bind (h : Stopped o base w S e w' (r p)) (hf : Carries o base w S S' f q) :
    Stopped o base w S' e w' ((r >>= fun _ => q) p) := by
  obtain ⟨newer, hdone, hemit, hshape⟩ := h
  rw [Outcome.bind_apply]
  cases hr : r p with
  | ok _ p' =>
    rw [hr] at hdone hshape
    obtain ⟨b, hb⟩ := hshape rfl
    obtain ⟨c, done⟩ := p'
    obtain rfl : done = newer ++ base := hdone
    exact hf.stopped b c newer e w' hb hemit
  | error e' p' =>
    rw [hr] at hdone
    exact ⟨newer, hdone, hemit, nofun⟩

/-- What renders a reader and what carries on with it render both together. -/
lemma Renders.bind (h : Renders o base w S (x t) (r p)) (hf : Carries o base w S S' f q) :
    Renders o base w S' ((x >>= f) t) ((r >>= fun _ => q) p) := by
  rw [bind_apply]
  generalize x t = y at h ⊢
  generalize hr : r p = r' at h
  cases h with
  | ok hshape hemit =>
    rw [Outcome.bind_apply, hr]
    exact hf.going _ _ _ hshape hemit
  | error hemit =>
    rw [Outcome.bind_apply, hr]
    exact .error hemit
  | stopped hstopped =>
    rw [← hr] at hstopped
    exact .stopped (hstopped.bind hf)

/-- Both fail before anything has been finished. -/
lemma Renders.error_of_nil {c : Cursor} (hw : t.workplace = w) :
    Renders o base w S (some (.error e, t)) (.error e ⟨c, base⟩) := by
  subst hw
  have hnil : Expr.emitAll o [] t.workplace = .ok () t.workplace := rfl
  exact .error hnil

/-- Less can be known of what has been finished. -/
lemma Renders.mono {S₁ : β → Cursor → List Expr → Prop} {y : Option (Except Error β × Translation)}
    {r : EStateM.Result Error (Progress Expr) Unit} (h : Renders o base w S y r)
    (hS : ∀ b c newer, S b c newer → S₁ b c newer) : Renders o base w S₁ y r := by
  cases h with
  | ok hshape hemit => exact .ok (hS _ _ _ hshape) hemit
  | error hemit => exact .error hemit
  | stopped hstopped =>
    obtain ⟨newer, hdone, hemit, hshape⟩ := hstopped
    exact .stopped ⟨newer, hdone, hemit, fun hsuccess => (hshape hsuccess).imp fun _ => hS _ _ _⟩

namespace Carries

variable {α δ : Type} {S₁ : γ → Cursor → List Expr → Prop} {S'' : δ → Cursor → List Expr → Prop}
  {g : γ → Translating δ} {q' : Reader Expr Unit}

/-- Parts that carry on alike can be done one after the other. -/
lemma seq (h : Carries o base w S S' f q) (h' : Carries o base w S' S'' g q') :
    Carries o base w S S'' (fun b => f b >>= g) (q >>= fun _ => q') where
  going b t newer hshape hemit := (h.going b t newer hshape hemit).bind h'
  stopped b c newer e w' hshape hemit := (h.stopped b c newer e w' hshape hemit).bind h'

end Carries

/-! ## Numbers of expressions -/

/-- So many expressions, behind which at most some number of characters is left. -/
def Counts (room : ℕ) (count : β → ℕ) (b : β) (c : Cursor) (newer : List Expr) : Prop :=
  newer.length = count b ∧ c.rest.length ≤ room

/-- The number of characters left may be given too high. -/
lemma Renders.widen {less : ℕ} {count : β → ℕ} {y : Option (Except Error β × Translation)}
    {r : EStateM.Result Error (Progress Expr) Unit} (h : Renders o base w (Counts less count) y r)
    (hle : less ≤ room) : Renders o base w (Counts room count) y r :=
  h.mono fun _ _ _ hshape => ⟨hshape.1, Nat.le_trans hshape.2 hle⟩

/-- Whether a part of a translation compiles the one expression that a reader reads, where at most
some number of characters is left. -/
def Mirrors (o : CompileOptions) (bound : ℕ) (x : Translating Unit) (r : Reader Expr Unit) : Prop :=
  ∀ t base, t.cursor.rest.length ≤ bound →
    Renders o base t.workplace (Counts t.cursor.rest.length fun _ => 1) (x t) (r ⟨t.cursor, base⟩)

/-- One more expression is counted on those that there were. -/
lemma Counts.append {less k : ℕ} {latest : List Expr} {c : Cursor}
    (h : Counts less (fun _ : Unit => 1) () c latest) (hle : less ≤ room)
      (hlength : newer.length = k) :
    Counts room (fun _ : Unit => k + 1) () c (latest ++ newer) := by
  refine ⟨?_, Nat.le_trans h.2 hle⟩
  rw [List.length_append, h.1, hlength, Nat.add_comm]

/-- What was finished before stays finished. -/
lemma Renders.after {y : Option (Except Error Unit × Translation)}
    {r : EStateM.Result Error (Progress Expr) Unit} {less k : ℕ}
    (h : Renders o (newer ++ base) w' (Counts less fun _ => 1) y r) (hle : less ≤ room)
    (hlength : newer.length = k) (hemit : Expr.emitAll o newer w = .ok () w') :
    Renders o base w (Counts room fun _ => k + 1) y r := by
  have hall := Expr.emitAll_append_of_ok hemit
  cases h with
  | @ok _ latest t hshape hemit' =>
    rw [← List.append_assoc]
    exact .ok (hshape.append hle hlength) ((hall latest).trans hemit')
  | @error e latest t c hemit' =>
    rw [← List.append_assoc]
    exact .error ((hall latest).trans hemit')
  | stopped hstopped =>
    obtain ⟨latest, hdone, hemit', hshape⟩ := hstopped
    refine .stopped ⟨latest ++ newer,
      by rw [hdone, List.append_assoc], (hall latest).trans hemit', ?_⟩
    exact fun hsuccess => (hshape hsuccess).imp fun _ hshape => hshape.append hle hlength

/-- What failed before stays as it is. -/
lemma Renders.stopped_after {y : Option (Except Error Unit × Translation)}
    {r : EStateM.Result Error (Progress Expr) Unit} {less k : ℕ} {w₀ : Workplace}
    (h : Renders o (newer ++ base) w (Counts less fun _ => 1) y r) (hle : less ≤ room)
    (hlength : newer.length = k) (hemit : Expr.emitAll o newer w₀ = .error e w') :
    Stopped o base w₀ (Counts room fun _ : Unit => k + 1) e w' r := by
  have hall := Expr.emitAll_append_of_error hemit
  cases h with
  | @ok _ latest t hshape =>
    exact ⟨latest ++ newer, (List.append_assoc latest newer base).symm, hall latest,
      fun _ => ⟨(), hshape.append hle hlength⟩⟩
  | @error _ latest =>
    exact ⟨latest ++ newer, (List.append_assoc latest newer base).symm, hall latest, nofun⟩
  | stopped hstopped =>
    obtain ⟨latest, hdone, -, hshape⟩ := hstopped
    exact ⟨latest ++ newer, by rw [hdone, List.append_assoc], hall latest,
      fun hsuccess => (hshape hsuccess).imp fun _ hshape => hshape.append hle hlength⟩

/-- A phrase is carried on by another. -/
lemma Mirrors.carries {bound : ℕ} {x : Translating Unit} (h : Mirrors o bound x r)
    (hroom : room ≤ bound)
    (k : ℕ) :
    Carries o base w (Counts room fun _ : Unit => k) (Counts room fun _ : Unit => k + 1)
      (fun _ => x)
      r where
  going _ t _ hshape hemit :=
    (h t _ (Nat.le_trans hshape.2 hroom)).after hshape.2 hshape.1 hemit
  stopped _ c _ _ w' hshape hemit :=
    (h ⟨c, w', []⟩ _ (Nat.le_trans hshape.2 hroom)).stopped_after hshape.2 hshape.1 hemit

/-! ## Steps -/

namespace Carries

variable {α : Type} {S₁ : γ → Cursor → List Expr → Prop}

/-- Less can be asked of what comes before, and more can be known of what comes after. -/
lemma mono {T : β → Cursor → List Expr → Prop} (h : Carries o base w S S' f q)
    (hT : ∀ b c newer, T b c newer → S b c newer)
    (hS : ∀ b c newer, S' b c newer → S₁ b c newer) : Carries o base w T S₁ f q := by
  constructor
  · intro b t newer hshape hemit
    exact (h.going b t newer (hT b _ newer hshape) hemit).mono hS
  · intro b c newer e w' hshape hemit
    obtain ⟨newer', hdone, hemit', hshape'⟩ := h.stopped b c newer e w' (hT b c newer hshape) hemit
    exact ⟨newer', hdone, hemit', fun hsuccess => (hshape' hsuccess).imp fun _ => hS _ _ _⟩

/-- To do nothing is to carry on alike. -/
protected lemma pure (b : γ) (hS : ∀ a c newer, S a c newer → S' b c newer) :
    Carries o base w S S' (fun _ => pure b) (pure ()) where
  going a _ newer hshape hemit := .ok (hS a _ newer hshape) hemit
  stopped a c newer _ _ hshape hemit := ⟨newer, rfl, hemit, fun _ => ⟨b, hS a c newer hshape⟩⟩

/-- A step of the cursor, the answer of which decides how to carry on. -/
lemma scan {step : Cursor → α × Cursor} {T : α → Unit → Cursor → List Expr → Prop}
    {f : α → Translating γ} {q : α → Reader Expr Unit}
    (hstep : ∀ b c newer, S b c newer → T (step c).1 () (step c).2 newer)
    (h : ∀ a, Carries o base w (T a) S' (fun _ => f a) (q a)) :
    Carries o base w S S' (fun _ => reading (Reader.scan step) >>= f) (Reader.scan step >>= q) where
  going b t newer hshape hemit :=
    (h _).going () (t.moveTo (step t.cursor).2) newer (hstep b t.cursor newer hshape) hemit
  stopped b c newer e w' hshape hemit :=
    (h _).stopped () (step c).2 newer e w' (hstep b c newer hshape) hemit

/-- It does not matter how much less is left. -/
lemma of_lt {k : ℕ} {x : Translating γ}
    (h : ∀ less < room, Carries o base w (Counts less fun _ => k) S' (fun _ : Unit => x) q) :
    Carries o base w (fun _ c newer => newer.length = k ∧ c.rest.length < room) S'
      (fun _ : Unit => x) q where
  going _ t newer hshape hemit := (h _ hshape.2).going () t newer ⟨hshape.1, Nat.le_refl _⟩ hemit
  stopped _ c newer e w' hshape hemit :=
    (h _ hshape.2).stopped () c newer e w' ⟨hshape.1, Nat.le_refl _⟩ hemit

/-- What is noted in the log does not matter. -/
lemma enter {station : Station} {calls : List Entry} {f : List Entry → Translating γ}
    (h : ∀ calls, Carries o base w S S' (fun _ => f calls) q) :
    Carries o base w S S' (fun _ => enter station calls >>= f) q where
  going b t newer hshape hemit := (h _).going b (t.entered _) newer hshape hemit
  stopped := (h calls).stopped

/-- A note in the log has no counterpart in the reader. -/
lemma note {event : Event} {x : Translating γ} (h : Carries o base w S S' (fun _ => x) q) :
    Carries o base w S S' (fun _ => note event >>= fun _ => x) q where
  going b t newer hshape hemit := h.going b (t.noted event) newer hshape hemit
  stopped := h.stopped

/-- Reading a mark or failing, which does not touch what is finished. -/
lemma mark {ch : Char} {err : Cursor → Error} {z : Reader Empty Unit} {z' : Reader Expr Unit}
    (hz : ∀ t, reading z t =
      if t.cursor.token? = some (.symbol [ch]) then
        some (.ok (), t.moveTo (t.cursor.past (.symbol [ch])))
      else some (.error (err t.cursor), t.moveTo t.cursor.skipBlanks))
    (hz' : ∀ s : Progress Expr, z' s =
      if s.cursor.token? = some (.symbol [ch]) then .ok () ⟨s.cursor.past (.symbol [ch]), s.done⟩
      else .error (err s.cursor) ⟨s.cursor.skipBlanks, s.done⟩) (k : ℕ) :
    Carries o base w (Counts room fun _ : Unit => k) (Counts room fun _ : Unit => k)
      (fun _ => reading z) z' where
  going _ t newer hshape hemit := by
    rw [hz, hz']
    by_cases htoken : t.cursor.token? = some (.symbol [ch])
    · rw [if_pos htoken, if_pos htoken]
      have hle := Nat.le_of_lt (Cursor.length_past_lt htoken)
      refine .ok (t := t.moveTo _) ⟨hshape.1, Nat.le_trans hle hshape.2⟩ hemit
    · rw [if_neg htoken, if_neg htoken]
      exact .error (t := t.moveTo _) hemit
  stopped _ c newer e w' hshape hemit := by
    rw [hz']
    refine ⟨newer, ?_, hemit, ?_⟩
    · split <;> rfl
    · split
      · rename_i htoken
        have hle := Nat.le_of_lt (Cursor.length_past_lt htoken)
        exact fun _ => ⟨(), hshape.1, Nat.le_trans hle hshape.2⟩
      · exact nofun

end Carries

/-- Reading a mark adds no expression. -/
lemma carries_expect {ch : Char} (h : Cursor.IsMark ch) (k : ℕ) :
    Carries o base w (Counts room fun _ : Unit => k) (Counts room fun _ : Unit => k)
      (fun _ => reading (Reader.expect ch)) (Reader.expect ch) :=
  .mark (expect_apply h) (Reader.expect_apply h) k

/-- Closing a parenthesis adds no expression. -/
lemma carries_closeGroup (opening k : ℕ) :
    Carries o base w (Counts room fun _ : Unit => k) (Counts room fun _ : Unit => k)
      (fun _ => reading (Reader.closeGroup opening)) (Reader.closeGroup opening) :=
  .mark (closeGroup_apply opening) (Reader.closeGroup_apply opening) k

/-! ## Emissions -/

/-- Whether a part of a translation has done to the workplace what a part of a compilation has, and
has read nothing. -/
inductive Performs (c : Cursor) :
    Option (Except Error Unit × Translation) → EStateM.Result Error Workplace Unit → Prop
  | ok {t : Translation} : t.cursor = c → Performs c (some (.ok (), t)) (.ok () t.workplace)
  | error {e : Error} {t : Translation} : Performs c (some (.error e, t)) (.error e t.workplace)

/-- Emitting an instruction reads nothing. -/
lemma performs_emit (i : Instruction) (t : Translation) :
    Performs t.cursor (emit i t) (Compilation.emit i t.workplace) := by
  rw [emit, bind_apply, compiling]
  cases Compilation.emit i t.workplace with
  | ok _ w => exact .ok (t := { t with workplace := w }.noted _) rfl
  | error e w => exact .error (t := { t with workplace := w })

/-- Emitting an instruction and folding reads nothing. -/
lemma performs_emitFolding (o : CompileOptions) (i : Instruction) (before : Program)
    (t : Translation) :
    Performs t.cursor (emitFolding o i before t)
      ((Compilation.emit i >>= fun _ => Compilation.fold o before.size) t.workplace) := by
  have hemit := performs_emit i t
  rw [emitFolding, bind_apply, Outcome.bind_apply]
  generalize emit i t = y at hemit ⊢
  generalize Compilation.emit i t.workplace = r at hemit ⊢
  cases hemit with
  | @ok t' hc => exact .ok (t := { t'.noted (.folding before) with workplace := _ }) hc
  | error => exact .error

/-- Loading a variable is the compilation of the expression that it is. -/
lemma performs_load (o : CompileOptions) (name : String) (position : ℕ) (t : Translation) :
    Performs t.cursor
      ((compiling (Compilation.resolve o name position) >>= fun index => emit (.load index)) t)
      ((Expr.var name position).emit o t.workplace) := by
  rw [Expr.emit, bind_apply, Outcome.bind_apply, compiling]
  cases Compilation.resolve o name position t.workplace with
  | ok index w => exact performs_emit (.load index) { t with workplace := w }
  | error e w => exact .error (t := { t with workplace := w })

/-- What does to the workplace what the compilation of an expression does compiles that
expression. -/
lemma Performs.renders {y : Option (Except Error Unit × Translation)} {c : Cursor} {a : Expr}
    (h : Performs c y (a.emit o w)) (hroom : c.rest.length ≤ room) :
    Renders o base w (Counts room fun _ => 1) y (.ok () ⟨c, a :: base⟩) := by
  have hall := congrFun (Expr.emitAll_singleton o a) w
  generalize a.emit o w = r at h hall
  cases h with
  | ok hc =>
    subst hc
    have hcounts : Counts room (fun _ => 1) () _ [a] := ⟨rfl, hroom⟩
    exact .ok hcounts hall
  | error => exact .stopped ⟨[a], rfl, hall, fun _ => ⟨(), rfl, hroom⟩⟩

/-- To fold around a body is to fold behind it. -/
lemma folding_apply (body : Compilation Unit) (w : Workplace) :
    Compilation.folding o body w =
      (body >>= fun _ => Compilation.fold o w.program.size) w := rfl

/-- Whether an instruction computes what is built of the expressions finished so far. -/
def IsJoinedBy (o : CompileOptions) (i : Instruction) (newer : List Expr) (a : Expr) : Prop :=
  a.emit o = Compilation.folding o (Expr.emitAll o newer >>= fun _ => Compilation.emit i)

/-- A built-in that is applied is joined by its instruction. -/
lemma isJoinedBy_of_build? {m : Meaning} {a : Expr} (h : m.build? newer.reverse = some a) :
    IsJoinedBy o m.instruction newer a := by
  generalize hargs : newer.reverse = args at h
  obtain rfl := List.reverse_eq_iff.1 hargs
  unfold IsJoinedBy
  unfold Meaning.build? at h
  split at h
  · cases h
    rfl
  · cases h
    simp only [List.reverse_singleton, Expr.emitAll_singleton]
    rfl
  · cases h
    simp only [List.reverse_cons, List.reverse_nil, List.nil_append, List.singleton_append,
      Expr.emitAll_cons, bind_assoc]
    rfl
  · cases h

/-- A choice is joined by its instruction. -/
lemma isJoinedBy_of_choice? {a : Expr} (h : Expr.choice? newer.reverse = some a) :
    IsJoinedBy o .choice newer a := by
  generalize hargs : newer.reverse = args at h
  obtain rfl := List.reverse_eq_iff.1 hargs
  unfold IsJoinedBy
  unfold Expr.choice? at h
  split at h
  · cases h
    simp only [List.reverse_cons, List.reverse_nil, List.nil_append, List.cons_append,
      Expr.emitAll_cons, bind_assoc]
    rfl
  · cases h

/-- An instruction that is emitted and folded where a reader joins what is finished. -/
lemma Carries.reduceSince {build : List Expr → Option Expr} {otherwise : List Expr → Error}
    {i : Instruction} {count : β → ℕ} {f : β → Translating Unit}
    (hjoined : ∀ newer a, build newer.reverse = some a → IsJoinedBy o i newer a)
    (hsome : ∀ b (newer : List Expr) a, newer.length = count b → build newer.reverse = some a →
      f b = emitFolding o i w.program)
    (hnone : ∀ b (newer : List Expr) t, newer.length = count b → build newer.reverse = none →
      f b t = some (.error (otherwise newer.reverse), t)) :
    Carries o base w (Counts room count) (Counts room fun _ => 1) f
      (Reader.reduceSince base.length build otherwise) := by
  have hfolding : ∀ newer a, IsJoinedBy o i newer a → a.emit o w =
      match Expr.emitAll o newer w with
      | .ok _ w' => (Compilation.emit i >>= fun _ => Compilation.fold o w.program.size) w'
      | .error e w' => .error e w' := by
    intro newer a ha
    rw [ha, folding_apply, bind_assoc, Outcome.bind_apply]
    cases Expr.emitAll o newer w <;> rfl
  constructor
  · intro b t newer hshape hemit
    rw [Reader.reduceSince_apply]
    cases hbuild : build newer.reverse with
    | none =>
      rw [hnone b newer t hshape.1 hbuild]
      exact .error hemit
    | some a =>
      have hperforms := performs_emitFolding o i w.program t
      have ha : a.emit o w =
          (Compilation.emit i >>= fun _ => Compilation.fold o w.program.size) t.workplace := by
        rw [hfolding newer a (hjoined newer a hbuild), hemit]
      rw [← ha] at hperforms
      rw [hsome b newer a hshape.1 hbuild]
      exact hperforms.renders hshape.2
  · intro b c newer e w' hshape hemit
    rw [Reader.reduceSince_apply]
    cases hbuild : build newer.reverse with
    | none => exact ⟨newer, rfl, hemit, nofun⟩
    | some a =>
      have ha := hfolding newer a (hjoined newer a hbuild)
      rw [hemit] at ha
      exact ⟨[a], rfl, (congrFun (Expr.emitAll_singleton o a) w).trans ha,
        fun _ => ⟨(), rfl, hshape.2⟩⟩

end Translation

end Reckon
