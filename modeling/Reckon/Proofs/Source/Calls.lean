import Reckon.Expr.Reading
import Reckon.Filter.OnePass
import Reckon.Proofs.Source.Climbing

/-!
# The calls of precedence climbing

Whatever a climber makes of operands and operators, it reads and reduces them in the postfix order
of the tree in which tighter levels bind tighter and equal levels associate to the left, as a
shunting yard would, and it stops before the first token that is not an operator of the table.  The
output position handed to a reduction is the one at which the leftmost operand below it was read
(`Climber.calls_of_readsAs`).

To say so, a climber is made to keep a record of its calls (`Climber.recorded`).  Both languages are
read by climbers, expressions by a grammar and filters in one pass over the text, so that their
operators are read as the tree says (`Expr.phrase_eq_perform`, `Pass.phrase_eq_perform`).
-/

namespace Reckon

open Outcome

/-- A call of a climber: an operand is read at a place and an output position, or an operator is
reduced whose output begins at a position. -/
inductive Call (Op : Type)
  | operand (place : Cursor) (mark : ℕ)
  | reduce (op : Op) (start : ℕ)
  deriving DecidableEq

/-! ## The calls for a tree -/

namespace OperatorTree

variable {α β ι Op : Type} {level : ι → ℕ}

/-- The tree with other operands. -/
def mapOperands (f : α → β) : OperatorTree α ι → OperatorTree β ι
  | operand a => operand (f a)
  | node left op right => node (left.mapOperands f) op (right.mapOperands f)

/-- The operand at the left end. -/
def leftmost : OperatorTree α ι → α
  | operand a => a
  | node left _ _ => left.leftmost

/-- The calls for a tree whose operands are read at these places and output positions.  They are in
postfix order, and an operator is reduced from the output position of the leftmost operand below
it. -/
def calls : OperatorTree (Cursor × ℕ) (Spelling × Op) → List (Call Op)
  | operand a => [.operand a.1 a.2]
  | node left op right => left.calls ++ right.calls ++ [.reduce op.2 left.leftmost.2]

/-- What is read or reduced by a call. -/
def Symbol.ofCall : Call Op → Symbol Cursor Op
  | .operand place _ => .operand place
  | .reduce op _ => .operator op

/-- A symbol without the spelling of its operator. -/
def Symbol.unspelled : Symbol α (Spelling × Op) → Symbol α Op
  | .operand a => .operand a
  | .operator op => .operator op.2

/-- Operands that are paired with something can be taken out again. -/
lemma mapOperands_fst (t : OperatorTree α ι) (b : β) :
    (t.mapOperands fun a => (a, b)).mapOperands Prod.fst = t := by
  induction t with
  | operand a => rfl
  | node left op right ihl ihr => rw [mapOperands, mapOperands, ihl, ihr]

/-- The calls are in postfix order. -/
lemma map_ofCall_calls (T : OperatorTree (Cursor × ℕ) (Spelling × Op)) :
    T.calls.map Symbol.ofCall = (T.mapOperands Prod.fst).postorder.map Symbol.unspelled := by
  induction T with
  | operand a => rfl
  | node left op right ihl ihr =>
    rw [calls, mapOperands, postorder, List.map_append, List.map_append, List.map_append,
      List.map_append, ihl, ihr]
    rfl

end OperatorTree

namespace Climber

variable {σ Op : Type} {g : Climber σ Op} {s₀ s s' : σ} {c d stop : Cursor} {made : List (Call Op)}
  {t : OperatorTree Cursor (Spelling × Op)} {operands : List Cursor}
  {operators : List (Spelling × Op)}

/-! ## Records -/

/-- An outcome with a record of calls. -/
def logged (made : List (Call Op)) :
    EStateM.Result Error σ Unit → EStateM.Result Error (σ × List (Call Op)) Unit
  | .ok _ s => .ok () (s, made)
  | .error e s => .error e (s, made)

/-- The climber that does the same and keeps a record of its calls. -/
def recorded (g : Climber σ Op) : Climber (σ × List (Call Op)) Op where
  table := g.table
  cursor p := g.cursor p.1
  moveTo c p := (g.moveTo c p.1, p.2)
  mark p := g.mark p.1
  operand p := logged (p.2 ++ [.operand (g.cursor p.1) (g.mark p.1)]) (g.operand p.1)
  reduce op start p := logged (p.2 ++ [.reduce op start]) (g.reduce op start p.1)
  cursor_moveTo c p := g.cursor_moveTo c p.1
  moveTo_cursor p := by rw [g.moveTo_cursor]
  moveTo_moveTo c d p := by rw [g.moveTo_moveTo]

/-- A step that logs its call does what the step does. -/
lemma of_logged_eq_ok {r : EStateM.Result Error σ Unit} {p : σ × List (Call Op)}
    (h : logged made r = .ok () p) : r = .ok () p.1 := by
  cases r with
  | ok a s =>
    cases h
    rfl
  | error e s => exact nomatch h

/-- What is reached with a log is reached without it. -/
lemma Reachable.of_recorded {p₀ p : σ × List (Call Op)} (h : g.recorded.Reachable p₀ p) :
    g.Reachable p₀.1 p.1 := by
  induction h with
  | start => exact .start
  | moveTo c _ ih => exact ih.moveTo c
  | operand _ hrun ih => exact ih.operand (of_logged_eq_ok hrun)
  | reduce _ hrun ih => exact ih.reduce (of_logged_eq_ok hrun)

/-- A log keeps the cursor where it is. -/
lemma KeepsCursor.recorded (h : g.KeepsCursor s₀) (made : List (Call Op)) :
    g.recorded.KeepsCursor (s₀, made) :=
  fun _ _ op start hp hrun => h _ _ op start hp.of_recorded (of_logged_eq_ok hrun)

/-- An operand that is passed without a log is passed with one. -/
lemma Consumes.recorded (h : g.Consumes s₀ c d) (made : List (Call Op)) :
    g.recorded.Consumes (s₀, made) c d :=
  ⟨h.1, fun _ _ hp hc hrun => h.2 _ _ hp.of_recorded hc (of_logged_eq_ok hrun)⟩

/-- Operators and operands that are read without a log are read with one. -/
lemma Reads.recorded (h : g.Reads s₀ c operands operators stop) (made : List (Call Op)) :
    g.recorded.Reads (s₀, made) c operands operators stop := by
  induction h with
  | operand hconsumes => exact .operand (hconsumes.recorded made)
  | operator hconsumes hnext _ ih => exact .operator (hconsumes.recorded made) hnext ih

/-- A log does not change where the levels end. -/
lemma finished_recorded (levels : List (List (Spelling × Op))) (s : σ) (made : List (Call Op)) :
    g.recorded.finished levels (s, made) = (g.finished levels s, made) := by
  cases levels with
  | nil => rfl
  | cons operators tighter => rfl

/-- What a tree says is recorded call by call: the first of the calls for this tree, and all of them
if none fails. -/
lemma exists_calls (hkeeps : g.KeepsCursor s₀) (hreads : g.Reads s₀ c t.operands t.operators d)
    (hs : g.Reachable s₀ s) (hc : g.cursor s = c) (before : List (Call Op)) :
    ∃ (T : OperatorTree (Cursor × ℕ) (Spelling × Op)) (made : List (Call Op)),
      T.mapOperands Prod.fst = t ∧ made <+: T.calls ∧
      (isSuccess (g.perform t s) = true → made = T.calls ∧ T.leftmost.2 = g.mark s) ∧
      g.recorded.perform t (s, before) = logged (before ++ made) (g.perform t s) := by
  induction t generalizing c d s before with
  | operand a =>
    cases hreads with
    | operand _ =>
      refine ⟨.operand (a, g.mark s), [.operand a (g.mark s)], rfl, List.prefix_rfl, ?_, ?_⟩
      · exact fun _ => ⟨rfl, rfl⟩
      · rw [← hc]
        rfl
  | node left op right ihl ihr =>
    obtain ⟨d₁, c₂, hleft, hnext, hright⟩ := hreads.split_node
    obtain ⟨Tl, madel, hTl, hmadel, hdonel, hrunl⟩ := ihl hleft hs hc before
    rw [perform_node_apply, perform_node_apply, hrunl]
    cases hl : g.perform left s with
    | error e s₁ =>
      refine ⟨.node Tl op (right.mapOperands fun a => (a, 0)), madel, ?_, ?_, nofun, rfl⟩
      · rw [OperatorTree.mapOperands, hTl, OperatorTree.mapOperands_fst]
      · exact hmadel.trans ((List.prefix_append _ _).trans (List.prefix_append _ _))
    | ok a s₁ =>
      obtain ⟨hs₁, hc₁⟩ := reachable_of_perform hkeeps hleft hs hc hl
      obtain ⟨rfl, hmark⟩ := hdonel (hl ▸ rfl)
      have hbehind : g.Reachable s₀ (g.passed op s₁) := hs₁.moveTo _
      have hcursor : g.cursor (g.passed op s₁) = c₂ := by
        rw [passed_eq hnext hc₁, g.cursor_moveTo]
      obtain ⟨Tr, mader, hTr, hmader, hdoner, hrunr⟩ :=
        ihr hright hbehind hcursor (before ++ Tl.calls)
      have hpassed : g.recorded.passed op (s₁, before ++ Tl.calls) =
        (g.passed op s₁, before ++ Tl.calls) := rfl
      rw [logged]
      dsimp only
      rw [hpassed, hrunr]
      cases hr : g.perform right (g.passed op s₁) with
      | error e s₂ =>
        refine ⟨.node Tl op Tr, Tl.calls ++ mader, ?_, ?_, nofun, ?_⟩
        · rw [OperatorTree.mapOperands, hTl, hTr]
        · rw [OperatorTree.calls, List.append_assoc]
          exact (List.prefix_append_right_inj _).2 (hmader.trans (List.prefix_append _ _))
        · rw [← List.append_assoc]
          rfl
      | ok a s₂ =>
        obtain ⟨rfl, -⟩ := hdoner (hr ▸ rfl)
        refine ⟨.node Tl op Tr, (OperatorTree.node Tl op Tr).calls, ?_, List.prefix_rfl, ?_, ?_⟩
        · rw [OperatorTree.mapOperands, hTl, hTr]
        · exact fun _ => ⟨rfl, hmark⟩
        · rw [logged]
          dsimp only
          rw [finished_recorded, recorded, OperatorTree.calls, hmark, ← List.append_assoc,
            ← List.append_assoc]

/-! ## The theorem -/

/-- Whether the text at a climber reads as operands with operators between them, and no operator of
the table follows. -/
structure ReadsAs (g : Climber σ Op) (s : σ) (operands : List Cursor)
    (operators : List (Spelling × Op)) (stop : Cursor) : Prop where
  keepsCursor : g.KeepsCursor s
  reads : g.Reads s (g.cursor s) operands operators stop
  stops : (stop.operator g.table.vocabulary g.table.levels.flatten).1 = none

/-- There is one operand more than there are operators. -/
lemma Reads.length_eq (h : g.Reads s₀ c operands operators stop) :
    operands.length = operators.length + 1 := by
  induction h with
  | operand => rfl
  | operator _ _ _ ih => rw [List.length_cons, List.length_cons, ih]

/-- Precedence climbing is the standard way to read operators.  Operands with operators between them
stand for exactly one tree in which tighter levels bind tighter and equal levels associate to the
left.  A phrase makes the calls for this tree, in the order in which a shunting yard prints it: all
of them, unless one fails and is the last.  A reduction is handed the output position at which the
leftmost operand below it was read.  And the phrase ends before the first token that is not an
operator of the table. -/
theorem calls_of_readsAs (htable : g.table.IsProper) (h : g.ReadsAs s operands operators stop) :
    (∃! t : OperatorTree Cursor (Spelling × Op), t.IsParse g.table.levelOf operands operators) ∧
    ∀ t : OperatorTree Cursor (Spelling × Op), t.IsParse g.table.levelOf operands operators →
      (∃ (T : OperatorTree (Cursor × ℕ) (Spelling × Op)) (made : List (Call Op)),
        T.mapOperands Prod.fst = t ∧
        T.calls.map OperatorTree.Symbol.ofCall =
          (OperatorTree.shuntingYard g.table.levelOf operands operators).map
            OperatorTree.Symbol.unspelled ∧
        made <+: T.calls ∧ (isSuccess (g.phrase s) = true → made = T.calls) ∧
        g.recorded.phrase (s, []) = logged made (g.phrase s)) ∧
      ∀ s', g.phrase s = .ok () s' → (g.cursor s').skipBlanks = stop.skipBlanks := by
  refine ⟨OperatorTree.existsUnique_isParse _ h.reads.length_eq, fun t ht => ?_⟩
  obtain ⟨hkeeps, hreads, hstop⟩ := h
  have hpostorder := ht.postorder_eq
  obtain ⟨rfl, rfl, hprecedence⟩ := ht
  have hphrase := phrase_eq_perform htable hkeeps hprecedence hreads hstop
  constructor
  · obtain ⟨T, made, hT, hmade, hdone, hrun⟩ := exists_calls hkeeps hreads .start rfl []
    have hrecorded : g.recorded.phrase (s, []) =
        (do g.recorded.perform t; modify (g.recorded.finished g.table.levels)) (s, []) :=
      phrase_eq_perform (g := g.recorded) htable (hkeeps.recorded []) hprecedence
        (hreads.recorded []) hstop
    refine ⟨T, made, hT, ?_, hmade, ?_, ?_⟩
    · rw [OperatorTree.map_ofCall_calls, hT, hpostorder]
    · rw [hphrase, bind_apply]
      cases hperform : g.perform t s with
      | error e s₁ => exact nofun
      | ok a s₁ => exact fun _ => (hdone (hperform ▸ rfl)).1
    · rw [hrecorded, hphrase, bind_apply, bind_apply, hrun]
      cases g.perform t s with
      | error e s₁ => rfl
      | ok a s₁ =>
        rw [logged]
        dsimp only [modify_apply]
        rw [finished_recorded]
        rfl
  · intro s' hrun
    rw [hphrase, bind_eq_ok_iff] at hrun
    obtain ⟨_, s₁, hperform, hfinish⟩ := hrun
    obtain ⟨-, hc₁⟩ := reachable_of_perform hkeeps hreads .start rfl hperform
    rw [modify_apply] at hfinish
    cases hfinish
    exact skipBlanks_eq_of_or (cursor_finished _ hc₁)

end Climber

/-! ## The two languages -/

namespace Grammar

variable {α Op : Type}

/-- The pairs of a grammar are those of its climber. -/
lemma pairs_climber (g : Grammar α Op) (operators : List (Spelling × Op)) (tighter : Reader α Unit)
    (start turns : ℕ) :
    g.climber.pairs operators tighter start turns = g.pairs operators tighter start turns := by
  induction turns with
  | zero => rfl
  | succ turns ih =>
    rw [Climber.pairs, ih]
    rfl

/-- The levels of a grammar are those of its climber. -/
lemma climb_climber (g : Grammar α Op) (turns : ℕ) (levels : List (List (Spelling × Op))) :
    g.climber.climb turns levels = g.climb turns levels := by
  induction levels with
  | nil => rfl
  | cons operators tighterLevels ih =>
    simp only [Climber.climb, ih, pairs_climber]
    rfl

/-- A phrase of a grammar is read by precedence climbing. -/
theorem phrase_climber (g : Grammar α Op) : g.climber.phrase = g.phrase := by
  simp only [Climber.phrase, climb_climber]
  rfl

end Grammar

namespace Expr

variable {operand : Reader Expr Unit} {s : Progress Expr} {stop : Cursor}
  {t : OperatorTree Cursor (Spelling × BinaryOp)}

/-- No binary operator stands twice in its table. -/
lemma isProper_binaryOperators : binaryOperators.IsProper := ⟨by decide, by decide⟩

/-- The reductions of expressions leave the cursor where it is. -/
lemma keepsCursor_grammar (operand : Reader Expr Unit) (s₀ : Progress Expr) :
    (grammar operand).climber.KeepsCursor s₀ := by
  intro s s' f start _ hrun
  dsimp only [Grammar.climber, grammar, apply, Reader.reduceSince] at hrun ⊢
  split at hrun
  · cases hrun
    rfl
  · cases hrun

/-- The binary operators of an expression are read as their tree says. -/
theorem phrase_eq_perform (ht : t.HasPrecedence binaryOperators.levelOf 0)
    (hreads : (grammar operand).climber.Reads s s.cursor t.operands t.operators stop)
    (hstop : (stop.operator binaryOperators.vocabulary binaryOperators.levels.flatten).1 = none) :
    (grammar operand).phrase s = (do
      (grammar operand).climber.perform t
      modify ((grammar operand).climber.finished binaryOperators.levels)) s := by
  rw [← Grammar.phrase_climber]
  exact Climber.phrase_eq_perform isProper_binaryOperators (keepsCursor_grammar operand s) ht hreads
    hstop

end Expr

namespace Pass

/-- A pass climbs through its text.  It joins the newest outcomes wherever they begin. -/
def climber (operand : EStateM Error Pass Unit) : Climber Pass Connective where
  table := Formula.connectives
  cursor p := p.progress.cursor
  moveTo c p := { p with progress := { p.progress with cursor := c } }
  mark p := p.progress.done.length
  operand := operand
  reduce connective _ := reduce connective
  cursor_moveTo _ _ := rfl
  moveTo_cursor _ := rfl
  moveTo_moveTo _ _ _ := rfl

variable (operand : EStateM Error Pass Unit)

/-- A climber over outcomes scans as a reader does. -/
lemma scan_climber {β : Type} (step : Cursor → β × Cursor) :
    (climber operand).scan step = reading (Reader.scan step) := rfl

/-- The pairs of a filter that is decided in one pass are those of its climber. -/
lemma pairs_climber (operators : List (Spelling × Connective)) (tighter : EStateM Error Pass Unit)
    (start turns : ℕ) :
    (climber operand).pairs operators tighter start turns = pairs operators tighter turns := by
  induction turns with
  | zero => rfl
  | succ turns ih =>
    rw [Climber.pairs, scan_climber, ih, pairs]
    refine bind_congr fun found => ?_
    cases found with
    | none => rfl
    | some connective => rfl

/-- The levels of such a filter are those of its climber. -/
lemma climb_climber (turns : ℕ) (levels : List (List (Spelling × Connective))) :
    (climber operand).climb turns levels = climb operand turns levels := by
  induction levels with
  | nil => rfl
  | cons operators tighterLevels ih =>
    simp only [Climber.climb, ih, pairs_climber]
    rfl

/-- What operands make is decided by precedence climbing. -/
theorem phrase_climber : (climber operand).phrase = phrase operand := by
  simp only [Climber.phrase, climb_climber]
  rfl

/-- No connective stands twice in its table. -/
lemma isProper_connectives : Formula.connectives.IsProper := ⟨by decide, by decide⟩

/-- The reductions of outcomes leave the cursor where it is. -/
lemma keepsCursor_climber (p₀ : Pass) : (climber operand).KeepsCursor p₀ := by
  intro p p' connective start _ hrun
  dsimp only [climber, reduce] at hrun ⊢
  split at hrun
  · cases hrun
    rfl
  · cases hrun

variable {operand} {p : Pass} {stop : Cursor} {t : OperatorTree Cursor (Spelling × Connective)}

/-- The connectives of a filter are read as their tree says. -/
theorem phrase_eq_perform (ht : t.HasPrecedence Formula.connectives.levelOf 0)
    (hreads : (climber operand).Reads p p.progress.cursor t.operands t.operators stop)
    (hstop : (stop.operator Formula.connectives.vocabulary
      Formula.connectives.levels.flatten).1 = none) :
    phrase operand p = (do
      (climber operand).perform t
      modify ((climber operand).finished Formula.connectives.levels)) p := by
  rw [← phrase_climber]
  exact Climber.phrase_eq_perform isProper_connectives (keepsCursor_climber operand p) ht hreads
    hstop

end Pass

/-! ## A calculator -/

/-- What a calculator can compute. -/
inductive Arithmetic
  | less
  | shift
  | add
  | sub
  | mul
  deriving DecidableEq

namespace Arithmetic

/-- The result of an operator. -/
def apply : Arithmetic → ℤ → ℤ → ℤ
  | less, a, b => if a < b then 1 else 0
  | shift, a, b => a <<< b.toNat
  | add, a, b => a + b
  | sub, a, b => a - b
  | mul, a, b => a * b

/-- A calculator whose operands are digits, and whose operators are computed at once. -/
def digits : Grammar ℤ Arithmetic where
  table := .ofLevels [[("<".toList, less)], [("<<".toList, shift)],
    [("+".toList, add), ("-".toList, sub)], [("*".toList, mul)]]
  operand s :=
    match s.cursor.peek with
    | none => .error (Reader.unexpectedAt s.cursor) s
    | some ch =>
      if ch.isDigit then .ok () ⟨s.cursor.skipBlanks.skip 1, (hexDigitValue ch : ℤ) :: s.done⟩
      else .error (Reader.unexpectedAt s.cursor) s
  reduce op _ s :=
    match s.done with
    | b :: a :: more => .ok () { s with done := op.apply a b :: more }
    | _ => .error (Reader.unexpectedAt s.cursor) s

variable {s₀ : Progress ℤ} {c : Cursor}

/-- A digit is an operand. -/
lemma consumes_digit (h : c.skipBlanks = c) : digits.climber.Consumes s₀ c (c.skip 1) := by
  refine ⟨⟨1, rfl⟩, ?_⟩
  rintro ⟨_, done⟩ s' - rfl hrun
  dsimp only [Grammar.climber, digits] at hrun h ⊢
  split at hrun
  · cases hrun
  · split at hrun
    · cases hrun
      rw [h]
    · cases hrun

/-- The reductions of numbers leave the cursor where it is. -/
lemma keepsCursor_digits (s₀ : Progress ℤ) : digits.climber.KeepsCursor s₀ := by
  intro s s' op start _ hrun
  dsimp only [Grammar.climber, digits] at hrun ⊢
  split at hrun
  · cases hrun
    rfl
  · cases hrun

/-- The text `1+2*3 ?` from the place behind this many characters on. -/
def sumOfProduct (n : ℕ) : Cursor := (Cursor.ofString "1+2*3 ?").skip n

/-- A product on the right of a sum is reduced before it. -/
theorem calls_of_sum_of_product :
    digits.climber.table.IsProper ∧
    digits.climber.ReadsAs ⟨sumOfProduct 0, []⟩ [sumOfProduct 0, sumOfProduct 2, sumOfProduct 4]
      [("+".toList, add), ("*".toList, mul)] (sumOfProduct 5) ∧
    ∃ (T : OperatorTree (Cursor × ℕ) (Spelling × Arithmetic)) (made : List (Call Arithmetic)),
      T.mapOperands Prod.fst = .node (.operand (sumOfProduct 0)) ("+".toList, add)
        (.node (.operand (sumOfProduct 2)) ("*".toList, mul) (.operand (sumOfProduct 4))) ∧
      made <+: T.calls ∧
      (isSuccess (digits.phrase ⟨sumOfProduct 0, []⟩) = true → made = T.calls) ∧
      digits.climber.recorded.phrase (⟨sumOfProduct 0, []⟩, []) =
        Climber.logged made (digits.phrase ⟨sumOfProduct 0, []⟩) := by
  have htable : digits.climber.table.IsProper := ⟨by decide, by decide⟩
  have hreads : digits.climber.ReadsAs ⟨sumOfProduct 0, []⟩
      [sumOfProduct 0, sumOfProduct 2, sumOfProduct 4] [("+".toList, add), ("*".toList, mul)]
      (sumOfProduct 5) := by
    refine ⟨keepsCursor_digits _, ?_, by decide⟩
    have hplus : digits.climber.table.IsNext ("+".toList, add) (sumOfProduct 1) (sumOfProduct 2) :=
      ⟨by decide, by decide, by decide⟩
    have htimes : digits.climber.table.IsNext ("*".toList, mul) (sumOfProduct 3) (sumOfProduct 4) :=
      ⟨by decide, by decide, by decide⟩
    exact .operator (consumes_digit (by decide)) hplus
      (.operator (consumes_digit (by decide)) htimes (.operand (consumes_digit (by decide))))
  have hparse : OperatorTree.IsParse digits.climber.table.levelOf
      [sumOfProduct 0, sumOfProduct 2, sumOfProduct 4] [("+".toList, add), ("*".toList, mul)]
      (.node (.operand (sumOfProduct 0)) ("+".toList, add)
        (.node (.operand (sumOfProduct 2)) ("*".toList, mul) (.operand (sumOfProduct 4)))) := by
    refine ⟨rfl, rfl, ?_⟩
    exact ⟨Nat.zero_le _, trivial, by decide, trivial, trivial⟩
  obtain ⟨⟨T, made, hT, -, hmade, hdone, hrun⟩, -⟩ :=
    (Climber.calls_of_readsAs htable hreads).2 _ hparse
  rw [Grammar.phrase_climber] at hdone hrun
  exact ⟨htable, hreads, T, made, hT, hmade, hdone, hrun⟩

example : (final (digits.climber.recorded.phrase (⟨sumOfProduct 0, []⟩, []))).2 =
    [.operand (sumOfProduct 0) 0, .operand (sumOfProduct 2) 1, .operand (sumOfProduct 4) 2,
      .reduce mul 1, .reduce add 0] := by
  decide +kernel

end Arithmetic

end Reckon
