import Reckon.Proofs.Outcome
import Reckon.Proofs.Source.Operator
import Reckon.Proofs.Source.OperatorTree
import Reckon.Source.Climbing

/-!
# Climbing along the tree of the operators

Let the text at a climber read as operands with operators between them (`Climber.Reads`).  Then
climbing does what the tree of these operators says (`Climber.phrase_eq_perform`): for each node it
goes through the left subtree, passes the operator, goes through the right subtree and reduces.

A climb through some levels deals with a tree whose operators are of these levels, and leaves the
first operator of a looser level alone.  The induction is on the levels; at each of them an inner
induction goes down the left edge of the tree, along which the operators of this level stand.
-/

namespace Reckon

open Outcome

namespace OperatorTable

variable {Op : Type} {table : OperatorTable Op} {op : Spelling × Op} {c d : Cursor}
  {before tighter : List (List (Spelling × Op))} {operators : List (Spelling × Op)}

/-- Whether the spellings of a table are not empty, and no two levels have one in common.  The
vocabulary may lack some of them: an operator whose spelling is not in it is never read. -/
structure IsProper (table : OperatorTable Op) : Prop where
  ne_nil : ∀ op ∈ table.levels.flatten, op.1 ≠ []
  pairwise : table.levels.Pairwise fun looser tighter => ∀ a ∈ looser, ∀ b ∈ tighter, a.1 ≠ b.1

/-- The level of an operator, counted from the loosest. -/
def levelOf (table : OperatorTable Op) (op : Spelling × Op) : ℕ :=
  table.levels.findIdx fun operators => operators.any fun candidate => candidate.1 = op.1

/-- Whether the longest spelling at `c` is that of an operator of the table, behind which `d`
stands. -/
structure IsNext (table : OperatorTable Op) (op : Spelling × Op) (c d : Cursor) : Prop where
  peek_eq : c.peekOperator table.vocabulary = some op.1
  find_eq : table.levels.flatten.find? (fun candidate => candidate.1 = op.1) = some op
  eq_skip : d = c.skipBlanks.skip op.1.length

/-- Whether none of these levels has an operator that can be read at a cursor. -/
def StopsAt (table : OperatorTable Op) (levels : List (List (Spelling × Op))) (c : Cursor) : Prop :=
  ∀ operators ∈ levels, c.operator table.vocabulary operators = (none, c.skipBlanks)

/-! ## Levels -/

/-- The level of an operator is one of the levels. -/
lemma levelOf_lt (h : table.IsNext op c d) : table.levelOf op < table.levels.length := by
  obtain ⟨operators, hoperators, hmem⟩ := List.mem_flatten.1 (List.mem_of_find?_eq_some h.find_eq)
  refine List.findIdx_lt_length_of_exists ⟨operators, hoperators, ?_⟩
  exact List.any_eq_true.2 ⟨op, hmem, decide_eq_true rfl⟩

/-- The level of an operator is the first in which its spelling occurs. -/
lemma of_levelOf_eq (hlevels : table.levels = before ++ operators :: tighter)
    (h : table.levelOf op = before.length) :
    (∀ looser ∈ before, ∀ a ∈ looser, a.1 ≠ op.1) ∧ ∃ a ∈ operators, a.1 = op.1 := by
  rw [levelOf, hlevels, List.findIdx_append] at h
  split at h
  · rename_i hbefore
    exact absurd h (Nat.ne_of_lt hbefore)
  · rename_i hnone
    have hfirst : (operators.any fun candidate => candidate.1 = op.1) = true := by
      by_contra hnot
      rw [List.findIdx_cons, Bool.eq_false_iff.2 hnot] at h
      simp at h
    constructor
    · intro looser hlooser a ha heq
      exact hnone (List.findIdx_lt_length_of_exists
        ⟨looser, hlooser, List.any_eq_true.2 ⟨a, ha, decide_eq_true heq⟩⟩)
    · obtain ⟨a, ha, heq⟩ := List.any_eq_true.1 hfirst
      exact ⟨a, ha, of_decide_eq_true heq⟩

/-- The level of an operator is the only one in which its spelling occurs. -/
lemma IsProper.levelOf_eq (h : table.IsProper)
    (hlevels : table.levels = before ++ operators :: tighter)
    {a : Spelling × Op} (ha : a ∈ operators)
    (hop : a.1 = op.1) : table.levelOf op = before.length := by
  have hpairwise := h.pairwise
  rw [hlevels, List.pairwise_append] at hpairwise
  have hnone : ¬before.findIdx (fun operators => operators.any fun candidate =>
    candidate.1 = op.1) <
      before.length := by
    rw [List.findIdx_lt_length]
    rintro ⟨looser, hlooser, hany⟩
    obtain ⟨b, hb, heq⟩ := List.any_eq_true.1 hany
    exact hpairwise.2.2 looser hlooser operators List.mem_cons_self b hb a ha
      ((of_decide_eq_true heq).trans hop.symm)
  have hfirst : (operators.any fun candidate => candidate.1 = op.1) = true :=
    List.any_eq_true.2 ⟨a, ha, decide_eq_true hop⟩
  rw [levelOf, hlevels, List.findIdx_append, if_neg hnone, List.findIdx_cons, hfirst]
  exact Nat.zero_add _

/-! ## What is read at a level -/

/-- Blanks in front of an operator do not matter. -/
lemma operator_congr {vocabulary : List Spelling} (h : c.skipBlanks = d.skipBlanks)
    (candidates : List (Spelling × Op)) :
    c.operator vocabulary candidates = d.operator vocabulary candidates := by
  rw [Cursor.operator, Cursor.operator, Cursor.peekOperator, Cursor.peekOperator, h]

/-- An operator is read at its level. -/
lemma IsNext.operator_eq (h : table.IsNext op c d)
    (hlevels : table.levels = before ++ operators :: tighter)
    (hlevel : table.levelOf op = before.length) :
    c.operator table.vocabulary operators = (some op.2, d) := by
  obtain ⟨hnone, a, ha, heq⟩ := of_levelOf_eq hlevels hlevel
  have hbefore : before.flatten.find? (fun candidate => candidate.1 = op.1) = none := by
    rw [List.find?_eq_none]
    intro b hb hfits
    obtain ⟨looser, hlooser, hmem⟩ := List.mem_flatten.1 hb
    exact hnone looser hlooser b hmem (of_decide_eq_true hfits)
  have hfind : operators.find? (fun candidate => candidate.1 = op.1) = some op := by
    have hsome : operators.find? (fun candidate => candidate.1 = op.1) ≠ none := by
      rw [ne_eq, List.find?_eq_none]
      exact fun hall => hall a ha (decide_eq_true heq)
    obtain ⟨found, hfound⟩ := Option.ne_none_iff_exists'.1 hsome
    have hflatten := h.find_eq
    rw [hlevels, List.flatten_append, List.flatten_cons, List.find?_append, List.find?_append,
      hbefore,
      hfound] at hflatten
    rw [hfound]
    exact hflatten
  rw [Cursor.operator, h.peek_eq]
  dsimp only
  rw [hfind, h.eq_skip]

/-- An operator is not read at another level. -/
lemma IsNext.operator_eq_none (h : table.IsNext op c d) (htable : table.IsProper)
    (hlevels : table.levels = before ++ operators :: tighter)
    (hlevel : table.levelOf op ≠ before.length) :
    c.operator table.vocabulary operators = (none, c.skipBlanks) := by
  have hfind : operators.find? (fun candidate => candidate.1 = op.1) = none := by
    rw [List.find?_eq_none]
    exact fun a ha hfits => hlevel (htable.levelOf_eq hlevels ha (of_decide_eq_true hfits))
  rw [Cursor.operator, h.peek_eq]
  dsimp only
  rw [hfind]

/-- An operator takes at least one character. -/
lemma IsNext.length_lt (h : table.IsNext op c d) (htable : table.IsProper) :
    d.rest.length < c.rest.length := by
  have hspelling : op.1 <+: c.skipBlanks.rest := (longestSpelling_eq_some_iff.1 h.peek_eq).2.1
  have hpos : 0 < op.1.length :=
    List.length_pos_iff.2 (htable.ne_nil op (List.mem_of_find?_eq_some h.find_eq))
  have hle := hspelling.length_le
  have hblanks := c.length_skipBlanks_le
  rw [h.eq_skip, Cursor.skip, List.length_drop]
  omega

/-- The tighter levels leave an operator alone. -/
lemma IsNext.stopsAt (h : table.IsNext op c d) (htable : table.IsProper)
    (hlevels : table.levels = before ++ tighter) (hlevel : table.levelOf op < before.length) :
    table.StopsAt tighter c := by
  intro operators hmem
  obtain ⟨between, behind, rfl⟩ := List.append_of_mem hmem
  rw [← List.append_assoc] at hlevels
  refine h.operator_eq_none htable hlevels ?_
  rw [List.length_append]
  omega

/-- Where no operator of the table is read, every level stops. -/
lemma stopsAt_of_operator_eq_none
    (h : (c.operator table.vocabulary table.levels.flatten).1 = none) :
      table.StopsAt table.levels c := by
  intro operators hmem
  rw [Cursor.operator] at h ⊢
  cases hpeek : c.peekOperator table.vocabulary with
  | none => rfl
  | some word =>
    rw [hpeek] at h
    dsimp only at h ⊢
    have hnone : table.levels.flatten.find? (fun candidate => candidate.1 = word) = none := by
      cases hfind : table.levels.flatten.find? (fun candidate => candidate.1 = word) with
      | none => rfl
      | some found =>
        rw [hfind] at h
        contradiction
    have hlevel : operators.find? (fun candidate => candidate.1 = word) = none := by
      rw [List.find?_eq_none] at hnone ⊢
      exact fun a ha => hnone a (List.mem_flatten.2 ⟨operators, hmem, ha⟩)
    rw [hlevel]

end OperatorTable

namespace Climber

variable {σ Op : Type} {g : Climber σ Op} {s₀ s s' : σ} {c c' d stop : Cursor}
  {cs cs' : List Cursor}
  {op : Spelling × Op} {ops ops' : List (Spelling × Op)} {t : OperatorTree Cursor (Spelling × Op)}
  {before tighter levels : List (List (Spelling × Op))} {operators : List (Spelling × Op)}
  {turns : ℕ}

/-! ## What the text at a climber reads as -/

/-- The states that can come up. -/
inductive Reachable (g : Climber σ Op) (s₀ : σ) : σ → Prop
  | start : Reachable g s₀ s₀
  | moveTo {s : σ} (c : Cursor) : Reachable g s₀ s → Reachable g s₀ (g.moveTo c s)
  | operand {s s' : σ} : Reachable g s₀ s → g.operand s = .ok () s' → Reachable g s₀ s'
  | reduce {s s' : σ} {op : Op} {start : ℕ} :
    Reachable g s₀ s → g.reduce op start s = .ok () s' → Reachable g s₀ s'

/-- Whether an operand that is read at `c` takes just the text up to `d`. -/
def Consumes (g : Climber σ Op) (s₀ : σ) (c d : Cursor) : Prop :=
  (∃ n, d = c.skip n) ∧
    ∀ s s', g.Reachable s₀ s → g.cursor s = c → g.operand s = .ok () s' → g.cursor s' = d

/-- Whether the text from a cursor on reads as operands, which are read at these cursors, with these
operators between them, and `stop` is where the last operand ends. -/
inductive Reads (g : Climber σ Op) (s₀ : σ) :
    Cursor → List Cursor → List (Spelling × Op) → Cursor → Prop
  | operand {c stop : Cursor} : g.Consumes s₀ c stop → Reads g s₀ c [c] [] stop
  | operator {c d c' stop : Cursor} {cs : List Cursor} {op : Spelling × Op}
      {ops : List (Spelling × Op)} : g.Consumes s₀ c d → g.table.IsNext op d c' →
      Reads g s₀ c' cs ops stop → Reads g s₀ c (c :: cs) (op :: ops) stop

/-- Whether reducing an operator leaves the cursor where it is. -/
def KeepsCursor (g : Climber σ Op) (s₀ : σ) : Prop :=
  ∀ s s' op start, g.Reachable s₀ s → g.reduce op start s = .ok () s' → g.cursor s' = g.cursor s

/-- Behind the first operand stand an operator and the others. -/
lemma Reads.of_cons (h : g.Reads s₀ c cs (op :: ops) stop) :
    ∃ cs' d c', cs = c :: cs' ∧ g.Consumes s₀ c d ∧ g.table.IsNext op d c' ∧
      g.Reads s₀ c' cs' ops stop := by
  cases h with
  | operator hconsumes hnext hrest => exact ⟨_, _, _, rfl, hconsumes, hnext, hrest⟩

/-- What is read can be split at an operator. -/
lemma Reads.split (h : g.Reads s₀ c (cs ++ cs') (ops ++ op :: ops') stop)
    (hlength : cs.length = ops.length + 1) :
    ∃ d c', g.Reads s₀ c cs ops d ∧ g.table.IsNext op d c' ∧ g.Reads s₀ c' cs' ops' stop := by
  induction ops generalizing c cs with
  | nil =>
    obtain ⟨a, rfl⟩ := List.length_eq_one_iff.1 hlength
    obtain ⟨_, d, c', heq, hconsumes, hnext, hrest⟩ := h.of_cons
    obtain ⟨rfl, rfl⟩ := List.cons.inj heq
    exact ⟨d, c', .operand hconsumes, hnext, hrest⟩
  | cons next ops ih =>
    obtain ⟨a, cs, rfl⟩ := List.exists_cons_of_length_eq_add_one hlength
    obtain ⟨_, d, c', heq, hconsumes, hnext, hrest⟩ := h.of_cons
    obtain ⟨rfl, rfl⟩ := List.cons.inj heq
    obtain ⟨d', c'', hleft, hop, hright⟩ := ih hrest (Nat.succ.inj hlength)
    exact ⟨d', c'', .operator hconsumes hnext hleft, hop, hright⟩

/-- The text of a subtree's root and of what is on both sides of it. -/
lemma Reads.split_node {left right : OperatorTree Cursor (Spelling × Op)}
    (h : g.Reads s₀ c (OperatorTree.node left op right).operands
      (OperatorTree.node left op right).operators stop) :
    ∃ d c', g.Reads s₀ c left.operands left.operators d ∧ g.table.IsNext op d c' ∧
      g.Reads s₀ c' right.operands right.operators stop :=
  h.split left.length_operands

/-- Every operator takes at least one character. -/
lemma Reads.length_le (h : g.Reads s₀ c cs ops stop) (htable : g.table.IsProper) :
    ops.length + stop.rest.length ≤ c.rest.length := by
  induction h with
  | operand hconsumes =>
    obtain ⟨⟨n, rfl⟩, -⟩ := hconsumes
    rw [List.length_nil, Nat.zero_add]
    exact Cursor.length_skip_le _ n
  | @operator c d c' stop cs op ops hconsumes hnext _ ih =>
    obtain ⟨⟨n, rfl⟩, -⟩ := hconsumes
    have hlt := hnext.length_lt htable
    have hle := c.length_skip_le n
    rw [List.length_cons]
    omega

/-! ## What a tree says -/

/-- The state behind an operator. -/
def passed (g : Climber σ Op) (op : Spelling × Op) (s : σ) : σ :=
  g.moveTo ((g.cursor s).skipBlanks.skip op.1.length) s

/-- The state in which no operator of some levels was found.  If there are any levels, the blanks
were passed in search of one. -/
def finished (g : Climber σ Op) (levels : List (List (Spelling × Op))) (s : σ) : σ :=
  match levels with
  | [] => s
  | _ :: _ => g.moveTo (g.cursor s).skipBlanks s

/-- Does what a tree says.  Behind a right operand an operator of a tighter level was looked for. -/
def perform {α : Type} (g : Climber σ Op) : OperatorTree α (Spelling × Op) → EStateM Error σ Unit
  | .operand _ => g.operand
  | .node left op right => do
    let start ← g.marked
    g.perform left
    modify (g.passed op)
    g.perform right
    modify (g.finished (g.table.levels.drop (g.table.levelOf op + 1)))
    g.reduce op.2 start

/-- A tree is reduced behind what is done for its two sides. -/
lemma perform_node_apply {α : Type} (left right : OperatorTree α (Spelling × Op)) (s : σ) :
    g.perform (.node left op right) s =
      match g.perform left s with
      | .error e s₁ => .error e s₁
      | .ok _ s₁ =>
        match g.perform right (g.passed op s₁) with
        | .error e s₂ => .error e s₂
        | .ok _ s₂ =>
          g.reduce op.2 (g.mark s) (g.finished (g.table.levels.drop (g.table.levelOf op + 1))
            s₂) := by
  rw [perform, bind_apply, marked]
  dsimp only
  rw [bind_apply]
  cases g.perform left s with
  | error e s₁ => rfl
  | ok a s₁ =>
    dsimp only
    rw [bind_apply, modify_apply]
    dsimp only
    rw [bind_apply]
    cases g.perform right (g.passed op s₁) with
    | error e s₂ => rfl
    | ok a s₂ => rfl

/-- Pairs go on as long as an operator of their level follows. -/
lemma pairs_succ_apply (tight : EStateM Error σ Unit) (start : ℕ) (s : σ) :
    g.pairs operators tight start (turns + 1) s =
      match (g.cursor s).operator g.table.vocabulary operators with
      | (none, c) => .ok () (g.moveTo c s)
      | (some op, c) =>
        match tight (g.moveTo c s) with
        | .error e s₁ => .error e s₁
        | .ok _ s₁ =>
          match g.reduce op start s₁ with
          | .error e s₂ => .error e s₂
          | .ok _ s₂ => g.pairs operators tight start turns s₂ := by
  rw [pairs, bind_apply, scan]
  dsimp only
  rcases (g.cursor s).operator g.table.vocabulary operators with ⟨_ | op, c⟩
  · rfl
  · dsimp only
    rw [bind_apply]
    cases tight (g.moveTo c s) with
    | error e s₁ => rfl
    | ok a s₁ =>
      dsimp only
      rw [bind_apply]
      cases g.reduce op start s₁ with
      | error e s₂ => rfl
      | ok a s₂ => rfl

/-- A level begins with the tighter ones and goes on with its pairs. -/
lemma climb_cons_apply (turns : ℕ) (s : σ) :
    g.climb turns (operators :: tighter) s =
      match g.climb turns tighter s with
      | .error e s₁ => .error e s₁
      | .ok _ s₁ => g.pairs operators (g.climb turns tighter) (g.mark s) turns s₁ := by
  rw [climb, bind_apply, marked]
  dsimp only
  rw [bind_apply]
  cases g.climb turns tighter s with
  | error e s₁ => rfl
  | ok a s₁ => rfl

/-! ## Where the cursor stands -/

lemma skipBlanks_eq_of_or (h : c = d ∨ c = d.skipBlanks) : c.skipBlanks = d.skipBlanks := by
  rcases h with rfl | rfl
  · rfl
  · exact Cursor.skipBlanks_skipBlanks d

/-- The state behind an operator does not depend on the blanks that were passed before it. -/
lemma passed_eq (hnext : g.table.IsNext op d c') (h : g.cursor s = d ∨ g.cursor s = d.skipBlanks) :
    g.passed op s = g.moveTo c' s := by
  rw [passed, skipBlanks_eq_of_or h, hnext.eq_skip]

/-- A cursor that is moved does not depend on what was finished. -/
lemma moveTo_finished (c : Cursor) (levels : List (List (Spelling × Op))) (s : σ) :
    g.moveTo c (g.finished levels s) = g.moveTo c s := by
  cases levels with
  | nil => rfl
  | cons operators tighter => exact g.moveTo_moveTo c _ s

/-- What is finished leaves the cursor where it is, up to blanks. -/
lemma cursor_finished (levels : List (List (Spelling × Op)))
    (h : g.cursor s = d ∨ g.cursor s = d.skipBlanks) :
    g.cursor (g.finished levels s) = d ∨ g.cursor (g.finished levels s) = d.skipBlanks := by
  cases levels with
  | nil => exact h
  | cons operators tighter =>
    rw [finished, g.cursor_moveTo]
    exact .inr (skipBlanks_eq_of_or h)

/-- What is finished is reached. -/
lemma Reachable.finished (h : g.Reachable s₀ s) (levels : List (List (Spelling × Op))) :
    g.Reachable s₀ (g.finished levels s) := by
  cases levels with
  | nil => exact h
  | cons operators tighter => exact h.moveTo _

/-- Once the blanks are passed, there is nothing to pass. -/
lemma finished_of_cursor_eq (h : g.cursor s' = g.cursor (g.finished levels s)) :
    g.finished levels s' = s' := by
  cases levels with
  | nil => rfl
  | cons operators tighter =>
    rw [finished, g.cursor_moveTo] at h
    rw [finished, h, Cursor.skipBlanks_skipBlanks, ← h, g.moveTo_cursor]

/-- Behind a tree the cursor stands where the last operand ends, or behind the blanks there. -/
lemma reachable_of_perform (hkeeps : g.KeepsCursor s₀) (h : g.Reads s₀ c t.operands t.operators d)
    (hs : g.Reachable s₀ s) (hc : g.cursor s = c) (hrun : g.perform t s = .ok () s') :
    g.Reachable s₀ s' ∧ (g.cursor s' = d ∨ g.cursor s' = d.skipBlanks) := by
  induction t generalizing c d s s' with
  | operand a =>
    cases h with
    | operand hconsumes => exact ⟨.operand hs hrun, .inl (hconsumes.2 _ _ hs hc hrun)⟩
  | node left op right ihl ihr =>
    obtain ⟨d₁, c₂, hleft, hnext, hright⟩ := h.split_node
    rw [perform_node_apply] at hrun
    split at hrun
    · cases hrun
    · rename_i s₁ hrunl
      obtain ⟨hs₁, hc₁⟩ := ihl hleft hs hc hrunl
      rw [passed_eq hnext hc₁] at hrun
      split at hrun
      · cases hrun
      · rename_i s₂ hrunr
        obtain ⟨hs₂, hc₂⟩ := ihr hright (hs₁.moveTo c₂) (g.cursor_moveTo c₂ s₁) hrunr
        have hs₃ := hs₂.finished (g.table.levels.drop (g.table.levelOf op + 1))
        refine ⟨hs₃.reduce hrun, ?_⟩
        rw [hkeeps _ _ _ _ hs₃ hrun]
        exact cursor_finished _ hc₂

/-! ## Climbing -/

/-- Whether climbing through some levels does what the trees say whose operators are of these
levels, of which the first is the level `k`. -/
def Climbs (g : Climber σ Op) (s₀ : σ) (turns : ℕ) (levels : List (List (Spelling × Op))) (k : ℕ) :
    Prop :=
  ∀ ⦃t : OperatorTree Cursor (Spelling × Op)⦄ ⦃c d : Cursor⦄ ⦃s : σ⦄,
    t.HasPrecedence g.table.levelOf k → g.Reads s₀ c t.operands t.operators d →
    g.table.StopsAt levels d → c.rest.length ≤ turns → g.Reachable s₀ s → g.cursor s = c →
    g.climb turns levels s = (do g.perform t; modify (g.finished levels)) s

/-- Behind the last level there are only operands. -/
lemma climbs_nil (s₀ : σ) (turns : ℕ) : g.Climbs s₀ turns [] g.table.levels.length := by
  intro t c d s ht hreads _ _ _ _
  cases t with
  | operand a =>
    rw [climb, bind_apply, perform]
    cases g.operand s with
    | error e s₁ => rfl
    | ok a s₁ => rfl
  | node left op right =>
    obtain ⟨d₁, c₂, -, hnext, -⟩ := hreads.split_node
    exact absurd ht.1 (Nat.not_le_of_lt (OperatorTable.levelOf_lt hnext))

/-- Where no operator of a level is left, the pairs of this level end. -/
lemma pairs_of_stopsAt (tight : EStateM Error σ Unit) (start : ℕ)
    (hstops : d.operator g.table.vocabulary operators = (none, d.skipBlanks))
    (hturns : d.rest.length ≤ turns) (hc : g.cursor s = d ∨ g.cursor s = d.skipBlanks) :
    g.pairs operators tight start turns (g.finished tighter s) =
      .ok () (g.finished (operators :: tighter) s) := by
  have hblanks : (g.cursor s).skipBlanks = d.skipBlanks := skipBlanks_eq_of_or hc
  cases turns with
  | zero =>
    -- Nothing is left to read, so that there are no blanks to pass.
    have hrest : d.rest = [] := List.length_eq_zero_iff.1 (Nat.le_zero.1 hturns)
    have hnone : d.skipBlanks = d := by
      rw [Cursor.skipBlanks, hrest]
      rfl
    have hcursor : g.cursor s = d := by
      rw [hnone] at hc
      exact hc.elim id id
    have hstays : g.moveTo (g.cursor s).skipBlanks s = s := by
      rw [hblanks, hnone, ← hcursor, g.moveTo_cursor]
    cases tighter with
    | nil => exact congrArg (EStateM.Result.ok ()) hstays.symm
    | cons next tighter => rfl
  | succ turns =>
    have hfinished := skipBlanks_eq_of_or (cursor_finished tighter hc)
    rw [pairs_succ_apply, OperatorTable.operator_congr hfinished, hstops]
    dsimp only
    rw [moveTo_finished, finished, hblanks]

/-- Without an operator of the first level, it is up to the tighter ones. -/
lemma climb_cons_of_tighter {k : ℕ} (hclimbs : g.Climbs s₀ turns tighter k)
    (ht : t.HasPrecedence g.table.levelOf k) (hreads : g.Reads s₀ c t.operands t.operators d)
    (hstops : g.table.StopsAt tighter d) (hturns : c.rest.length ≤ turns) (hs : g.Reachable s₀ s)
    (hc : g.cursor s = c) :
    g.climb turns (operators :: tighter) s =
      match g.perform t s with
      | .error e s₁ => .error e s₁
      | .ok _ s₁ =>
        g.pairs operators (g.climb turns tighter) (g.mark s) turns (g.finished tighter s₁) := by
  rw [climb_cons_apply, hclimbs ht hreads hstops hturns hs hc, bind_apply]
  cases g.perform t s with
  | error e s₁ => rfl
  | ok a s₁ => rfl

/-- A pair of an operator of the first level and the subtree on the right of it. -/
lemma pairs_succ_of_isNext (hkeeps : g.KeepsCursor s₀)
    (hlevels : g.table.levels = before ++ operators :: tighter)
    (hclimbs : g.Climbs s₀ turns tighter (before.length + 1)) (hnext : g.table.IsNext op c c')
    (hlevel : g.table.levelOf op = before.length)
    (ht : t.HasPrecedence g.table.levelOf (before.length + 1))
    (hreads : g.Reads s₀ c' t.operands t.operators d) (hstops : g.table.StopsAt tighter d)
    (hturns : c'.rest.length ≤ turns) (hs : g.Reachable s₀ s)
    (hc : g.cursor s = c ∨ g.cursor s = c.skipBlanks) (start left : ℕ) :
    g.pairs operators (g.climb turns tighter) start (left + 1) (g.finished tighter s) =
      match g.perform t (g.passed op s) with
      | .error e s₁ => .error e s₁
      | .ok _ s₁ =>
        match g.reduce op.2 start (g.finished tighter s₁) with
        | .error e s₂ => .error e s₂
        | .ok _ s₂ =>
          g.pairs operators (g.climb turns tighter) start left (g.finished tighter s₂) := by
  have hread : (g.cursor (g.finished tighter s)).operator g.table.vocabulary operators =
      (some op.2, c') := by
    rw [OperatorTable.operator_congr (skipBlanks_eq_of_or (cursor_finished tighter hc))]
    exact hnext.operator_eq hlevels hlevel
  have hpassed : g.Reachable s₀ (g.moveTo c' s) := hs.moveTo c'
  have hcursor : g.cursor (g.moveTo c' s) = c' := g.cursor_moveTo c' s
  rw [pairs_succ_apply, hread]
  dsimp only
  rw [moveTo_finished, hclimbs ht hreads hstops hturns hpassed hcursor, passed_eq hnext hc,
    bind_apply]
  cases hrun : g.perform t (g.moveTo c' s) with
  | error e s₁ => rfl
  | ok a s₁ =>
    obtain ⟨hs₁, -⟩ := reachable_of_perform hkeeps hreads hpassed hcursor hrun
    dsimp only [modify_apply]
    cases hreduce : g.reduce op.2 start (g.finished tighter s₁) with
    | error e s₂ => rfl
    | ok a s₂ =>
      dsimp only
      rw [finished_of_cursor_eq (hkeeps _ _ _ _ (hs₁.finished tighter) hreduce)]

/-- The operators of the first level stand along the left edge of the tree.  Their pairs are read
one after the other, and enough turns are left for what is behind the tree. -/
lemma exists_turns (htable : g.table.IsProper) (hkeeps : g.KeepsCursor s₀)
    (hlevels : g.table.levels = before ++ operators :: tighter)
    (hclimbs : g.Climbs s₀ turns tighter (before.length + 1))
    (ht : t.HasPrecedence g.table.levelOf before.length)
    (hreads : g.Reads s₀ c t.operands t.operators d) (hstops : g.table.StopsAt tighter d)
    (hturns : c.rest.length ≤ turns) :
    ∃ left, d.rest.length ≤ left ∧ ∀ s, g.Reachable s₀ s → g.cursor s = c →
      g.climb turns (operators :: tighter) s =
        match g.perform t s with
        | .error e s₁ => .error e s₁
        | .ok _ s₁ =>
          g.pairs operators (g.climb turns tighter) (g.mark s) left (g.finished tighter s₁) := by
  have hlength := hreads.length_le htable
  induction t generalizing c d with
  | operand a =>
    have htight : (OperatorTree.operand a : OperatorTree Cursor (Spelling × Op)).HasPrecedence
      g.table.levelOf (before.length + 1) := trivial
    exact ⟨turns, by omega, fun s => climb_cons_of_tighter hclimbs htight hreads hstops hturns⟩
  | node left op right ihl _ =>
    obtain ⟨hroot, hleft, hright⟩ := ht
    by_cases hlevel : g.table.levelOf op = before.length
    · obtain ⟨d₁, c₂, hreadsl, hnext, hreadsr⟩ := hreads.split_node
      have hstopsl : g.table.StopsAt tighter d₁ := by
        refine hnext.stopsAt htable (hlevels.trans (List.append_cons _ _ _)) ?_
        rw [hlevel, List.length_append]
        exact Nat.lt_succ_self _
      have hlel := hreadsl.length_le htable
      have hlt := hnext.length_lt htable
      have hler := hreadsr.length_le htable
      rw [hlevel] at hleft hright
      obtain ⟨turns₁, hturns₁, hclimb⟩ := ihl hleft hreadsl hstopsl hturns hlel
      -- The operator takes a character of the text, so that there is a turn for it.
      obtain ⟨turns₂, rfl⟩ : ∃ n, turns₁ = n + 1 := ⟨turns₁ - 1, by omega⟩
      refine ⟨turns₂, by omega, fun s hs hc => ?_⟩
      have hdrop : g.table.levels.drop (g.table.levelOf op + 1) = tighter := by
        rw [hlevel, hlevels, List.append_cons]
        exact List.drop_left' List.length_append
      rw [hclimb s hs hc, perform_node_apply, hdrop]
      cases hrun : g.perform left s with
      | error e s₁ => rfl
      | ok a s₁ =>
        obtain ⟨hs₁, hc₁⟩ := reachable_of_perform hkeeps hreadsl hs hc hrun
        dsimp only
        rw [pairs_succ_of_isNext hkeeps hlevels hclimbs hnext hlevel hright hreadsr hstops
          (by omega) hs₁
          hc₁]
        cases g.perform right (g.passed op s₁) with
        | error e s₂ => rfl
        | ok a s₂ => rfl
    · have htight : (OperatorTree.node left op right).HasPrecedence g.table.levelOf
          (before.length + 1) := ⟨Nat.lt_of_le_of_ne hroot (Ne.symm hlevel), hleft, hright⟩
      exact ⟨turns, by omega, fun s => climb_cons_of_tighter hclimbs htight hreads hstops hturns⟩

/-- If the tighter levels are climbed as trees are performed, then so is this one. -/
lemma climbs_cons (htable : g.table.IsProper) (hkeeps : g.KeepsCursor s₀)
    (hlevels : g.table.levels = before ++ operators :: tighter)
    (hclimbs : g.Climbs s₀ turns tighter (before.length + 1)) :
    g.Climbs s₀ turns (operators :: tighter) before.length := by
  intro t c d s ht hreads hstops hturns hs hc
  obtain ⟨hlevel, htighter⟩ := List.forall_mem_cons.1 hstops
  obtain ⟨left, hleft, hclimb⟩ :=
    exists_turns htable hkeeps hlevels hclimbs ht hreads htighter hturns
  rw [hclimb s hs hc, bind_apply]
  cases hrun : g.perform t s with
  | error e s₁ => rfl
  | ok a s₁ =>
    obtain ⟨-, hc₁⟩ := reachable_of_perform hkeeps hreads hs hc hrun
    exact pairs_of_stopsAt _ _ hlevel hleft hc₁

/-- Climbing through the last levels of a table does what the trees say. -/
theorem climbs (htable : g.table.IsProper) (hkeeps : g.KeepsCursor s₀) (turns : ℕ)
    (hlevels : g.table.levels = before ++ levels) : g.Climbs s₀ turns levels before.length := by
  induction levels generalizing before with
  | nil =>
    rw [List.append_nil] at hlevels
    rw [← hlevels]
    exact climbs_nil s₀ turns
  | cons operators tighter ih =>
    have hbehind : g.table.levels = (before ++ [operators]) ++ tighter :=
      hlevels.trans (List.append_cons _ _ _)
    have hclimbs := ih hbehind
    rw [List.length_append] at hclimbs
    exact climbs_cons htable hkeeps hlevels hclimbs

/-- A phrase does what the tree of its operators says, and ends before the first operator that is
not in the table. -/
theorem phrase_eq_perform (htable : g.table.IsProper) (hkeeps : g.KeepsCursor s)
    (ht : t.HasPrecedence g.table.levelOf 0)
    (hreads : g.Reads s (g.cursor s) t.operands t.operators stop)
    (hstop : (stop.operator g.table.vocabulary g.table.levels.flatten).1 = none) :
    g.phrase s = (do g.perform t; modify (g.finished g.table.levels)) s := by
  have hclimbs : g.Climbs s (g.cursor s).rest.length g.table.levels 0 :=
    climbs htable hkeeps _ (List.nil_append _).symm
  rw [phrase, bind_apply, get_apply]
  exact hclimbs ht hreads (OperatorTable.stopsAt_of_operator_eq_none hstop) le_rfl .start rfl

end Climber

end Reckon
