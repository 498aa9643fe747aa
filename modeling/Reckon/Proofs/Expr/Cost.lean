import Reckon.Proofs.Expr.Reading

/-!
# The cost of reading

Every character of a source pays for nine units of code.  That is enough for what readers leave
behind, also when they fail: the expressions finished so far are together no wider than what was
read (`Costs`, `costs_reader`).  A failure is a matter of the text as long as fewer characters are
left than phrases may be opened.
-/

namespace Reckon.Expr

open Outcome

/-- The width of the plain code of an expression in which numbers stand for the named constants. -/
def expandedWidth : Expr → ℕ
  | number _ | constant _ | var _ _ => 9
  | unary _ operand => operand.expandedWidth + 1
  | binary _ left right => left.expandedWidth + right.expandedWidth + 1
  | choice test yes no => test.expandedWidth + yes.expandedWidth + no.expandedWidth + 1

/-- What expressions take together. -/
def totalExpandedWidth : List Expr → ℕ
  | [] => 0
  | e :: es => e.expandedWidth + totalExpandedWidth es

/-- What a progress can come to: what is finished, and nine units for every character left. -/
def weight (s : Progress Expr) : ℕ := totalExpandedWidth s.done + 9 * s.cursor.rest.length

/-- An outcome adds at most `cost` to the weight and does not lie further back.  Where fewer than
`room` characters were left, a failure is only a matter of the text. -/
structure Within {α : Type} (r : EStateM.Result Error (Progress Expr) α) (s : Progress Expr)
    (cost room : ℕ) : Prop where
  ok : ∀ {s' : Progress Expr} {a : α}, r = .ok a s' →
    s'.cursor.rest.length ≤ s.cursor.rest.length ∧ weight s' ≤ weight s + cost
  error : ∀ {s' : Progress Expr} {e : Error}, r = .error e s' →
    weight s' ≤ weight s + cost ∧ (s.cursor.rest.length < room → e.kind = .badText)

/-- A reader adds at most `cost` to the weight, wherever it begins. -/
def Costs {α : Type} (x : Reader Expr α) (cost room : ℕ) : Prop :=
  ∀ s, Within (x s) s cost room

variable {α β : Type} {x : Reader Expr α} {f : α → Reader Expr β} {cost cost' room room' : ℕ}
  {operand branch inner group tighter : Reader Expr Unit} {c : Cursor} {t : Token}
  {done newer base : List Expr}

/-- The width of a first expression is added to that of the others. -/
@[simp] lemma totalExpandedWidth_cons (e : Expr) (es : List Expr) :
    totalExpandedWidth (e :: es) = e.expandedWidth + totalExpandedWidth es := rfl

/-- No expressions have no width. -/
@[simp] lemma totalExpandedWidth_nil : totalExpandedWidth [] = 0 := rfl

/-- The widths of two lists are added. -/
@[simp] lemma totalExpandedWidth_append (es fs : List Expr) :
    totalExpandedWidth (es ++ fs) = totalExpandedWidth es + totalExpandedWidth fs := by
  induction es with
  | nil => simp
  | cons e es ih => simp [ih, Nat.add_assoc]

/-- The order of expressions has no part in their width. -/
@[simp] lemma totalExpandedWidth_reverse (es : List Expr) :
    totalExpandedWidth es.reverse = totalExpandedWidth es := by
  induction es with
  | nil => rfl
  | cons e es ih => simp [ih, Nat.add_comm]

namespace Within

variable {r : EStateM.Result Error (Progress Expr) α} {s : Progress Expr}

/-- What costs little costs no more than what is allowed. -/
lemma mono (h : Within r s cost room) (hcost : cost ≤ cost') (hroom : room' ≤ room) :
    Within r s cost' room' where
  ok hr := ⟨(h.ok hr).1, Nat.le_trans (h.ok hr).2 (Nat.add_le_add_left hcost _)⟩
  error hr := ⟨Nat.le_trans (h.error hr).1 (Nat.add_le_add_left hcost _),
    fun hlt => (h.error hr).2 (Nat.lt_of_lt_of_le hlt hroom)⟩

/-- Each of the characters that are passed pays for a number and makes room for a phrase. -/
lemma moved {d : Cursor} (passed : ℕ) (hlength : d.rest.length + passed ≤ c.rest.length)
    (h : Within r ⟨d, done⟩ (cost + 9 * passed) room) :
    Within r ⟨c, done⟩ cost (room + passed) := by
  constructor
  · intro s' a hr
    obtain ⟨hle, hweight⟩ := h.ok hr
    simp only [weight] at hle hweight ⊢
    exact ⟨by omega, by omega⟩
  · intro s' e hr
    obtain ⟨hweight, hkind⟩ := h.error hr
    simp only [weight] at hkind hweight ⊢
    exact ⟨by omega, fun hroom => hkind (by omega)⟩

/-- Moving on by a character pays for nine units. -/
lemma forward {d : Cursor} (hlength : d.rest.length < c.rest.length)
    (h : Within r ⟨d, done⟩ (cost + 9) room) : Within r ⟨c, done⟩ cost (room + 1) :=
  moved 1 hlength h

/-- Reading a token pays for nine units. -/
lemma past (htoken : c.token? = some t) (h : Within r ⟨c.past t, done⟩ (cost + 9) room) :
    Within r ⟨c, done⟩ cost (room + 1) :=
  forward (Cursor.length_past_lt htoken) h

/-- Blanks cost nothing. -/
lemma skipBlanks (h : Within r ⟨c.skipBlanks, done⟩ cost room) :
    Within r ⟨c, done⟩ cost room :=
  moved 0 c.length_skipBlanks_le h

/-- To succeed without doing anything costs nothing. -/
lemma of_ok (a : α) (s : Progress Expr) : Within (.ok a s) s 0 room where
  ok hr := by
    cases hr
    exact ⟨Nat.le_refl _, Nat.le_refl _⟩
  error hr := nomatch hr

/-- To fail because of the text costs nothing. -/
lemma of_error {e : Error} (he : e.kind = .badText) (s : Progress Expr) :
    Within (.error e s : EStateM.Result Error (Progress Expr) α) s 0 room where
  ok hr := nomatch hr
  error hr := by
    cases hr
    exact ⟨Nat.le_refl _, fun _ => he⟩

/-- Costs add up where one outcome leads to another. -/
lemma trans {a : α} {s₁ : Progress Expr} {r' : EStateM.Result Error (Progress Expr) β}
    (h : Within (.ok a s₁ : EStateM.Result Error (Progress Expr) α) s cost room)
    (h' : Within r' s₁ cost' room) : Within r' s (cost + cost') room := by
  obtain ⟨hlength, hweight⟩ := h.ok rfl
  constructor
  · intro s' b hr
    obtain ⟨hlength', hweight'⟩ := h'.ok hr
    exact ⟨by omega, by omega⟩
  · intro s' e hr
    obtain ⟨hweight', hkind⟩ := h'.error hr
    exact ⟨by omega, fun hroom => hkind (by omega)⟩

/-- What follows without cost costs nothing more. -/
lemma after {a : α} {s₁ : Progress Expr} {r' : EStateM.Result Error (Progress Expr) β}
    (h : Within (.ok a s₁ : EStateM.Result Error (Progress Expr) α) s cost room)
    (h' : Within r' s₁ 0 room) : Within r' s cost room :=
  h.trans h'

/-- A failure ends a sequence. -/
lemma failed {e : Error} {s₁ : Progress Expr}
    (h : Within (.error e s₁ : EStateM.Result Error (Progress Expr) α) s cost room) :
    Within (.error e s₁ : EStateM.Result Error (Progress Expr) β) s cost room where
  ok hr := nomatch hr
  error hr := by
    cases hr
    exact h.error rfl

end Within

/-- Costs add up in a sequence. -/
lemma Costs.bind (hx : Costs x cost room) (hf : ∀ a, Costs (f a) cost' room) :
    Costs (x >>= f) (cost + cost') room := by
  intro s
  have hfirst := hx s
  rw [bind_apply]
  cases hresult : x s with
  | ok a s₁ =>
    rw [hresult] at hfirst
    exact hfirst.trans (hf a s₁)
  | error e s₁ =>
    rw [hresult] at hfirst
    exact hfirst.failed.mono (Nat.le_add_right _ _) le_rfl

/-- What replaces arguments takes at most as much as they do and one more number. -/
lemma expandedWidth_of_build? {m : Meaning} {args : List Expr} {e : Expr}
    (h : m.build? args = some e) : e.expandedWidth ≤ totalExpandedWidth args + 9 := by
  unfold Meaning.build? at h
  split at h
  · cases h
    simp [expandedWidth]
  · cases h
    simp only [expandedWidth, totalExpandedWidth_cons, totalExpandedWidth_nil]
    omega
  · cases h
    simp only [expandedWidth, totalExpandedWidth_cons, totalExpandedWidth_nil]
    omega
  · cases h

/-- A choice costs at most one number more than its three parts. -/
lemma expandedWidth_of_choice? {args : List Expr} {e : Expr} (h : choice? args = some e) :
    e.expandedWidth ≤ totalExpandedWidth args + 9 := by
  unfold choice? at h
  split at h
  · cases h
    simp only [expandedWidth, totalExpandedWidth_cons, totalExpandedWidth_nil]
    omega
  · cases h

/-- Replacing results costs at most one number more than they do. -/
lemma costs_reduceSince {build : List Expr → Option Expr} {otherwise : List Expr → Error}
    (hbuild : ∀ args e, build args = some e → e.expandedWidth ≤ totalExpandedWidth args + 9)
    (hkind : ∀ args, (otherwise args).kind = .badText) (start room : ℕ) :
    Costs (Reader.reduceSince start build otherwise) 9 room := by
  intro s
  rw [Reader.reduceSince]
  cases hargs : build (s.since start) with
  | none => exact (Within.of_error (hkind _) s).mono (Nat.zero_le 9) le_rfl
  | some e =>
    have hwidth := hbuild _ _ hargs
    have hsplit : totalExpandedWidth s.done = totalExpandedWidth (s.since start) +
        totalExpandedWidth (s.done.drop (s.done.length - start)) := by
      rw [Progress.since, totalExpandedWidth_reverse, ← totalExpandedWidth_append,
        List.take_append_drop]
    constructor
    · rintro s' a ⟨⟩
      refine ⟨Nat.le_refl _, ?_⟩
      simp only [weight, Progress.replaceSince, totalExpandedWidth_cons]
      omega
    · intro s' e' hr
      cases hr

/-- To apply a built-in costs no more than a number. -/
lemma costs_apply (name : String) (m : Meaning) (start room : ℕ) :
    Costs (apply name m start) 9 room :=
  costs_reduceSince (fun _ _ => expandedWidth_of_build?) (fun _ => rfl) start room

/-- What is unexpected is a matter of the text. -/
lemma kind_unexpectedAt (c : Cursor) : (Reader.unexpectedAt c).kind = .badText := by
  unfold Reader.unexpectedAt
  split <;> rfl

/-- What is unclosed is a matter of the text. -/
lemma kind_unclosed (opening : ℕ) (c : Cursor) : (Reader.unclosed opening c).kind = .badText := by
  unfold Reader.unclosed
  split
  · rfl
  · exact kind_unexpectedAt c

/-- Closing a parenthesis costs nothing. -/
lemma costs_closeGroup (opening room : ℕ) : Costs (Reader.closeGroup opening) 0 room := by
  rintro ⟨c, done⟩
  rw [Reader.closeGroup_apply]
  split
  · rename_i htoken
    exact (Within.past htoken ((Within.of_ok _ _).mono (Nat.zero_le 9) le_rfl)).mono le_rfl
      (Nat.le_succ room)
  · exact Within.skipBlanks (Within.of_error (kind_unclosed opening c) _)

/-- Reading a mark costs nothing. -/
lemma costs_expect {ch : Char} (h : Cursor.IsMark ch) (room : ℕ) :
    Costs (Reader.expect ch : Reader Expr Unit) 0 room := by
  rintro ⟨c, done⟩
  rw [Reader.expect_apply h]
  split
  · rename_i htoken
    exact (Within.past htoken ((Within.of_ok _ _).mono (Nat.zero_le 9) le_rfl)).mono le_rfl
      (Nat.le_succ room)
  · exact Within.skipBlanks (Within.of_error (kind_unexpectedAt c) _)

/-! ## The readers of the grammar -/

/-- The pairs of a level cost nothing if the next tighter level does not, as each operator pays. -/
lemma costs_pairs {operators : List (Spelling × BinaryOp)} (htighter : Costs tighter 0 room)
    (h : ∀ candidate ∈ operators, candidate.1 ∈ binaryOperators.vocabulary) (start turns : ℕ) :
    Costs ((grammar operand).pairs operators tighter start turns) 0 room := by
  induction turns with
  | zero => exact fun s => Within.of_ok () s
  | succ turns ih =>
    rintro ⟨c, done⟩
    rw [pairs_succ operand h]
    split
    · rename_i s htoken
      split
      · exact Within.skipBlanks (Within.of_ok _ _)
      · rename_i candidate _
        -- The operator has paid for its instruction.
        have hrest : Costs (do
            tighter
            apply candidate.2.mnemonic (.binary candidate.2) start
            (grammar operand).pairs operators tighter start turns) (0 + (9 + 0)) room :=
          htighter.bind fun _ => (costs_apply _ _ start room).bind fun _ => ih
        exact (Within.past htoken (hrest _)).mono le_rfl (Nat.le_succ room)
    · exact Within.skipBlanks (Within.of_ok _ _)

/-- All levels cost nothing if the operands do not. -/
lemma costs_climb {levels : Levels} (hoperand : Costs operand 0 room)
    (h : ∀ operators ∈ levels, ∀ candidate ∈ operators, candidate.1 ∈ binaryOperators.vocabulary)
    (turns : ℕ) : Costs ((grammar operand).climb turns levels) 0 room := by
  induction levels with
  | nil => exact hoperand
  | cons operators levels ih =>
    have htighter := ih fun o ho => h o (List.mem_cons_of_mem _ ho)
    have hmark : Costs (Reader.mark : Reader Expr ℕ) 0 room := fun s => Within.of_ok _ s
    exact hmark.bind fun start => htighter.bind fun _ =>
      costs_pairs htighter (h operators List.mem_cons_self) start turns

/-- Expressions cost nothing if their operands and branches do not. -/
lemma costs_expressionWith (hoperand : Costs operand 0 (room + 1)) (hbranch : Costs branch 0 room) :
    Costs (expressionWith operand branch) 0 (room + 1) := by
  intro s
  have htest := costs_climb hoperand mem_vocabulary_of_mem_levels s.cursor.rest.length s
  rw [expressionWith_apply]
  cases hresult : (grammar operand).climb s.cursor.rest.length binaryOperators.levels s with
  | ok _ s₁ =>
    rw [hresult] at htest
    refine htest.after ?_
    dsimp only
    split
    · rename_i htoken
      have hbranches : Costs (do
          branch
          Reader.expect ':'
          branch
          Reader.reduceSince s.done.length choice? fun found =>
            .argumentCount "?:" 3 found.length) (0 + (0 + (0 + 9))) room :=
        hbranch.bind fun _ => (costs_expect isMark_colon room).bind fun _ => hbranch.bind fun _ =>
          costs_reduceSince (fun _ _ => expandedWidth_of_choice?) (fun _ => rfl) _ room
      exact Within.past htoken (hbranches _)
    · exact Within.skipBlanks (Within.of_ok _ _)
  | error e s₁ =>
    rw [hresult] at htest
    exact htest.failed

/-- The arguments of a call cost nothing if a group does not. -/
lemma costs_arguments (hgroup : Costs group 0 room) (opening turns : ℕ) :
    Costs (arguments group opening turns) 0 room := by
  induction turns with
  | zero => exact fun s => Within.of_ok () s
  | succ turns ih =>
    intro s
    have hfirst := hgroup s
    rw [arguments_succ]
    cases hresult : group s with
    | ok _ s₁ =>
      rw [hresult] at hfirst
      refine hfirst.after ?_
      dsimp only
      split
      · rename_i htoken
        exact (Within.past htoken ((ih _).mono (Nat.zero_le 9) le_rfl)).mono le_rfl
          (Nat.le_succ room)
      · exact Within.skipBlanks (costs_closeGroup opening room _)
    | error e s₁ =>
      rw [hresult] at hfirst
      exact hfirst.failed

/-- A call costs nothing if its arguments do not. -/
lemma costs_call (hgroup : Costs group 0 room) (function : Builtin) (position : ℕ) :
    Costs (call group function position) 0 (room + 1) := by
  rintro ⟨c, done⟩
  rw [call_apply]
  split
  · rename_i hopen
    refine Within.past hopen ?_
    split
    · rename_i hclose
      exact (Within.past hclose ((costs_apply _ _ _ room _).mono (Nat.le_add_right 9 9)
        le_rfl)).mono le_rfl (Nat.le_succ room)
    · refine Within.skipBlanks ?_
      exact ((costs_arguments hgroup _ _).bind fun _ => costs_apply _ _ _ room) _
  · exact Within.skipBlanks (Within.of_error rfl _)

/-- A result that is added costs its width. -/
lemma costs_push (e : Expr) (room : ℕ) : Costs (Reader.push e) e.expandedWidth room := by
  intro s
  constructor
  · rintro s' a ⟨⟩
    refine ⟨Nat.le_refl _, ?_⟩
    simp only [weight, totalExpandedWidth_cons]
    omega
  · exact nofun

/-- What a name stands for costs no more than a number. -/
lemma costs_named (hgroup : Costs group 0 room) (name : String) (position : ℕ) :
    Costs (named group name position) 9 (room + 1) := by
  intro s
  unfold named
  cases Builtin.lookup name with
  | none => exact costs_push (var name position) (room + 1) s
  | some function =>
    obtain ⟨functionName, meaning⟩ := function
    cases meaning with
    | constant constant => exact costs_push (.constant constant) (room + 1) s
    | unary | binary => exact (costs_call hgroup _ _ s).mono (Nat.zero_le 9) le_rfl

/-- Primaries cost nothing, as their first character pays for them. -/
lemma costs_primary (hgroup : Costs group 0 room) : Costs (primary group) 0 (room + 1) := by
  rintro ⟨c, done⟩
  rw [primary_apply]
  split
  · rename_i n htoken
    split
    · rename_i x _
      -- The numeral pays for the number.
      exact Within.past htoken (costs_push (number x) room ⟨c.past (.numeral n), done⟩)
    · exact Within.skipBlanks (Within.of_error rfl _)
  · rename_i name htoken
    exact (Within.past htoken (costs_named hgroup name _ _)).mono le_rfl (Nat.le_succ (room + 1))
  · rename_i htoken
    refine Within.past htoken ?_
    exact ((hgroup.bind fun _ => costs_closeGroup _ room) _).mono (Nat.zero_le 9) le_rfl
  · exact Within.skipBlanks (Within.of_error (kind_unexpectedAt c) _)

/-- Operands cost nothing if those behind a sign and the groups do not. -/
lemma costs_operandWith (hinner : Costs inner 0 room) (hgroup : Costs group 0 room) :
    Costs (operandWith inner group) 0 (room + 1) := by
  rintro ⟨c, done⟩
  rw [operandWith_apply]
  cases hsign : c.token?.bind Token.sign? with
  | none => exact Within.skipBlanks (costs_primary hgroup _)
  | some sign =>
    obtain ⟨t, htoken, -⟩ := Option.bind_eq_some_iff.1 hsign
    have hpast := Cursor.length_past htoken
    have hpos := (Cursor.token?_eq_some_iff.1 htoken).1.length_pos
    have hle := c.length_skipBlanks_le
    have hforward : (c.skipBlanks.skip 1).rest.length < c.rest.length := by
      rw [Cursor.skip, List.length_drop]
      omega
    refine Within.forward hforward (hinner.bind (fun _ => ?_) _)
    cases sign with
    | none => exact fun s => (Within.of_ok () s).mono (Nat.zero_le 9) le_rfl
    | some f => exact costs_apply _ _ _ room

/-- No reader of expressions leaves more behind than it has read. -/
theorem costs_reader (limit n : ℕ) : Costs (reader limit n .expression) 0 n ∧
    Costs (reader limit n .operand) 0 (n + 1) := by
  have hthrow : ∀ e, Costs (throw e : Reader Expr Unit) 0 0 := by
    intro e s
    constructor
    · exact nofun
    · rintro s' e' ⟨⟩
      exact ⟨Nat.le_refl _, fun hroom => absurd hroom (Nat.not_lt_zero _)⟩
  induction n with
  | zero => exact ⟨hthrow _, costs_operandWith (hthrow _) (hthrow _)⟩
  | succ n ih =>
    have hexpression : Costs (reader limit (n + 1) .expression) 0 (n + 1) :=
      costs_expressionWith ih.2 ih.1
    exact ⟨hexpression, costs_operandWith ih.2 hexpression⟩

end Reckon.Expr
