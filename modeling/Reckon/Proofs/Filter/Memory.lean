import Reckon.Proofs.Filter.OnePass

/-!
# Filters without memory

What a filter keeps from row to row never shows.  However many rows it was asked about, and whether
their decision failed or not, it answers as a filter does that was made for this row alone
(`RowFilter.replies_eq_map_fresh`).
-/

namespace Reckon

open Outcome

/-- A filter as its callers see it. -/
structure Decider (σ : Type) where
  tryMatch : Array String → EStateM Error σ Bool
  accepts : Array String → StateM σ Bool
  isValid : σ → Bool

namespace Decider

variable {σ : Type}

/-- What can be asked about a row. -/
inductive Query
  | tryMatch (row : Array String)
  | accepts (row : Array String)

/-- What is learnt about a row: the answer, and whether the filter is valid afterwards. -/
inductive Reply
  | decided (answer : Except Error Bool) (isValid : Bool)
  | accepted (answer isValid : Bool)
  deriving DecidableEq

/-- The reply to a query. -/
def reply (d : Decider σ) : Query → StateM σ Reply
  | .tryMatch row => fun f =>
    let r := d.tryMatch row f
    (.decided (answer r) (d.isValid (final r)), final r)
  | .accepts row => fun f =>
    let (accepted, f') := d.accepts row f
    (.accepted accepted (d.isValid f'), f')

/-- The replies to queries, one after the other. -/
def replies (d : Decider σ) (queries : List Query) : StateM σ (List Reply) := queries.mapM d.reply

/-- Whether a filter decides rows as it is told, as long as it is as it should be, and stays so.  It
accepts what it decides to be true, and is valid afterwards if it decided at all. -/
structure Decides (d : Decider σ) (I : σ → Prop) (verdict : Array String → Except Error Bool) :
    Prop where
  answer_eq : ∀ {f}, I f → ∀ row, answer (d.tryMatch row f) = verdict row
  keeps : ∀ {f}, I f → ∀ row, I (final (d.tryMatch row f))
  isValid_eq : ∀ row f, d.isValid (final (d.tryMatch row f)) = isSuccess (d.tryMatch row f)
  accepts_eq : ∀ row f,
    d.accepts row f = (decide (answer (d.tryMatch row f) = .ok true), final (d.tryMatch row f))

/-- The reply that a verdict calls for. -/
def Query.replyFor (verdict : Array String → Except Error Bool) : Query → Reply
  | tryMatch row => .decided (verdict row) (verdict row).isOk
  | accepts row => .accepted (decide (verdict row = .ok true)) (verdict row).isOk

namespace Decides

variable {d : Decider σ} {I : σ → Prop} {verdict : Array String → Except Error Bool} {f : σ}

/-- An answer is no error if the outcome is a success. -/
lemma isOk_answer {α : Type} (r : EStateM.Result Error σ α) : (answer r).isOk = isSuccess r := by
  cases r with
  | ok a s => rfl
  | error e s => rfl

/-- A query is answered by the verdict, and the filter stays as it should be. -/
lemma reply (h : d.Decides I verdict) (hf : I f) (q : Query) :
    (d.reply q f).1 = q.replyFor verdict ∧ I (d.reply q f).2 := by
  cases q with
  | tryMatch row =>
    refine ⟨?_, h.keeps hf row⟩
    show Reply.decided _ _ = Reply.decided _ _
    rw [h.isValid_eq, ← isOk_answer, h.answer_eq hf]
  | accepts row =>
    show Reply.accepted (d.accepts row f).1 (d.isValid (d.accepts row f).2) = Reply.accepted _ _ ∧
      I (d.accepts row f).2
    rw [h.accepts_eq, h.isValid_eq, ← isOk_answer, h.answer_eq hf]
    exact ⟨rfl, h.keeps hf row⟩

/-- All queries are answered by the verdicts on their own rows. -/
theorem replies (h : d.Decides I verdict) (hf : I f) (queries : List Query) :
    (d.replies queries f).1 = queries.map fun q => q.replyFor verdict := by
  induction queries generalizing f with
  | nil => rfl
  | cons q queries ih =>
    obtain ⟨hreply, hafter⟩ := h.reply hf q
    rw [Decider.replies, List.mapM_cons]
    exact congrArg₂ List.cons hreply (ih hafter)

/-- So they are answered as by a filter that is asked nothing else. -/
theorem replies_eq_map_reply (h : d.Decides I verdict) (hf : I f) (queries : List Query) :
    (d.replies queries f).1 = queries.map fun q => (d.reply q f).1 := by
  rw [h.replies hf]
  exact List.map_congr_left fun q _ => ((h.reply hf q).1).symm

/-- To accept is to decide that it is true. -/
lemma accepts_eq_true_iff (h : d.Decides I verdict) (row : Array String) (f : σ) :
    (d.accepts row f).1 = true ↔ answer (d.tryMatch row f) = .ok true := by
  rw [h.accepts_eq, decide_eq_true_iff]

/-- A filter is valid if it has just decided. -/
lemma isValid_iff (h : d.Decides I verdict) (row : Array String) (f : σ) :
    d.isValid (final (d.tryMatch row f)) = true ↔ ∃ b, answer (d.tryMatch row f) = .ok b := by
  rw [h.isValid_eq]
  cases d.tryMatch row f with
  | ok b f' => exact ⟨fun _ => ⟨b, rfl⟩, fun _ => rfl⟩
  | error e f' => exact ⟨nofun, nofun⟩

/-- A filter is valid after a row if this was decided. -/
lemma isValid_accepts_iff (h : d.Decides I verdict) (row : Array String) (f : σ) :
    d.isValid (d.accepts row f).2 = true ↔ ∃ b, answer (d.tryMatch row f) = .ok b := by
  rw [h.accepts_eq]
  exact h.isValid_iff row f

end Decides

end Decider

/-! ## Row filters -/

namespace RowFilter

/-- What a filter with this text is to answer about a row. -/
def verdict (expression : String) (limits : Formula.Limits) (row : Array String) :
    Except Error Bool :=
  (Formula.ofString limits row.size expression).map fun f => f.elim false (Formula.truth row)

/-- A filter as its callers see it. -/
def decider : Decider RowFilter := ⟨tryMatch, accepts, isValid⟩

/-- Whether a filter has this text and these limits. -/
def IsFor (expression : String) (limits : Formula.Limits) (f : RowFilter) : Prop :=
  f.expression = expression ∧ f.limits = limits

/-- A filter decides what its text is to answer. -/
theorem decides (expression : String) (limits : Formula.Limits) :
    decider.Decides (IsFor expression limits) (verdict expression limits) where
  answer_eq := by
    rintro f ⟨rfl, rfl⟩ row
    show answer (tryMatch row f) = _
    unfold tryMatch verdict
    cases Formula.ofString f.limits row.size f.expression with
    | error e => rfl
    | ok found =>
      cases found with
      | none => rfl
      | some formula => exact congrArg Except.ok (formula.holds_fst row _)
  keeps := by
    rintro f ⟨rfl, rfl⟩ row
    show IsFor _ _ (final (tryMatch row f))
    unfold tryMatch
    split
    · exact ⟨rfl, rfl⟩
    · exact ⟨rfl, rfl⟩
    · exact ⟨rfl, rfl⟩
  isValid_eq row f := by
    show (final (tryMatch row f)).isValid = isSuccess (tryMatch row f)
    unfold tryMatch
    split
    · rfl
    · rfl
    · rfl
  accepts_eq row f := by
    show accepts row f = (decide (answer (tryMatch row f) = .ok true), final (tryMatch row f))
    unfold accepts
    rcases tryMatch row f with ⟨_ | _, f'⟩ | ⟨e, f'⟩
    · rfl
    · rfl
    · rfl

end RowFilter

namespace OnePassFilter

/-- A filter as its callers see it. -/
def decider : Decider OnePassFilter := ⟨tryMatch, accepts, fun f => f.isValid⟩

/-- A filter that works in one pass decides the same. -/
theorem decides (expression : String) (limits : Formula.Limits) :
    decider.Decides (fun f => f.toRowFilter.IsFor expression limits)
      (RowFilter.verdict expression limits) where
  answer_eq := by
    rintro f ⟨rfl, rfl⟩ row
    show answer (tryMatch row f) = _
    unfold tryMatch RowFilter.verdict
    cases hend : (Cursor.ofString f.expression).atEnd with
    | true =>
      simp only [Formula.ofString, hend, if_true]
      rfl
    | false =>
      let p : Pass := ⟨⟨Cursor.ofString f.expression, []⟩, f.literal, f.patterns.trim⟩
      rw [← Pass.answer_whole f.limits row (p := p) rfl hend]
      simp only [hend, Bool.false_eq_true, if_false]
      generalize Pass.whole f.limits row p = r
      cases r with
      | ok answer p' => rfl
      | error e p' => rfl
  keeps := by
    rintro f ⟨rfl, rfl⟩ row
    show RowFilter.IsFor _ _ (final (tryMatch row f)).toRowFilter
    unfold tryMatch
    dsimp only
    split
    · exact ⟨rfl, rfl⟩
    · split
      · exact ⟨rfl, rfl⟩
      · exact ⟨rfl, rfl⟩
  isValid_eq row f := by
    show (final (tryMatch row f)).isValid = isSuccess (tryMatch row f)
    unfold tryMatch
    dsimp only
    split
    · rfl
    · split
      · rfl
      · rfl
  accepts_eq row f := by
    show accepts row f = (decide (answer (tryMatch row f) = .ok true), final (tryMatch row f))
    unfold accepts
    rcases tryMatch row f with ⟨_ | _, f'⟩ | ⟨e, f'⟩
    · rfl
    · rfl
    · rfl

end OnePassFilter

namespace RowFilter

/-- Filters have no memory.  Whatever rows a filter is asked about, one after the other, and whether
it fails on some of them or not, each reply is the reply of a filter with the same text and the same
limits that is asked about this row only; and it is the same whether formulas are built or rows are
decided in one pass, with a buffer and a cache that even failures change.  In any state a filter
accepts exactly the rows of which it decides that they satisfy its text, and it is valid afterwards
if and only if it decided at all. -/
theorem replies_eq_map_fresh (expression : String) (limits : Formula.Limits)
    (queries : List Decider.Query) :
    (decider.replies queries (new expression limits)).1 =
      queries.map (fun q => (decider.reply q (new expression limits)).1) ∧
    (OnePassFilter.decider.replies queries (.new expression limits)).1 =
      queries.map (fun q => (OnePassFilter.decider.reply q (.new expression limits)).1) ∧
    (OnePassFilter.decider.replies queries (.new expression limits)).1 =
      (decider.replies queries (new expression limits)).1 ∧
    (∀ (f : RowFilter) (row : Array String),
      ((accepts row f).1 = true ↔ answer (tryMatch row f) = .ok true) ∧
      ((accepts row f).2.isValid = true ↔ ∃ b, answer (tryMatch row f) = .ok b) ∧
      ((final (tryMatch row f)).isValid = true ↔ ∃ b, answer (tryMatch row f) = .ok b)) ∧
    ∀ (f : OnePassFilter) (row : Array String),
      ((f.accepts row).1 = true ↔ answer (f.tryMatch row) = .ok true) ∧
      ((f.accepts row).2.isValid = true ↔ ∃ b, answer (f.tryMatch row) = .ok b) ∧
      ((final (f.tryMatch row)).isValid = true ↔ ∃ b, answer (f.tryMatch row) = .ok b) := by
  have hbuilt := decides expression limits
  have hpass := OnePassFilter.decides expression limits
  have hnew : (new expression limits).IsFor expression limits := ⟨rfl, rfl⟩
  have hnew' : (OnePassFilter.new expression limits).toRowFilter.IsFor expression limits :=
    ⟨rfl, rfl⟩
  refine ⟨hbuilt.replies_eq_map_reply hnew queries, hpass.replies_eq_map_reply hnew' queries,
    (hpass.replies hnew' queries).trans (hbuilt.replies hnew queries).symm, fun f row => ?_,
    fun f row => ?_⟩
  · exact ⟨hbuilt.accepts_eq_true_iff row f, hbuilt.isValid_accepts_iff row f,
      hbuilt.isValid_iff row f⟩
  · exact ⟨hpass.accepts_eq_true_iff row f, hpass.isValid_accepts_iff row f,
      hpass.isValid_iff row f⟩

/-- A filter does have something that it could remember: a literal that was not closed stays in its
buffer. -/
example : (final (OnePassFilter.tryMatch #["a"] (.new "$1==\"ab" ⟨9, 1⟩))).literal = "ab" := by
  decide +kernel

end RowFilter

end Reckon
