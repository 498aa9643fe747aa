import Reckon.CommandLine.Session
import Reckon.Proofs.Filter.OtherFields

/-!
# Lines that satisfy a filter

The filter command prints, in the order of the input, the lines whose fields satisfy the filter, up
to the first line about which the filter fails (`filterLines_append`, `filterLines_cons_of_error`).

Failing is meant for texts that are no formulas.  But a filter fails as well on a row with too few
fields, so that a short line ends the output of a filter that can decide the lines behind it
(`perform_filter_short_line`).  As long as no line is shorter than some row that can be decided, all
of the lines that satisfy the filter are printed and nothing else (`perform_filter`).
-/

namespace Reckon.Session

open Outcome RowFilter

variable {delimiter : Char} {byWords : Bool} {f : RowFilter} {expression : String}
  {limits : Formula.Limits} {lines : List String}

/-- Those of some lines whose fields a filter accepts, in their order, each ended by a line feed. -/
def acceptedText (delimiter : Char) (byWords : Bool) (f : RowFilter) (lines : List String) :
    String :=
  String.join
    ((lines.filter fun line => (accepts (fieldsOf delimiter byWords line) f).1).map (· ++ "\n"))

lemma print_empty (o : Output) : o.print "" = o := by
  simp [Output.print]

lemma print_print (o : Output) (s t : String) : (o.print s).print t = o.print (s ++ t) := by
  simp [Output.print, String.append_assoc]

/-! ## Line by line -/

/-- A filter accepts the rows about which it decides so. -/
lemma accepts_fst (hf : f.IsFor expression limits) (row : Array String) :
    (accepts row f).1 = decide (verdict expression limits row = .ok true) := by
  rw [← (decides expression limits).answer_eq hf row]
  exact congrArg Prod.fst ((decides expression limits).accepts_eq row f)

/-- A line about which the filter does not fail is printed if it is accepted. -/
lemma filterLines_cons_of_ok (hf : f.IsFor expression limits) (line : String) {b : Bool}
    (h : verdict expression limits (fieldsOf delimiter byWords line) = .ok b) :
    ∃ f' : RowFilter, f'.IsFor expression limits ∧ ∀ failure rest o,
      filterLines delimiter byWords failure (line :: rest) f o =
        filterLines delimiter byWords failure rest f'
          (if b then o.print (line ++ "\n") else o) := by
  have hanswer : answer (tryMatch (fieldsOf delimiter byWords line) f) = .ok b :=
    ((decides expression limits).answer_eq hf _).trans h
  rcases hrun : tryMatch (fieldsOf delimiter byWords line) f with ⟨b', f'⟩ | ⟨e, f'⟩
  · rw [hrun] at hanswer
    obtain rfl : b' = b := Except.ok.inj hanswer
    have hkeeps : IsFor expression limits (final (tryMatch (fieldsOf delimiter byWords line) f)) :=
      (decides expression limits).keeps hf _
    rw [hrun] at hkeeps
    exact ⟨f', hkeeps, fun failure rest o => by rw [filterLines, hrun]⟩
  · rw [hrun] at hanswer
    exact nomatch hanswer

/-- A line about which the filter fails ends the output. -/
lemma filterLines_cons_of_error (hf : f.IsFor expression limits) (line : String) {e : Error}
    (h : verdict expression limits (fieldsOf delimiter byWords line) = .error e)
    (failure : Option String) (rest : List String) (o : Output) :
    filterLines delimiter byWords failure (line :: rest) f o =
      o.fail ("invalid filter: " ++ e.message) := by
  have hanswer : answer (tryMatch (fieldsOf delimiter byWords line) f) = .error e :=
    ((decides expression limits).answer_eq hf _).trans h
  rcases hrun : tryMatch (fieldsOf delimiter byWords line) f with ⟨b, f'⟩ | ⟨e', f'⟩
  · rw [hrun] at hanswer
    exact nomatch hanswer
  · rw [hrun] at hanswer
    obtain rfl : e' = e := Except.error.inj hanswer
    rw [filterLines, hrun]

/-- Lines about which the filter does not fail are printed if they are accepted, and the lines
behind them are treated as if they were the first. -/
lemma filterLines_append (hf : f.IsFor expression limits)
    (h : ∀ line ∈ lines, ∃ b, verdict expression limits (fieldsOf delimiter byWords line) = .ok b) :
    ∃ f' : RowFilter, f'.IsFor expression limits ∧ ∀ failure rest o,
      filterLines delimiter byWords failure (lines ++ rest) f o =
        filterLines delimiter byWords failure rest f'
          (o.print (acceptedText delimiter byWords (new expression limits) lines)) := by
  induction lines generalizing f with
  | nil => exact ⟨f, hf, fun failure rest o => congrArg _ (print_empty o).symm⟩
  | cons line lines ih =>
    obtain ⟨b, hb⟩ := h line List.mem_cons_self
    obtain ⟨f₁, hf₁, hline⟩ := filterLines_cons_of_ok hf line hb
    obtain ⟨f₂, hf₂, hlines⟩ := ih hf₁ fun l hl => h l (List.mem_cons_of_mem _ hl)
    refine ⟨f₂, hf₂, fun failure rest o => ?_⟩
    have haccepts : (accepts (fieldsOf delimiter byWords line) (new expression limits)).1 =
        decide (verdict expression limits (fieldsOf delimiter byWords line) = .ok true) :=
      accepts_fst ⟨rfl, rfl⟩ _
    rw [List.cons_append, hline, hlines, acceptedText, acceptedText, List.filter_cons, haccepts, hb]
    cases b with
    | true => simp [print_print]
    | false => simp

/-! ## The filter command -/

/-- Whether an input can be opened, does not break off, and has these lines. -/
def IsInput (stdin : Input) (file : String → Except String Input) (path : Option String)
    (lines : List String) : Prop :=
  path.elim (.ok stdin) file = .ok ⟨lines, none⟩

/-- Whether a filter decides about the fields of a line. -/
def IsDecided (delimiter : Char) (byWords : Bool) (f : RowFilter) (line : String) : Prop :=
  ∃ b, answer (tryMatch (fieldsOf delimiter byWords line) f) = .ok b

variable {engine : Engine} {stdin : Input} {file : String → Except String Input}
  {path : Option String}
  {row : Array String} {b : Bool}

lemma perform_filter_eq (hinput : IsInput stdin file path lines) :
    perform stdin file engine (.filter expression delimiter byWords path) =
      filterLines delimiter byWords none lines (engine.rowFilter expression) {} := by
  rw [perform, hinput]

/-- With a filter that can decide some row, the filter command prints precisely the lines whose
fields the filter accepts, in their order, if it can decide about all of them; it can at least if
they have no fewer fields than that row.  The first line about which it cannot decide has too few
fields: an error says which one is missing, and neither this line nor any behind it is printed,
whether or not the filter accepts them. -/
theorem perform_filter (delimiter : Char) (byWords : Bool) (hinput : IsInput stdin file path lines)
    (hrow : answer (tryMatch row (engine.rowFilter expression)) = .ok b) :
    ((∀ line ∈ lines, IsDecided delimiter byWords (engine.rowFilter expression) line) →
      perform stdin file engine (.filter expression delimiter byWords path) =
        { stdout := acceptedText delimiter byWords (engine.rowFilter expression) lines }) ∧
    (∀ line, row.size ≤ (fieldsOf delimiter byWords line).size →
      IsDecided delimiter byWords (engine.rowFilter expression) line) ∧
    ∀ before line behind, lines = before ++ line :: behind →
      (∀ l ∈ before, IsDecided delimiter byWords (engine.rowFilter expression) l) →
      ¬IsDecided delimiter byWords (engine.rowFilter expression) line →
      ∃ e : Error, e.IsMissingField (fieldsOf delimiter byWords line).size ∧
        perform stdin file engine (.filter expression delimiter byWords path) =
          { stdout := acceptedText delimiter byWords (engine.rowFilter expression) before,
            stderr := "Error: invalid filter: " ++ e.message ++ "\n", code := 1 } := by
  let limits := engine.settings.filterLimits
  have hfilter : (engine.rowFilter expression).IsFor expression limits := ⟨rfl, rfl⟩
  have hverdict (row : Array String) :
      answer (tryMatch row (engine.rowFilter expression)) = verdict expression limits row :=
    (decides expression limits).answer_eq hfilter row
  have hdecided (line : String)
      (h : IsDecided delimiter byWords (engine.rowFilter expression) line) :
      ∃ b, verdict expression limits (fieldsOf delimiter byWords line) = .ok b := by
    obtain ⟨b, hb⟩ := h
    exact ⟨b, (hverdict _).symm.trans hb⟩
  rw [hverdict] at hrow
  rw [perform_filter_eq hinput]
  refine ⟨fun hlines => ?_, fun line hsize => ?_, ?_⟩
  · obtain ⟨f', -, happend⟩ :=
      filterLines_append hfilter fun line hline => hdecided line (hlines line hline)
    have hall := happend none [] {}
    rw [List.append_nil] at hall
    rw [hall, filterLines, Output.print, String.empty_append]
    rfl
  · obtain ⟨b', hb'⟩ := exists_verdict_of_size_le hrow hsize
    exact ⟨b', (hverdict _).trans hb'⟩
  · rintro before line behind rfl hbefore hline
    rcases verdict_ok_or_isMissingField hrow (fieldsOf delimiter byWords line) with
      ⟨b', hb'⟩ | ⟨e, herror, hmissing⟩
    · exact absurd ⟨b', (hverdict _).trans hb'⟩ hline
    · obtain ⟨f', hf', happend⟩ := filterLines_append hfilter fun l hl => hdecided l (hbefore l hl)
      refine ⟨e, hmissing, ?_⟩
      rw [happend, filterLines_cons_of_error hf' line herror]
      have hmessage : "" ++ ("Error: " ++ ("invalid filter: " ++ e.message) ++ "\n") =
          "Error: invalid filter: " ++ e.message ++ "\n" := by
        rw [String.empty_append, ← String.append_assoc]
        rfl
      rw [Output.fail, Output.complain, Output.printError, Output.print, String.empty_append,
        hmessage]
      rfl

/-- Lines with two fields and more are printed if the second field is `b`. -/
theorem perform_filter_two_fields :
    let engine := Engine.new {}
    let f := engine.rowFilter "$2 == \"b\""
    let noFile : String → Except String Input := fun _ => .error ""
    IsInput ⟨["a,b", "b,a", "b,b,b"], none⟩ noFile none ["a,b", "b,a", "b,b,b"] ∧
    answer (tryMatch #["x", "y"] f) = .ok false ∧
    (∀ line ∈ ["a,b", "b,a", "b,b,b"], IsDecided ',' false f line) ∧
    perform ⟨["a,b", "b,a", "b,b,b"], none⟩ noFile engine (.filter "$2 == \"b\"" ',' false none) =
      { stdout := "a,b\nb,b,b\n" } := by
  intro engine f noFile
  have hinput : IsInput ⟨["a,b", "b,a", "b,b,b"], none⟩ noFile none ["a,b", "b,a", "b,b,b"] := rfl
  have hrow : answer (tryMatch #["x", "y"] f) = .ok false := by decide +kernel
  obtain ⟨hprinted, hdecided, -⟩ := perform_filter ',' false hinput hrow
  have hlines : ∀ line ∈ ["a,b", "b,a", "b,b,b"], IsDecided ',' false f line :=
    fun line hline => hdecided line (by revert line; decide)
  have htext : acceptedText ',' false f ["a,b", "b,a", "b,b,b"] = "a,b\nb,b,b\n" := by
    decide +kernel
  refine ⟨hinput, hrow, hlines, ?_⟩
  rw [hprinted hlines, htext]

/-- A line with one field keeps a line behind it from being printed that the filter accepts. -/
theorem perform_filter_short_line :
    let engine := Engine.new {}
    let f := engine.rowFilter "$2 == \"b\""
    let noFile : String → Except String Input := fun _ => .error ""
    answer (tryMatch #["a", "b"] f) = .ok true ∧
    acceptedText ',' false f ["a", "a,b"] = "a,b\n" ∧
    perform ⟨["a", "a,b"], none⟩ noFile engine (.filter "$2 == \"b\"" ',' false none) =
      { stderr := "Error: invalid filter: field $2 out of range, row has 1 field(s)\n",
        code := 1 } := by
  decide +kernel

end Reckon.Session
