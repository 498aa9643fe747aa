import Mathlib.Data.Finset.Card
import Reckon.Proofs.Expr.Allowance

/-!
# The variables of a source

A token is a variable if it is a name that no built-in has.  Readers of expressions keep account of
the variables: however far a reader comes, and whether it succeeds or fails, the results that it
leaves behind mention the variables among the tokens that it has read, each as often as it is
written, from left to right (`Expr.Records`, `Expr.exists_lexes_read`).

On success the tokens are those up to where the reader stands.  On failure they may end before: of
`!=`, where an operand should begin, only the first character is passed, and that is no token.
-/

namespace Reckon

open Outcome

/-! ## Lists without repetitions -/

section

variable {α : Type} [DecidableEq α]

/-- Without its repetitions, a list repeats nothing. -/
lemma nodup_eraseDups (l : List α) : l.eraseDups.Nodup := by
  induction hlength : l.length using Nat.strongRecOn generalizing l with
  | ind n ih =>
    cases l with
    | nil => exact List.nodup_nil
    | cons a l =>
      rw [List.eraseDups_cons, List.nodup_cons]
      have hlt : (l.filter fun b => !b == a).length < n := by
        rw [← hlength, List.length_cons]
        exact Nat.lt_succ_of_le (List.length_filter_le _ l)
      refine ⟨fun hmem => ?_, ih _ hlt _ rfl⟩
      have hne := (List.mem_filter.1 (List.mem_eraseDups.1 hmem)).2
      simp at hne

/-- Without repetitions a list has as many elements as the set of them. -/
lemma length_eraseDups (l : List α) : l.eraseDups.length = l.toFinset.card := by
  rw [← List.toFinset_card_of_nodup (nodup_eraseDups l)]
  congr 1
  ext a
  rw [List.mem_toFinset, List.mem_toFinset, List.mem_eraseDups]

end

/-! ## The variables among tokens -/

/-- The variable that a token is. -/
def Token.var? : Token → Option String
  | name text => if Builtin.lookup text = none then some text else none
  | _ => none

/-- The variables among tokens, from left to right, with repetitions. -/
def variablesOf (ts : List Lexeme) : List String := ts.filterMap fun l => l.token.var?

/-- The variables of two texts are those of the first and then those of the second. -/
@[simp] lemma variablesOf_append (ts us : List Lexeme) :
    variablesOf (ts ++ us) = variablesOf ts ++ variablesOf us :=
  List.filterMap_append

/-- A single token has at most one variable. -/
lemma variablesOf_singleton (l : Lexeme) : variablesOf [l] = l.token.var?.toList := by
  cases h : l.token.var? <;> simp [variablesOf, h]

namespace Expr

/-! ## The account that outcomes keep -/

/-- The names that results mention, from left to right, where the newest result comes first. -/
def mentioned (done : List Expr) : List String := done.reverse.flatMap names

/-- No results mention no name. -/
@[simp] lemma mentioned_nil : mentioned [] = [] := rfl

/-- The newest result is mentioned last. -/
@[simp] lemma mentioned_cons (e : Expr) (done : List Expr) :
    mentioned (e :: done) = mentioned done ++ e.names := by
  simp [mentioned]

/-- Newer results are mentioned behind those they were added to. -/
lemma mentioned_append (newer base : List Expr) :
    mentioned (newer ++ base) = mentioned base ++ newer.reverse.flatMap names := by
  simp [mentioned]

/-- Whether the outcome of a reader mentions the variables among the tokens that it has read, beside
those that were mentioned before. -/
inductive Records {α : Type} (s : Progress Expr) : EStateM.Result Error (Progress Expr) α → Prop
  | ok {a : α} {s' : Progress Expr} {ts : List Lexeme} : Lexes s.cursor ts s'.cursor →
      mentioned s'.done = mentioned s.done ++ variablesOf ts → Records s (.ok a s')
  | error {e : Error} {s' : Progress Expr} {ts : List Lexeme} {stop : Cursor} :
      Lexes s.cursor ts stop → mentioned s'.done = mentioned s.done ++ variablesOf ts →
      Records s (.error e s')

/-- Whether a reader keeps account of the variables, wherever it begins. -/
def KeepsAccount {α : Type} (x : Reader Expr α) : Prop := ∀ s, Records s (x s)

/-- Whether a reader fails where an equals sign follows, with nothing read. -/
def RefusesEquals (x : Reader Expr Unit) : Prop :=
  ∀ c done, c.skipBlanks.rest.head? = some '=' → ∃ e c', x ⟨c, done⟩ = .error e ⟨c', done⟩

variable {α β : Type} {x : Reader Expr α} {f : α → Reader Expr β}
  {operand branch inner group tighter : Reader Expr Unit} {c d : Cursor} {t : Token}
  {done : List Expr}

namespace Records

variable {r : EStateM.Result Error (Progress Expr) α} {s s' : Progress Expr}

/-- Nothing was read. -/
lemma unread (a : α) (s : Progress Expr) : Records s (.ok a s) :=
  .ok (.stop rfl) (List.append_nil _).symm

/-- A failure that leaves no results behind. -/
lemma failure (e : Error) (c d : Cursor) (done : List Expr) :
    Records ⟨c, done⟩ (.error e ⟨d, done⟩ : EStateM.Result Error (Progress Expr) α) :=
  .error (.stop (rfl : c.skipBlanks = c.skipBlanks)) (List.append_nil _).symm

/-- What is read behind tokens is read behind them all. -/
lemma after {ts : List Lexeme} (hlexes : Lexes s.cursor ts s'.cursor)
    (hnames : mentioned s'.done = mentioned s.done ++ variablesOf ts) (h : Records s' r) :
    Records s r := by
  have hall : ∀ us : List Lexeme, mentioned s'.done ++ variablesOf us =
      mentioned s.done ++ variablesOf (ts ++ us) := by
    intro us
    rw [hnames, variablesOf_append, List.append_assoc]
  cases h with
  | ok hlexes' hnames' => exact .ok (hlexes.append hlexes') (hnames'.trans (hall _))
  | error hlexes' hnames' => exact .error (hlexes.append hlexes') (hnames'.trans (hall _))

/-- What is recorded behind blanks is recorded before them. -/
lemma skipBlanks (h : Records ⟨c.skipBlanks, done⟩ r) : Records ⟨c, done⟩ r := by
  have hlexes : Lexes c [] c.skipBlanks := .stop (Cursor.skipBlanks_skipBlanks c).symm
  exact after hlexes (List.append_nil _).symm h

/-- A token that is no variable is passed. -/
lemma past (htoken : c.token? = some t) (ht : t.var? = none) (h : Records ⟨c.past t, done⟩ r) :
    Records ⟨c, done⟩ r := by
  have hlexes : Lexes c [⟨t, c.skipBlanks.offset⟩] (c.past t) := .single htoken
  refine after hlexes ?_ h
  rw [variablesOf_singleton, ht]
  exact (List.append_nil _).symm

/-- A failure ends a sequence. -/
lemma failed {e : Error} (h : Records s (.error e s' : EStateM.Result Error (Progress Expr) α)) :
    Records s (.error e s' : EStateM.Result Error (Progress Expr) β) := by
  cases h with
  | error hlexes hnames => exact .error hlexes hnames

/-- What follows a success is read behind it. -/
lemma trans {a : α} {r' : EStateM.Result Error (Progress Expr) β}
    (h : Records s (.ok a s' : EStateM.Result Error (Progress Expr) α)) (h' : Records s' r') :
    Records s r' := by
  cases h with
  | ok hlexes hnames => exact h'.after hlexes hnames

end Records

namespace KeepsAccount

/-- Readers that keep account can be done one after the other. -/
lemma bind (hx : KeepsAccount x) (hf : ∀ a, KeepsAccount (f a)) : KeepsAccount (x >>= f) := by
  intro s
  have hfirst := hx s
  rw [bind_apply]
  cases hresult : x s with
  | ok a s' =>
    rw [hresult] at hfirst
    exact hfirst.trans (hf a s')
  | error e s' =>
    rw [hresult] at hfirst
    exact hfirst.failed

/-- To fail is to record nothing new. -/
lemma throw (e : Error) : KeepsAccount (throw e : Reader Expr α) :=
  fun s => .failure e s.cursor s.cursor s.done

end KeepsAccount

/-! ## Readers of any language -/

/-- Results are replaced by one that mentions the same variables. -/
lemma keepsAccount_reduceSince {build : List Expr → Option Expr}
    (h : ∀ args e, build args = some e → e.names = args.flatMap names) (start : ℕ)
    (otherwise : List Expr → Error) : KeepsAccount (Reader.reduceSince start build otherwise) := by
  intro s
  unfold Reader.reduceSince
  split
  · rename_i e hbuild
    refine .ok (.stop rfl) ?_
    have hsplit := List.take_append_drop (s.done.length - start) s.done
    rw [Progress.replaceSince, mentioned_cons, h _ _ hbuild, Progress.since, ← mentioned_append,
      hsplit]
    exact (List.append_nil _).symm
  · exact .failure _ s.cursor s.cursor s.done

/-- Applying a built-in keeps account. -/
lemma keepsAccount_apply (name : String) (m : Meaning) (start : ℕ) :
    KeepsAccount (apply name m start) :=
  keepsAccount_reduceSince names_of_build? start _

/-- Closing a parenthesis keeps account, as it is no variable. -/
lemma keepsAccount_closeGroup (opening : ℕ) :
    KeepsAccount (Reader.closeGroup opening : Reader Expr Unit) := by
  rintro ⟨c, done⟩
  rw [Reader.closeGroup_apply]
  split
  · rename_i htoken
    exact .past htoken rfl (.unread _ _)
  · exact .failure _ _ _ _

/-- Reading a mark keeps account, as it is no variable. -/
lemma keepsAccount_expect {ch : Char} (h : Cursor.IsMark ch) :
    KeepsAccount (Reader.expect ch : Reader Expr Unit) := by
  rintro ⟨c, done⟩
  rw [Reader.expect_apply h]
  split
  · rename_i htoken
    exact .past htoken rfl (.unread _ _)
  · exact .failure _ _ _ _

/-! ## The readers of the grammar -/

/-- The pairs of a level keep account if the next tighter level does. -/
lemma keepsAccount_pairs {operators : List (Spelling × BinaryOp)} (htighter : KeepsAccount tighter)
    (h : ∀ candidate ∈ operators, candidate.1 ∈ binaryOperators.vocabulary) (start turns : ℕ) :
    KeepsAccount ((grammar operand).pairs operators tighter start turns) := by
  induction turns with
  | zero => exact fun s => .unread () s
  | succ turns ih =>
    rintro ⟨c, done⟩
    rw [pairs_succ operand h]
    split
    · rename_i s htoken
      split
      · exact .skipBlanks (.unread _ _)
      · exact .past htoken rfl
          ((htighter.bind fun _ => (keepsAccount_apply _ _ start).bind fun _ => ih) _)
    · exact .skipBlanks (.unread _ _)

/-- All levels keep account if the operands do. -/
lemma keepsAccount_climb {levels : Levels} (hoperand : KeepsAccount operand)
    (h : ∀ operators ∈ levels, ∀ candidate ∈ operators, candidate.1 ∈ binaryOperators.vocabulary)
    (turns : ℕ) : KeepsAccount ((grammar operand).climb turns levels) := by
  induction levels with
  | nil => exact hoperand
  | cons operators levels ih =>
    have htighter := ih fun o ho => h o (List.mem_cons_of_mem _ ho)
    have hmark : KeepsAccount (Reader.mark : Reader Expr ℕ) := fun s => .unread _ s
    exact hmark.bind fun start => htighter.bind fun _ =>
      keepsAccount_pairs htighter (h operators List.mem_cons_self) start turns

/-- Expressions keep account if their operands and branches do. -/
lemma keepsAccount_expressionWith (hoperand : KeepsAccount operand)
    (hbranch : KeepsAccount branch) :
    KeepsAccount (expressionWith operand branch) := by
  intro s
  have htest := keepsAccount_climb hoperand mem_vocabulary_of_mem_levels s.cursor.rest.length s
  rw [expressionWith_apply]
  cases hresult : (grammar operand).climb s.cursor.rest.length binaryOperators.levels s with
  | ok _ s₁ =>
    rw [hresult] at htest
    refine htest.trans ?_
    dsimp only
    split
    · rename_i htoken
      exact .past htoken rfl ((hbranch.bind fun _ => (keepsAccount_expect isMark_colon).bind
        fun _ =>
        hbranch.bind fun _ => keepsAccount_reduceSince names_of_choice? _ _) _)
    · exact .skipBlanks (.unread _ _)
  | error e s₁ =>
    rw [hresult] at htest
    exact htest.failed

/-- The arguments of a call keep account if a group does. -/
lemma keepsAccount_arguments (hgroup : KeepsAccount group) (opening turns : ℕ) :
    KeepsAccount (arguments group opening turns) := by
  induction turns with
  | zero => exact fun s => .unread () s
  | succ turns ih =>
    intro s
    have hfirst := hgroup s
    rw [arguments_succ]
    cases hresult : group s with
    | ok _ s₁ =>
      rw [hresult] at hfirst
      refine hfirst.trans ?_
      dsimp only
      split
      · rename_i htoken
        exact .past htoken rfl (ih _)
      · exact .skipBlanks (keepsAccount_closeGroup opening _)
    | error e s₁ =>
      rw [hresult] at hfirst
      exact hfirst.failed

/-- A call keeps account if its arguments do. -/
lemma keepsAccount_call (hgroup : KeepsAccount group) (function : Builtin) (position : ℕ) :
    KeepsAccount (call group function position) := by
  rintro ⟨c, done⟩
  rw [call_apply]
  split
  · rename_i hopen
    refine .past hopen rfl ?_
    split
    · rename_i hclose
      exact .past hclose rfl (keepsAccount_apply _ _ _ _)
    · exact .skipBlanks (((keepsAccount_arguments hgroup _ _).bind fun _ =>
        keepsAccount_apply _ _ _) _)
  · exact .failure _ _ _ _

/-- A name is a variable, or what is made of it mentions none of that name. -/
lemma records_named (hgroup : KeepsAccount group) {name : String}
    (htoken : c.token? = some (.name name)) :
    Records ⟨c, done⟩ (named group name c.skipBlanks.offset ⟨c.past (.name name), done⟩) := by
  unfold named
  cases hlookup : Builtin.lookup name with
  | none =>
    have hvariable : Token.var? (.name name) = some name := by rw [Token.var?, if_pos hlookup]
    refine .ok (.single htoken) ?_
    rw [variablesOf_singleton, hvariable]
    exact mentioned_cons _ _
  | some function =>
    have hvariable : Token.var? (.name name) = none := by
      rw [Token.var?, if_neg]
      rw [hlookup]
      exact Option.some_ne_none function
    refine .past htoken hvariable ?_
    obtain ⟨functionName, meaning⟩ := function
    cases meaning with
    | constant constant => exact .ok (.stop rfl) (mentioned_cons _ _)
    | unary | binary => exact keepsAccount_call hgroup _ _ _

/-- Primaries keep account if a group does. -/
lemma keepsAccount_primary (hgroup : KeepsAccount group) : KeepsAccount (primary group) := by
  rintro ⟨c, done⟩
  rw [primary_apply]
  split
  · rename_i n htoken
    split
    · exact .past htoken rfl (.ok (.stop rfl) (mentioned_cons _ _))
    · exact .failure _ _ _ _
  · rename_i name htoken
    exact records_named hgroup htoken
  · rename_i htoken
    exact .past htoken rfl ((hgroup.bind fun _ => keepsAccount_closeGroup _) _)
  · exact .failure _ _ _ _

/-- No operand begins with an equals sign. -/
lemma refusesEquals_operandWith (inner group : Reader Expr Unit) :
    RefusesEquals (operandWith inner group) := by
  intro c done hhead
  have htoken : c.token? = none ∨ c.token? = some (.symbol ['=', '=']) := by
    cases hnext : c.token? with
    | none => exact .inl rfl
    | some t => exact .inr (congrArg some (eq_equals_of_head? hhead hnext))
  rw [operandWith_apply]
  rcases htoken with htoken | htoken
  · rw [htoken]
    dsimp only [Option.bind_none]
    rw [primary_apply, Cursor.token?_skipBlanks, htoken]
    exact ⟨_, _, rfl⟩
  · have hsign : (Token.symbol ['=', '=']).sign? = none := by decide
    rw [htoken, Option.bind_some, hsign]
    dsimp only
    rw [primary_apply, Cursor.token?_skipBlanks, htoken]
    exact ⟨_, _, rfl⟩

/-- Operands keep account if those behind a sign and the groups do. -/
lemma keepsAccount_operandWith (hinner : KeepsAccount inner) (hrefuses : RefusesEquals inner)
    (hgroup : KeepsAccount group) : KeepsAccount (operandWith inner group) := by
  rintro ⟨c, done⟩
  rw [operandWith_apply]
  cases hsign : c.token?.bind Token.sign? with
  | none => exact .skipBlanks (keepsAccount_primary hgroup _)
  | some sign =>
    obtain ⟨t, htoken, hsign⟩ := Option.bind_eq_some_iff.1 hsign
    cases t with
    | numeral | name => cases hsign
    | symbol s =>
      rcases sign_cases htoken hsign with ⟨ch, rfl, -⟩ | hequals
      · -- The sign is a token by itself.
        refine .past htoken rfl ((hinner.bind fun _ => ?_) _)
        cases sign with
        | none => exact fun s => .unread () s
        | some f => exact keepsAccount_apply _ _ _
      · obtain ⟨e, c', hfails⟩ := hrefuses _ done hequals
        dsimp only
        rw [bind_apply, hfails]
        exact .failure e c c' done

/-- The reader of expressions keeps account of the variables. -/
lemma keepsAccount_reader (limit n : ℕ) : KeepsAccount (reader limit n .expression) ∧
    KeepsAccount (reader limit n .operand) ∧ RefusesEquals (reader limit n .operand) := by
  induction n with
  | zero =>
    have hthrow : RefusesEquals (throw (.nestingTooDeep limit)) := fun c done _ => ⟨_, c, rfl⟩
    exact ⟨.throw _, keepsAccount_operandWith (.throw _) hthrow (.throw _),
      refusesEquals_operandWith _ _⟩
  | succ n ih =>
    obtain ⟨hexpression, hoperand, hrefuses⟩ := ih
    have hwhole : KeepsAccount (reader limit (n + 1) .expression) :=
      keepsAccount_expressionWith hoperand hexpression
    exact ⟨hwhole, keepsAccount_operandWith hoperand hrefuses hwhole, refusesEquals_operandWith _ _⟩

/-! ## Whole sources -/

variable {source : String} {limit : ℕ}

/-- However far a source is read, what is left behind mentions the variables among its first tokens;
on success these are the tokens up to where the reader stands. -/
theorem exists_lexes_read (limit : ℕ) (source : String) :
    let outcome := read limit ⟨Cursor.ofString source, []⟩
    ∃ ts stop, Lexes (Cursor.ofString source) ts stop ∧
      mentioned (final outcome).done = variablesOf ts ∧
      (isSuccess outcome = true → stop = (final outcome).cursor) := by
  intro outcome
  have hrecords : Records ⟨Cursor.ofString source, []⟩ outcome :=
    (keepsAccount_reader limit limit).1 _
  cases houtcome : outcome with
  | ok a s =>
    rw [houtcome] at hrecords
    cases hrecords with
    | ok hlexes hnames => exact ⟨_, _, hlexes, hnames, fun _ => rfl⟩
  | error e s =>
    rw [houtcome] at hrecords
    cases hrecords with
    | error hlexes hnames => exact ⟨_, _, hlexes, hnames, fun h => absurd h Bool.false_ne_true⟩

/-- The expression of a sentence mentions the variables of the source, from left to right. -/
lemma exists_lexes_of_sentence {t : Tree} (h : Sentence source t) :
    ∃ ts stop, Lexes (Cursor.ofString source) ts stop ∧ stop.atEnd ∧
      t.expr.names = variablesOf ts := by
  obtain ⟨c, hread, hend⟩ := exists_read_of_sentence h (Nat.le_refl t.nesting)
  obtain ⟨ts, stop, hlexes, hnames, hstop⟩ := exists_lexes_read t.nesting source
  rw [hread] at hnames hstop
  obtain rfl : stop = c := hstop rfl
  exact ⟨ts, stop, hlexes, hend, by simpa [final] using hnames⟩

end Expr

end Reckon
