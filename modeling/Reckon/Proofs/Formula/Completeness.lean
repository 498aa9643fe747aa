import Reckon.Proofs.Formula.Reading

/-!
# Every formula is read

A reader of filters passes every phrase of the grammar that stands at its cursor, if the tests in it
can be asked of the row and it is not nested too deep, and leaves the formula that the phrase stands
for (`Formula.Finds`).  What follows the phrase must not carry it on: no other quote behind its last
literal, and no connective of its own kind or a tighter one (`Formula.Phrase.Stops`).

The left side of a connective is itself a joined phrase.  So the induction on a joined phrase does
not say that the phrase is read, but that the loop of its level comes to the end of it and goes on
from there (`Formula.exists_pairs_of_derives`).
-/

namespace Reckon

open Outcome

namespace Cursor

/-- Whether a text stands at a cursor, where blanks at its beginning do not matter. -/
def Faces (c : Cursor) (text : List Char) : Prop := c.skipBlanks.rest = text.dropWhile isBlank

variable {c : Cursor} {text blanks more : List Char} {ch : Char}

lemma Faces.of_rest_eq (h : c.rest = text) : c.Faces text := by
  rw [Faces, skipBlanks_rest, h]

lemma Faces.skipBlanks (h : c.Faces text) : c.skipBlanks.Faces text := by
  rw [Faces, skipBlanks_skipBlanks]
  exact h

/-- What stands behind the blanks is left when these are passed. -/
lemma Faces.skipBlanks_rest (h : c.Faces (blanks ++ ch :: more)) (hblanks : IsBlanks blanks)
    (hch : isBlank ch = false) : c.skipBlanks.rest = ch :: more := by
  rw [h, List.dropWhile_append_of_pos hblanks.isBlank, List.dropWhile_cons_of_neg (by simp [hch])]

/-- A character that stands behind blanks comes next. -/
lemma Faces.peek (h : c.Faces (blanks ++ ch :: more)) (hblanks : IsBlanks blanks)
    (hch : isBlank ch = false) : c.peek = some ch ∧ (c.skipBlanks.skip 1).rest = more := by
  have hrest := h.skipBlanks_rest hblanks hch
  refine ⟨?_, (eat_of_skipBlanks_rest hrest).2⟩
  rw [Cursor.peek, hrest, List.head?_cons]

/-- Less is left behind a text than before it. -/
lemma Faces.length_le {c' : Cursor} {tail : List Char} (h : c.Faces (text ++ tail))
    (h' : c'.Faces tail) : c'.skipBlanks.rest.length ≤ c.skipBlanks.rest.length := by
  rw [h, h', List.dropWhile_append]
  split
  · exact Nat.le_refl _
  · have hle := (List.dropWhile_suffix isBlank (l := tail)).length_le
    rw [List.length_append]
    omega

end Cursor

namespace Formula

open Cursor

/-- The characters that would carry on a phrase of a kind. -/
def Phrase.continuations : Phrase → List Char
  | operand => []
  | joined .and => ['&']
  | joined .or => ['|', '&']

/-- Whether a phrase of a kind ends before this text. -/
structure Phrase.Stops (p : Phrase) (tail : List Char) : Prop where
  head?_ne_quote : tail.head? ≠ some '"'
  head?_ne : ∀ ch ∈ p.continuations, (tail.dropWhile isBlank).head? ≠ some ch

/-- A phrase ends before a character that carries nothing on. -/
lemma Phrase.stops_of_notMem {p : Phrase} {blanks more : List Char} {ch : Char}
    (hblanks : IsBlanks blanks) (hch : isBlank ch = false) (hquote : ch ≠ '"')
    (h : ch ∉ p.continuations) : p.Stops (blanks ++ ch :: more) := by
  refine ⟨?_, fun d hd => ?_⟩
  · rcases blanks with _ | ⟨b, blanks⟩
    · exact fun heq => hquote (Option.some.inj heq)
    · intro heq
      obtain rfl := Option.some.inj heq
      have hblank := hblanks _ List.mem_cons_self
      exact absurd hblank (by decide)
  · rw [List.dropWhile_append_of_pos hblanks.isBlank, List.dropWhile_cons_of_neg (by simp [hch])]
    intro heq
    exact h (Option.some.inj heq ▸ hd)

/-- Whether a reader passes every phrase of a kind that opens less than so much at once and in which
all tests satisfy a condition, and leaves its formula. -/
def Finds (admitted : FieldTest → Prop) (limit turns : ℕ) (p : Phrase) (x : Reader Formula Unit) :
    Prop :=
  ∀ c done text f nesting tail, Derives p text f nesting → nesting < limit →
    (∀ t ∈ f.tests, admitted t) → c.Faces (text ++ tail) → p.Stops tail →
    c.skipBlanks.rest.length ≤ turns → ∃ c', x ⟨c, done⟩ = .ok () ⟨c', f :: done⟩ ∧ c'.Faces tail

/-- Whether a reader passes every test that satisfies a condition. -/
def FindsTests (admitted : FieldTest → Prop) (x : Reader Formula Unit) : Prop :=
  ∀ c done text t tail, t.IsWritten text → admitted t → c.Faces (text ++ tail) →
    tail.head? ≠ some '"' → ∃ c', x ⟨c, done⟩ = .ok () ⟨c', .test t :: done⟩ ∧ c'.Faces tail

variable {admitted : FieldTest → Prop} {limit turns literalCapacity fieldCount : ℕ}
  {operand inner group test tighter : Reader Formula Unit} {connective : Connective}
  {word : Spelling} {comparison : Comparison}

/-- The comparisons begin with characters of their own. -/
lemma exists_head_of_mem_comparisons (h : (word, comparison) ∈ comparisons) :
    ∃ ch more, word = ch :: more ∧ isBlank ch = false ∧ ch.isDigit = false := by
  have hheads : ∀ candidate ∈ comparisons,
      (candidate.1.head?.any fun ch => !isBlank ch && !ch.isDigit) = true := by decide
  have hhead := hheads _ h
  rcases word with _ | ⟨ch, more⟩
  · exact absurd hhead Bool.false_ne_true
  · have hboth : (!isBlank ch && !ch.isDigit) = true := hhead
    rw [Bool.and_eq_true, Bool.not_eq_true', Bool.not_eq_true'] at hboth
    exact ⟨ch, more, rfl, hboth⟩

lemma not_isDigit_of_isBlank {ch : Char} (h : isBlank ch = true) : ch.isDigit = false := by
  unfold isBlank at h
  simp only [Bool.or_eq_true, decide_eq_true_eq] at h
  rcases h with (((rfl | rfl) | rfl) | rfl) | rfl
  all_goals rfl

/-- The digits of a field end before the blanks or the comparison behind them. -/
lemma takeWhile_isDigit_eq_nil {before more : List Char} (hbefore : IsBlanks before)
    (h : (word, comparison) ∈ comparisons) :
    (before ++ (word ++ more)).takeWhile Char.isDigit = [] := by
  rcases before with _ | ⟨ch, before⟩
  · obtain ⟨ch, rest, rfl, -, hch⟩ := exists_head_of_mem_comparisons h
    exact List.takeWhile_cons_of_neg (by simp [hch])
  · have hch := not_isDigit_of_isBlank (hbefore.isBlank ch List.mem_cons_self)
    exact List.takeWhile_cons_of_neg (by simp [hch])

/-- A comparison that stands at a cursor is read. -/
lemma operator_of_mem_comparisons {c : Cursor} {before more : List Char}
    (h : (word, comparison) ∈ comparisons) (hbefore : IsBlanks before)
    (hrest : c.rest = before ++ (word ++ more)) :
    ∃ c', c.skipBlanks.operator (comparisons.map Prod.fst) comparisons = (some comparison, c') ∧
      c'.rest = more := by
  have hextends : ∀ candidate ∈ comparisons, ∀ u ∈ comparisons.map Prod.fst,
      candidate.1 <+: u → u.length ≤ candidate.1.length := by decide
  have hfind : ∀ candidate ∈ comparisons,
      comparisons.find? (fun other => other.1 = candidate.1) = some candidate := by decide
  obtain ⟨ch, rest, rfl, hch, -⟩ := exists_head_of_mem_comparisons h
  have hskip : c.skipBlanks.skipBlanks.rest = (ch :: rest) ++ more := by
    have hfaces : c.Faces (before ++ ch :: (rest ++ more)) := .of_rest_eq hrest
    rw [skipBlanks_skipBlanks]
    exact hfaces.skipBlanks_rest hbefore hch
  have hlongest : longestSpelling (comparisons.map Prod.fst) ((ch :: rest) ++ more) =
      some (ch :: rest) :=
    longestSpelling_append (List.mem_map_of_mem h)
      fun u hu hbegins => .inl (hextends _ h u hu hbegins)
  exact ⟨_, operator_of_longestSpelling hskip hlongest (hfind _ h)⟩

/-- The test of a field that exists is read as far as its literal. -/
lemma exists_fieldTest_eq (literalCapacity : ℕ) (hcount : fieldCount < largestField) {c : Cursor}
    {text tail : List Char} {t : FieldTest} (hwritten : t.IsWritten text) (hpos : 1 ≤ t.field)
    (hle : t.field ≤ fieldCount) (hfaces : c.Faces (text ++ tail)) (done : List Formula) :
    ∃ c₂ : Cursor, c₂.skipBlanks.rest = Literal.quote t.literal.toList ++ tail ∧
      fieldTest literalCapacity fieldCount ⟨c, done⟩ =
        match c₂.literal literalCapacity with
        | (.error e, c₃) => .error e ⟨c₃, done⟩
        | (.ok literal, c₃) => .ok () ⟨c₃, .test ⟨t.field, t.comparison, literal⟩ :: done⟩ := by
  obtain ⟨digits, before, behind, hne, hdigits, hbefore, hbehind, hfield, rfl⟩ := hwritten
  have hword : (t.comparison.word, t.comparison) ∈ comparisons :=
    Comparison.mem_comparisons_iff.2 rfl
  have hdollar : c.Faces ([] ++ '$' :: (digits ++ (before ++ (t.comparison.word ++ (behind ++
      (Literal.quote t.literal.toList ++ tail)))))) := by
    simpa only [List.cons_append, List.append_assoc, List.nil_append] using hfaces
  obtain ⟨hpeek, hrest⟩ := hdollar.peek nofun (by decide)
  obtain ⟨hnumber, hrest₁⟩ := fieldNumber_of_digits c.skipBlanks.offset hrest hne hdigits
    (takeWhile_isDigit_eq_nil hbefore hword)
  obtain ⟨c₂, hoperator, hrest₂⟩ := operator_of_mem_comparisons hword hbefore hrest₁
  have hfaces₂ : c₂.Faces (behind ++ '"' :: (Literal.doubleQuotes t.literal.toList ++ ['"'] ++
      tail)) := .of_rest_eq hrest₂
  have hvalue : min (digitsValue 10 digits) largestField = t.field := by
    rw [digitsValue_eq_numberOf 10 fun d hd => isHexSign_of_isDigit (hdigits d hd), ← hfield]
    omega
  rw [hvalue] at hnumber
  have hfield' : ¬(t.field = 0 ∨ fieldCount < t.field) := by omega
  refine ⟨c₂, hfaces₂.skipBlanks_rest hbehind (by decide), ?_⟩
  rw [fieldTest_apply, if_pos hpeek, hnumber]
  dsimp only
  rw [if_neg hfield']
  exact hoperator ▸ rfl

/-- A test that can be asked of the row is read. -/
lemma findsTests_fieldTest (hcount : fieldCount < largestField) :
    FindsTests (FieldTest.IsAdmitted literalCapacity fieldCount)
      (fieldTest literalCapacity fieldCount) := by
  intro c done text t tail hwritten hadmitted hfaces htail
  obtain ⟨c₂, hquote, heq⟩ := exists_fieldTest_eq literalCapacity hcount hwritten
    hadmitted.field_pos hadmitted.field_le hfaces done
  obtain ⟨hliteral, hrest₃⟩ := literal_of_quote hquote hadmitted.literal_le htail
  refine ⟨_, ?_, .of_rest_eq hrest₃⟩
  rw [heq, hliteral, String.ofList_toList]

/-- An operand is read, and the operands inside it one phrase deeper. -/
lemma finds_operandWith (htest : FindsTests admitted test)
    (hinner : ∀ turns, Finds admitted limit turns .operand inner)
    (hgroup : ∀ turns, Finds admitted limit turns (.joined .or) group) (turns : ℕ) :
    Finds admitted (limit + 1) turns .operand (operandWith test inner group) := by
  intro c done text f nesting tail hderives hnesting hadmitted hfaces hstops _
  rw [operandWith_apply]
  cases hderives with
  | not hblanks hoperand =>
    rw [List.append_assoc, List.cons_append] at hfaces
    obtain ⟨hpeek, hrest⟩ := hfaces.peek hblanks (by decide)
    obtain ⟨c', hread, hfaces'⟩ := hinner _ _ done _ _ _ tail hoperand
      (Nat.lt_of_succ_lt_succ hnesting) hadmitted (.of_rest_eq hrest) hstops (Nat.le_refl _)
    refine ⟨c', ?_, hfaces'⟩
    rw [if_pos hpeek, bind_apply, hread]
    exact join_apply negation? c' [_] done rfl
  | @group blanks text blanks' _ _ hblanks hphrase hblanks' =>
    have hopen : c.Faces (blanks ++ '(' :: (text ++ (blanks' ++ ')' :: tail))) := by
      simpa only [List.append_assoc, List.cons_append, List.nil_append] using hfaces
    obtain ⟨hpeek, hrest⟩ := hopen.peek hblanks (by decide)
    have hnot : ¬c.peek = some '!' := by
      rw [hpeek]
      decide
    obtain ⟨c', hread, hfaces'⟩ := hgroup _ _ done _ _ _ _ hphrase
      (Nat.lt_of_succ_lt_succ hnesting) hadmitted (.of_rest_eq hrest)
      (Phrase.stops_of_notMem hblanks' (by decide) (by decide) (by decide)) (Nat.le_refl _)
    obtain ⟨hclose, hrest'⟩ := hfaces'.peek hblanks' (by decide)
    refine ⟨_, ?_, .of_rest_eq hrest'⟩
    rw [if_neg hnot, if_pos hpeek, bind_apply, hread]
    exact Reader.closeGroup_eq_ok_iff.2 ⟨hclose, rfl⟩
  | @test blanks text t hblanks hwritten =>
    have hdollar : ∃ more, text = '$' :: more := by
      obtain ⟨digits, before, behind, -, -, -, -, -, htext⟩ := hwritten
      exact ⟨_, htext⟩
    obtain ⟨more, rfl⟩ := hdollar
    have hrest : c.skipBlanks.rest = '$' :: more ++ tail := by
      rw [List.append_assoc, List.cons_append] at hfaces
      exact hfaces.skipBlanks_rest hblanks (by decide)
    have hpeek : c.peek = some '$' := by
      rw [Cursor.peek, hrest]
      rfl
    have hnot : ¬c.peek = some '!' := by
      rw [hpeek]
      decide
    have hopen : ¬c.peek = some '(' := by
      rw [hpeek]
      decide
    rw [if_neg hnot, if_neg hopen]
    exact htest _ done _ t tail hwritten (List.forall_mem_singleton.1 hadmitted)
      (.of_rest_eq hrest) hstops.head?_ne_quote

/-! ## Joined phrases -/

/-- Behind a connective comes no other character of its kind. -/
lemma Derives.head?_append_ne {p : Phrase} {text tail : List Char} {f : Formula} {nesting : ℕ}
    (h : Derives p text f nesting) :
    (text ++ tail).head? ≠ some '|' ∧ (text ++ tail).head? ≠ some '&' := by
  obtain ⟨blanks, ch, more, hblanks, hch, rfl⟩ := h.exists_opener
  rw [List.append_assoc, List.cons_append]
  rcases blanks with _ | ⟨b, blanks⟩
  · have hopeners : '|' ∉ openers ∧ '&' ∉ openers := by decide
    constructor
    · intro heq
      obtain rfl := Option.some.inj heq
      exact hopeners.1 hch
    · intro heq
      obtain rfl := Option.some.inj heq
      exact hopeners.2 hch
  · have hb := hblanks b List.mem_cons_self
    constructor
    · intro heq
      obtain rfl := Option.some.inj heq
      exact absurd hb (by decide)
    · intro heq
      obtain rfl := Option.some.inj heq
      exact absurd hb (by decide)

/-- A connective that stands at a cursor is read. -/
lemma operator_of_mem_words {c : Cursor} {blanks more : List Char} (h : word ∈ connective.words)
    (hblanks : IsBlanks blanks) (hmore : more.head? ≠ some '|' ∧ more.head? ≠ some '&')
    (hfaces : c.Faces (blanks ++ (word ++ more))) :
    ∃ c', c.operator connectives.vocabulary (level connective) = (some connective, c') ∧
      c'.rest = more ∧ c'.skipBlanks.rest.length < c.skipBlanks.rest.length := by
  have hwords : ∀ k : Connective, ∀ u ∈ k.words, u ∈ connectives.vocabulary ∧ u ≠ [] ∧
      (u.head?.any fun ch => !isBlank ch) = true ∧
      (level k).find? (fun candidate => candidate.1 = u) = some (u, k) := by
    intro k
    cases k with
    | or => decide
    | and => decide
  have hextends : ∀ v ∈ connectives.vocabulary, ∀ u ∈ connectives.vocabulary, v <+: u →
      u.length ≤ v.length ∨ (u.drop v.length).head? = some '|' ∨
        (u.drop v.length).head? = some '&' := by decide
  obtain ⟨hmem, hne, hhead, hfind⟩ := hwords connective word h
  have hrest : c.skipBlanks.rest = word ++ more := by
    rcases word with _ | ⟨ch, word⟩
    · exact absurd rfl hne
    · exact hfaces.skipBlanks_rest hblanks ((Bool.not_eq_true' _).mp hhead)
  have hlongest : longestSpelling connectives.vocabulary (word ++ more) = some word := by
    refine longestSpelling_append hmem fun u hu hbegins => ?_
    rcases hextends word hmem u hu hbegins with hle | hbar | hand
    · exact .inl hle
    · exact .inr fun heq => hmore.1 (heq ▸ hbar)
    · exact .inr fun heq => hmore.2 (heq ▸ hand)
  obtain ⟨hoperator, hbehind⟩ := operator_of_longestSpelling hrest hlongest hfind
  refine ⟨_, hoperator, hbehind, ?_⟩
  have hlength := (c.skipBlanks.skip word.length).length_skipBlanks_le
  have hpos := List.length_pos_iff.2 hne
  rw [hbehind] at hlength
  rw [hrest, List.length_append]
  omega

/-- The left side of a connective ends before it. -/
lemma stops_of_mem_words {blanks more : List Char} (h : word ∈ connective.words)
    (hblanks : IsBlanks blanks) : connective.tighter.Stops (blanks ++ (word ++ more)) := by
  have hwords : ∀ k : Connective, ∀ u ∈ k.words, (u.head?.any fun ch =>
      !isBlank ch && (decide (ch ≠ '"') && decide (ch ∉ k.tighter.continuations))) = true := by
    intro k
    cases k with
    | or => decide
    | and => decide
  have hhead := hwords connective word h
  rcases word with _ | ⟨ch, word⟩
  · exact absurd hhead Bool.false_ne_true
  · have hboth : (!isBlank ch && (decide (ch ≠ '"') &&
        decide (ch ∉ connective.tighter.continuations))) = true := hhead
    rw [Bool.and_eq_true, Bool.and_eq_true, Bool.not_eq_true', decide_eq_true_eq,
      decide_eq_true_eq] at hboth
    obtain ⟨hch, hquote, hcontinues⟩ := hboth
    exact Phrase.stops_of_notMem hblanks hch hquote hcontinues

/-- Where a phrase ends, no connective of its level is read. -/
lemma pairs_of_stops {c : Cursor} {tail : List Char} (start turns : ℕ) (done : List Formula)
    (hfaces : c.Faces tail) (hstops : (Phrase.joined connective).Stops tail) :
    ∃ c', (grammar operand).pairs (level connective) tighter start turns ⟨c, done⟩ =
      .ok () ⟨c', done⟩ ∧ c'.Faces tail := by
  rcases turns with _ | turns
  · exact ⟨c, rfl, hfaces⟩
  · rw [pairs_succ]
    rcases hoperator : c.operator connectives.vocabulary (level connective) with ⟨_ | k, c'⟩
    · refine ⟨c', rfl, ?_⟩
      rw [eq_skipBlanks_of_operator hoperator]
      exact hfaces.skipBlanks
    · exfalso
      have hheads : ∀ k : Connective, ∀ candidate ∈ level k,
          ((Phrase.joined k).continuations.any fun ch => candidate.1.head? = some ch) = true := by
        intro k
        cases k with
        | or => decide
        | and => decide
      obtain ⟨word, hword, hrest⟩ := exists_word_of_operator hoperator
      obtain ⟨ch, hch, hhead⟩ := List.any_eq_true.1 (hheads connective _ hword)
      rw [decide_eq_true_eq] at hhead
      rw [hfaces] at hrest
      refine hstops.head?_ne ch hch ?_
      rw [hrest, List.head?_append, hhead]
      rfl

/-- The loop of a level comes to the end of a phrase of this level, and goes on from there. -/
lemma exists_pairs_of_derives {bound nesting : ℕ} {text : List Char} {f : Formula} {p : Phrase}
    (htighter : Finds admitted limit bound connective.tighter tighter)
    (hderives : Derives p text f nesting) (hp : p = .joined connective) (hnesting : nesting < limit)
    (hadmitted : ∀ t ∈ f.tests, admitted t) {c : Cursor} {done : List Formula} {tail : List Char}
    (hfaces : c.Faces (text ++ tail)) (hstops : connective.tighter.Stops tail)
    (hturns : c.skipBlanks.rest.length ≤ turns) (hbound : turns ≤ bound) :
    ∃ c' turns', c'.Faces tail ∧ c'.skipBlanks.rest.length ≤ turns' ∧ turns' ≤ bound ∧
      (do
        tighter
        (grammar operand).pairs (level connective) tighter done.length turns) ⟨c, done⟩ =
      (grammar operand).pairs (level connective) tighter done.length turns' ⟨c', f :: done⟩ := by
  induction hderives generalizing tail with
  | not | group | test => exact nomatch hp
  | @simple k text f nesting hsimple _ =>
    obtain rfl : k = connective := Phrase.joined.inj hp
    obtain ⟨c', hread, hfaces'⟩ := htighter c done text f nesting tail hsimple hnesting hadmitted
      hfaces hstops (Nat.le_trans hturns hbound)
    refine ⟨c', turns, hfaces', Nat.le_trans (hfaces.length_le hfaces') hturns, hbound, ?_⟩
    rw [bind_apply, hread]
  | @join k text text' blanks word left right m n hleft hblanks hword hright ih _ =>
    obtain rfl : k = connective := Phrase.joined.inj hp
    rw [k.tests_join] at hadmitted
    obtain ⟨hadmittedleft, hadmittedright⟩ := List.forall_mem_append.1 hadmitted
    obtain ⟨hm, hn⟩ := Nat.max_lt.1 hnesting
    rw [List.append_assoc, List.append_assoc, List.append_assoc] at hfaces
    obtain ⟨c₁, turns₁, hfaces₁, hlength₁, hbound₁, heq⟩ :=
      ih rfl hm hadmittedleft hfaces (stops_of_mem_words hword hblanks)
    obtain ⟨c₂, hoperator, hrest₂, hlength₂⟩ :=
      operator_of_mem_words hword hblanks hright.head?_append_ne hfaces₁
    obtain ⟨turns₂, rfl⟩ : ∃ turns₂, turns₁ = turns₂ + 1 := ⟨turns₁ - 1, by omega⟩
    have hfaces₂ : c₂.Faces (text' ++ tail) := .of_rest_eq hrest₂
    obtain ⟨c₃, hread, hfaces₃⟩ := htighter c₂ (left :: done) text' right n tail hright hn
      hadmittedright hfaces₂ hstops (by omega)
    have hlength₃ := hfaces₂.length_le hfaces₃
    have hjoin := join_apply k.build? c₃ [right, left] done (k.build?_pair left right)
    rw [List.cons_append, List.singleton_append] at hjoin
    refine ⟨c₃, turns₂, hfaces₃, by omega, by omega, ?_⟩
    rw [heq, pairs_succ]
    dsimp only
    rw [hoperator]
    dsimp only
    rw [bind_apply, hread]
    dsimp only
    rw [bind_apply, hjoin]

/-- A level is read up to the end of a joined phrase. -/
lemma finds_level (connective : Connective)
    (htighter : Finds admitted limit turns connective.tighter tighter) :
    Finds admitted limit turns (.joined connective)
      (do
        let start ← Reader.mark
        tighter
        (grammar operand).pairs (level connective) tighter start turns) := by
  intro c done text f nesting tail hderives hnesting hadmitted hfaces hstops hlength
  have htail : connective.tighter.Stops tail := by
    refine ⟨hstops.head?_ne_quote, fun ch hch => hstops.head?_ne ch ?_⟩
    cases connective with
    | or => exact List.mem_cons_of_mem _ hch
    | and => exact nomatch hch
  obtain ⟨c₁, turns₁, hfaces₁, -, -, heq⟩ := exists_pairs_of_derives htighter hderives rfl hnesting
    hadmitted hfaces htail hlength (Nat.le_refl _)
  obtain ⟨c', hpairs, hfaces'⟩ := pairs_of_stops done.length turns₁ (f :: done) hfaces₁ hstops
  refine ⟨c', ?_, hfaces'⟩
  rw [bind_apply]
  exact heq.trans hpairs

/-- A phrase is read up to its end. -/
lemma finds_phrase (h : ∀ turns, Finds admitted limit turns .operand operand) (turns : ℕ) :
    Finds admitted limit turns (.joined .or) (grammar operand).phrase := by
  intro c done text f nesting tail hderives hnesting hadmitted hfaces hstops _
  have hconjunctions : Finds admitted limit c.rest.length Connective.or.tighter
      ((grammar operand).climb c.rest.length [level .and]) := finds_level .and (h _)
  have halternatives : Finds admitted limit c.rest.length (.joined .or)
      ((grammar operand).climb c.rest.length [level .or, level .and]) :=
    finds_level .or hconjunctions
  exact halternatives c done text f nesting tail hderives hnesting hadmitted hfaces hstops
    c.length_skipBlanks_le

/-- Every operand is read that is not nested too deep. -/
lemma finds_operandReader (htest : FindsTests admitted test) (limit allowance turns : ℕ) :
    Finds admitted (allowance + 1) turns .operand (operandReader limit test allowance) := by
  induction allowance generalizing turns with
  | zero =>
    have hnothing : ∀ p turns, Finds admitted 0 turns p (throw (.nestingTooDeep limit)) :=
      fun p turns c done text f nesting tail _ hnesting => absurd hnesting (Nat.not_lt_zero _)
    exact finds_operandWith htest (hnothing _) (hnothing _) turns
  | succ allowance ih => exact finds_operandWith htest ih (finds_phrase ih) turns

/-- Every formula is read that is not nested too deep and the tests of which can be asked of the
row. -/
theorem finds_reader (limits : Limits) (hcount : fieldCount < largestField) (turns : ℕ) :
    Finds (FieldTest.IsAdmitted limits.literalCapacity fieldCount) (limits.nestingLimit + 1) turns
      (.joined .or) (reader limits fieldCount) :=
  finds_phrase (finds_operandReader (findsTests_fieldTest hcount) _ _) turns

end Formula

end Reckon
