import Mathlib.Data.List.Nodup
import Reckon.Proofs.Expr.Grammar

/-!
# The grammar is unambiguous

A phrase is read as far as it goes: what follows it does not begin with a symbol that would carry it
on (`Category.Stops`).  Two phrases of one category that begin at the same token and are read that
far are the same, and so are their derivations (`Derives.unique`).  In particular a source has at
most one derivation (`Sentence.unique`).
-/

namespace Reckon.Expr

namespace Category

/-- The symbols that carry a phrase on. -/
def continuations : Category → List Spelling
  | expression => ['?'] :: levels.flatten.map Prod.fst
  | level levels => levels.flatten.map Prod.fst
  | pairs operators tighter _ => (operators :: tighter).flatten.map Prod.fst
  | operand | primary => []

/-- A level is carried on by its operators and by what carries on its operands. -/
lemma continuations_level_cons (operators : List (Spelling × BinaryOp)) (tighter : Levels) :
    (level (operators :: tighter)).continuations =
      operators.map Prod.fst ++ (level tighter).continuations := by
  change (operators :: tighter).flatten.map Prod.fst = _
  rw [List.flatten_cons, List.map_append]
  rfl

/-- Pairs are carried on by what carries on their level. -/
lemma continuations_pairs (operators : List (Spelling × BinaryOp)) (tighter : Levels)
    (left : Tree) : (pairs operators tighter left).continuations =
      operators.map Prod.fst ++ (level tighter).continuations :=
  continuations_level_cons operators tighter

/-- Whether what follows does not carry a phrase on. -/
def Stops (cat : Category) (rest : List Lexeme) : Prop :=
  ∀ l ∈ rest.head?, ∀ s ∈ cat.continuations, l.token ≠ .symbol s

variable {cat : Category} {rest : List Lexeme} {s : Spelling} {o : Nat}
  {operators : List (Spelling × BinaryOp)} {tighter : Levels} {left : Tree}

/-- The operators of a level carry its pairs on. -/
lemma mem_continuations_of_mem {f : BinaryOp} (hmem : (s, f) ∈ operators) :
    s ∈ (pairs operators tighter left).continuations := by
  rw [continuations_pairs]
  exact List.mem_append_left _ (List.mem_map_of_mem hmem)

/-- The operators of the tighter levels are distinct if those of all levels are. -/
lemma nodup_tighter (hnodup : (level (operators :: tighter)).continuations.Nodup) :
    (level tighter).continuations.Nodup := by
  rw [continuations_level_cons] at hnodup
  exact hnodup.of_append_right

/-- Every phrase stops at the end. -/
@[simp] lemma stops_nil : cat.Stops [] := by simp [Stops]

/-- A phrase stops at a symbol that does not carry it on. -/
@[simp] lemma stops_symbol_cons_iff :
    cat.Stops (⟨.symbol s, o⟩ :: rest) ↔ s ∉ cat.continuations := by
  constructor
  · exact fun h hs => h _ rfl s hs rfl
  · rintro h l ⟨⟩ u hu ⟨⟩
    exact h hu

/-- Operands stop everywhere. -/
@[simp] lemma stops_operand : operand.Stops rest := by simp [Stops, continuations]

/-- Primaries stop everywhere. -/
@[simp] lemma stops_primary : primary.Stops rest := by simp [Stops, continuations]

/-- What ends a phrase of a category also ends those with fewer continuations. -/
lemma Stops.mono {cat' : Category} (h : cat.Stops rest)
    (hsub : ∀ s ∈ cat'.continuations, s ∈ cat.continuations) : cat'.Stops rest :=
  fun l hl s hs => h l hl s (hsub s hs)

/-- Where an expression stops, so do all its levels. -/
lemma Stops.level (h : expression.Stops rest) :
    (Category.level levels).Stops rest :=
  h.mono fun _ hs => List.mem_cons_of_mem _ hs

/-- Where the pairs of a level stop, so does the next tighter level. -/
lemma Stops.of_pairs (h : (pairs operators tighter left).Stops rest) :
    (Category.level tighter).Stops rest := by
  refine h.mono fun s hs => ?_
  rw [continuations_pairs]
  exact List.mem_append_right _ hs

end Category

namespace Derives

variable {cat : Category} {ts us rest : List Lexeme} {t u : Tree}
  {operators : List (Spelling × BinaryOp)} {tighter : Levels} {left : Tree}

/-- The operators of a level do not carry on a phrase of the tighter levels. -/
lemma stops_tighter (h : Derives (.pairs operators tighter left) us t)
    (hnodup : (Category.pairs operators tighter left).continuations.Nodup)
    (hstops : (Category.pairs operators tighter left).Stops rest) :
    (Category.level tighter).Stops (us ++ rest) := by
  cases h with
  | done => exact hstops.of_pairs
  | @pair _ _ _ _ _ _ _ s f o hmem =>
    rw [Category.continuations_pairs] at hnodup
    rw [List.cons_append, Category.stops_symbol_cons_iff]
    exact fun hs => List.disjoint_of_nodup_append hnodup (List.mem_map_of_mem hmem) hs

/-- An operator of a level determines its meaning. -/
lemma eq_of_mem_operators {s : Spelling} {f g : BinaryOp}
    (hnodup : (Category.pairs operators tighter left).continuations.Nodup)
    (hf : (s, f) ∈ operators) (hg : (s, g) ∈ operators) : f = g := by
  rw [Category.continuations_pairs] at hnodup
  have heq := List.inj_on_of_nodup_map hnodup.of_append_left hf hg rfl
  exact congrArg Prod.snd heq

/-- A sign determines what it stands for. -/
lemma eq_of_isSign {c : Char} {f g : Option UnaryOp} (hf : IsSign c f) (hg : IsSign c g) :
    f = g :=
  Option.some.inj ((sign?_of_isSign hf).symm.trans (sign?_of_isSign hg))

/-- Whether a phrase is the only one of its category at its place: any other that begins at the same
token, if both are read as far as they go, is the same and has the same derivation. -/
def IsOnly (cat : Category) (ts : List Lexeme) (t : Tree) : Prop :=
  ∀ ⦃us rest rest' : List Lexeme⦄ ⦃u : Tree⦄, Derives cat us u → ts ++ rest = us ++ rest' →
    cat.Stops rest → cat.Stops rest' → ts = us ∧ t = u

/-! ## Expressions -/

/-- The levels stop at a question mark. -/
lemma question_stops {o : ℕ} : (Category.level levels).Stops (⟨.symbol ['?'], o⟩ :: rest) :=
  Category.stops_symbol_cons_iff.2 (by decide)

/-- An expression stops at a colon. -/
lemma colon_stops {o : ℕ} : Category.expression.Stops (⟨.symbol [':'], o⟩ :: rest) :=
  Category.stops_symbol_cons_iff.2 (by decide)

/-- An expression stops at a comma. -/
lemma comma_stops {o : ℕ} : Category.expression.Stops (⟨.symbol [','], o⟩ :: rest) :=
  Category.stops_symbol_cons_iff.2 (by decide)

/-- An expression stops at a closing parenthesis. -/
lemma close_stops {o : ℕ} : Category.expression.Stops (⟨.symbol [')'], o⟩ :: rest) :=
  Category.stops_symbol_cons_iff.2 (by decide)

/-- A question mark carries an expression on. -/
lemma not_stops_question {o : ℕ} :
    ¬Category.expression.Stops (⟨.symbol ['?'], o⟩ :: rest) :=
  fun h => Category.stops_symbol_cons_iff.1 h (by decide)

/-- An expression without a question mark is the only one at its place if its levels are. -/
lemma isOnly_simple (h : IsOnly (.level levels) ts t) : IsOnly .expression ts t := by
  intro us rest rest' u h' heq hstops hstops'
  cases h' with
  | simple h' => exact h h' heq hstops.level hstops'.level
  | choice htest _ _ =>
    rw [List.append_assoc, List.cons_append] at heq
    obtain ⟨rfl, -⟩ := h htest heq hstops.level question_stops
    rw [List.append_cancel_left heq] at hstops
    exact absurd hstops not_stops_question

/-- A choice is the only expression at its place if its three parts are. -/
lemma isOnly_choice {vs : List Lexeme} {test yes no : Tree} {o p : ℕ}
    (htest : IsOnly (.level levels) ts test) (hyes : IsOnly .expression us yes)
    (hno : IsOnly .expression vs no) :
    IsOnly .expression (ts ++ ⟨.symbol ['?'], o⟩ :: (us ++ ⟨.symbol [':'], p⟩ :: vs))
      (.choice test yes no) := by
  intro us' rest rest' u h' heq hstops hstops'
  rw [List.append_assoc, List.cons_append, List.append_assoc, List.cons_append] at heq
  cases h' with
  | simple h' =>
    obtain ⟨rfl, -⟩ := htest h' heq question_stops hstops'.level
    rw [← List.append_cancel_left heq] at hstops'
    exact absurd hstops' not_stops_question
  | choice htest' hyes' hno' =>
    rw [List.append_assoc, List.cons_append, List.append_assoc, List.cons_append] at heq
    obtain ⟨rfl, rfl⟩ := htest htest' heq question_stops question_stops
    obtain ⟨hq, heq⟩ := List.cons.inj (List.append_cancel_left heq)
    obtain ⟨rfl, rfl⟩ := hyes hyes' heq colon_stops colon_stops
    obtain ⟨hc, heq⟩ := List.cons.inj (List.append_cancel_left heq)
    obtain ⟨rfl, rfl⟩ := hno hno' heq hstops hstops'
    rw [hq, hc]
    exact ⟨rfl, rfl⟩

/-! ## Levels -/

/-- Behind the last level stands an operand, and nothing else. -/
lemma isOnly_tightest (h : IsOnly .operand ts t) : IsOnly (.level []) ts t := by
  intro us rest rest' u h' heq _ _
  cases h' with
  | tightest h' => exact h h' heq Category.stops_operand Category.stops_operand

/-- A level is the only one at its place if its first operand and its pairs are. -/
lemma isOnly_level (hnodup : (Category.level (operators :: tighter)).continuations.Nodup)
    (hpairs : Derives (.pairs operators tighter left) us t)
      (honly : IsOnly (.level tighter) ts left)
    (honly' : IsOnly (.pairs operators tighter left) us t) :
    IsOnly (.level (operators :: tighter)) (ts ++ us) t := by
  intro us' rest rest' u h' heq hstops hstops'
  cases h' with
  | level hleft' hpairs' =>
    rw [List.append_assoc, List.append_assoc] at heq
    obtain ⟨rfl, rfl⟩ := honly hleft' heq (hpairs.stops_tighter hnodup hstops)
      (hpairs'.stops_tighter hnodup hstops')
    obtain ⟨rfl, rfl⟩ := honly' hpairs' (List.append_cancel_left heq) hstops hstops'
    exact ⟨rfl, rfl⟩

/-- Where no operator follows there are no pairs. -/
lemma isOnly_done : IsOnly (.pairs operators tighter left) [] left := by
  intro us rest rest' u h' heq hstops _
  cases h' with
  | done => exact ⟨rfl, rfl⟩
  | pair hmem _ _ =>
    rw [List.nil_append, List.cons_append] at heq
    rw [heq, Category.stops_symbol_cons_iff] at hstops
    exact absurd (Category.mem_continuations_of_mem hmem) hstops

/-- Pairs are the only ones at their place if the operand of the first one and what follows it
are. -/
lemma isOnly_pair {right : Tree} {s : Spelling} {f : BinaryOp} {o : ℕ}
    (hnodup : (Category.pairs operators tighter left).continuations.Nodup)
    (hmem : (s, f) ∈ operators)
    (hpairs : Derives (.pairs operators tighter (.binary f left right)) us t)
    (honly : IsOnly (.level tighter) ts right)
    (honly' : IsOnly (.pairs operators tighter (.binary f left right)) us t) :
    IsOnly (.pairs operators tighter left) (⟨.symbol s, o⟩ :: (ts ++ us)) t := by
  intro us' rest rest' u h' heq hstops hstops'
  cases h' with
  | done =>
    rw [List.nil_append, List.cons_append] at heq
    rw [← heq, Category.stops_symbol_cons_iff] at hstops'
    exact absurd (Category.mem_continuations_of_mem hmem) hstops'
  | pair hmem' hright' hpairs' =>
    rw [List.cons_append, List.cons_append, List.append_assoc, List.append_assoc] at heq
    obtain ⟨⟨⟩, htail⟩ := List.cons.inj heq
    obtain rfl := eq_of_mem_operators hnodup hmem hmem'
    obtain ⟨rfl, rfl⟩ := honly hright' htail (hpairs.stops_tighter hnodup hstops)
      (hpairs'.stops_tighter hnodup hstops')
    obtain ⟨rfl, rfl⟩ := honly' hpairs' (List.append_cancel_left htail) hstops hstops'
    exact ⟨rfl, rfl⟩

/-! ## Operands -/

/-- What begins with a sign is no primary. -/
lemma not_sign_of_primary {c : Char} {f : Option UnaryOp} {o : ℕ} {rest' : List Lexeme}
    (h : Derives .primary ts t) (hsign : IsSign c f) :
    ts ++ rest ≠ ⟨.symbol [c], o⟩ :: rest' := by
  obtain ⟨l, more, rfl, hnone, -⟩ := h.primary_head
  intro heq
  rw [List.cons_append] at heq
  rw [(List.cons.inj heq).1, sign?_of_isSign hsign] at hnone
  contradiction

/-- A primary is the only operand at its place if it is the only primary. -/
lemma isOnly_primary (h : Derives .primary ts t) (honly : IsOnly .primary ts t) :
    IsOnly .operand ts t := by
  intro us rest rest' u h' heq _ _
  cases h' with
  | primary h' => exact honly h' heq Category.stops_primary Category.stops_primary
  | sign hsign _ => exact absurd heq (h.not_sign_of_primary hsign)

/-- An operand with a sign is the only one at its place if the operand behind the sign is. -/
lemma isOnly_sign {c : Char} {f : Option UnaryOp} {o : ℕ} (hsign : IsSign c f)
    (honly : IsOnly .operand ts t) : IsOnly .operand (⟨.symbol [c], o⟩ :: ts) (.sign f t) := by
  intro us rest rest' u h' heq _ _
  cases h' with
  | primary h' => exact absurd heq.symm (h'.not_sign_of_primary hsign)
  | sign hsign' h' =>
    rw [List.cons_append, List.cons_append] at heq
    obtain ⟨⟨⟩, htail⟩ := List.cons.inj heq
    obtain rfl := eq_of_isSign hsign hsign'
    obtain ⟨rfl, rfl⟩ := honly h' htail Category.stops_operand Category.stops_operand
    exact ⟨rfl, rfl⟩

/-! ## Primaries -/

/-- A numeral is the only primary at its place. -/
lemma isOnly_number {n : Numeral} {x : Float} {o : ℕ} (hx : n.Denotes x) :
    IsOnly .primary [⟨.numeral n, o⟩] (.number x) := by
  intro us rest rest' u h' heq _ _
  cases h' with
  | number _ hx' =>
    obtain ⟨⟨⟩, -⟩ := List.cons.inj heq
    rw [hx.unique hx']
    exact ⟨rfl, rfl⟩
  | group | constant | apply₁ | apply₂ | var => simp at heq

/-- A group is the only primary at its place if what it holds is the only expression. -/
lemma isOnly_group {o p : ℕ} (honly : IsOnly .expression ts t) :
    IsOnly .primary (⟨.symbol ['('], o⟩ :: (ts ++ [⟨.symbol [')'], p⟩])) (.group t) := by
  intro us rest rest' u h' heq _ _
  cases h' with
  | group h' =>
    rw [List.cons_append, List.cons_append, List.append_assoc, List.append_assoc] at heq
    obtain ⟨ho, heq⟩ := List.cons.inj heq
    obtain ⟨rfl, rfl⟩ := honly h' heq close_stops close_stops
    obtain ⟨hp, -⟩ := List.cons.inj (List.append_cancel_left heq)
    rw [ho, hp]
    exact ⟨rfl, rfl⟩
  | number | constant | apply₁ | apply₂ | var => simp at heq

/-- What begins with the name of a built-in is what the built-in is: a constant, or a function with
its arguments. -/
lemma primary_name_cases {name : String} {m : Meaning} {o : ℕ} {rest' : List Lexeme}
    (h : Derives .primary us u) (hname : (name, m) ∈ Builtin.dictionary)
    (heq : ⟨.name name, o⟩ :: rest = us ++ rest') :
    (∃ c, m = .constant c ∧ us = [⟨.name name, o⟩] ∧ u = .constant c) ∨
    (∃ f p q ts t, m = .unary f ∧ Derives .expression ts t ∧
      us = ⟨.name name, o⟩ :: ⟨.symbol ['('], p⟩ :: (ts ++ [⟨.symbol [')'], q⟩]) ∧
      u = .apply₁ f t) ∨
    ∃ f p q r ts vs t v, m = .binary f ∧ Derives .expression ts t ∧ Derives .expression vs v ∧
      us = ⟨.name name, o⟩ :: ⟨.symbol ['('], p⟩ ::
        (ts ++ ⟨.symbol [','], q⟩ :: (vs ++ [⟨.symbol [')'], r⟩])) ∧ u = .apply₂ f t v := by
  cases h with
  | constant hname' =>
    obtain ⟨⟨⟩, -⟩ := List.cons.inj heq
    exact .inl ⟨_, Builtin.eq_of_mem_dictionary hname hname', rfl, rfl⟩
  | apply₁ hname' h =>
    obtain ⟨⟨⟩, -⟩ := List.cons.inj heq
    exact .inr (.inl ⟨_, _, _, _, _, Builtin.eq_of_mem_dictionary hname hname', h, rfl, rfl⟩)
  | apply₂ hname' hfirst hsecond =>
    obtain ⟨⟨⟩, -⟩ := List.cons.inj heq
    exact .inr (.inr ⟨_, _, _, _, _, _, _, _, Builtin.eq_of_mem_dictionary hname hname', hfirst,
      hsecond, rfl, rfl⟩)
  | var hnone =>
    obtain ⟨⟨⟩, -⟩ := List.cons.inj heq
    exact absurd hname (hnone m)
  | number | group => simp at heq

/-- A constant is the only primary at its place. -/
lemma isOnly_constant {name : String} {c : Constant} {o : ℕ}
    (hname : (name, .constant c) ∈ Builtin.dictionary) :
    IsOnly .primary [⟨.name name, o⟩] (.constant c) := by
  intro us rest rest' u h' heq _ _
  obtain ⟨_, ⟨⟩, rfl, rfl⟩ | ⟨_, _, _, _, _, ⟨⟩, -⟩ | ⟨_, _, _, _, _, _, _, _, ⟨⟩, -⟩ :=
    h'.primary_name_cases hname heq
  exact ⟨rfl, rfl⟩

/-- A call with one argument is the only primary at its place if the argument is. -/
lemma isOnly_apply₁ {name : String} {f : UnaryOp} {o p q : ℕ}
    (hname : (name, .unary f) ∈ Builtin.dictionary) (honly : IsOnly .expression ts t) :
    IsOnly .primary (⟨.name name, o⟩ :: ⟨.symbol ['('], p⟩ :: (ts ++ [⟨.symbol [')'], q⟩]))
      (.apply₁ f t) := by
  intro us rest rest' u h' heq _ _
  obtain ⟨_, ⟨⟩, -⟩ | ⟨_, _, _, _, _, ⟨⟩, hargument, rfl, rfl⟩ | ⟨_, _, _, _, _, _, _, _, ⟨⟩, -⟩ :=
    h'.primary_name_cases hname heq
  simp only [List.cons_append, List.append_assoc] at heq
  obtain ⟨-, htail⟩ := List.cons.inj heq
  obtain ⟨hp, htail⟩ := List.cons.inj htail
  obtain ⟨rfl, rfl⟩ := honly hargument htail close_stops close_stops
  obtain ⟨hq, -⟩ := List.cons.inj (List.append_cancel_left htail)
  rw [hp, hq]
  exact ⟨rfl, rfl⟩

/-- A call with two arguments is the only primary at its place if both of them are. -/
lemma isOnly_apply₂ {name : String} {f : BinaryOp} {vs : List Lexeme} {v : Tree} {o p q r : ℕ}
    (hname : (name, .binary f) ∈ Builtin.dictionary) (hfirst : IsOnly .expression ts t)
    (hsecond : IsOnly .expression vs v) :
    IsOnly .primary (⟨.name name, o⟩ :: ⟨.symbol ['('], p⟩ ::
      (ts ++ ⟨.symbol [','], q⟩ :: (vs ++ [⟨.symbol [')'], r⟩]))) (.apply₂ f t v) := by
  intro us rest rest' u h' heq _ _
  obtain ⟨_, ⟨⟩, -⟩ | ⟨_, _, _, _, _, ⟨⟩, -⟩ |
      ⟨_, _, _, _, _, _, _, _, ⟨⟩, hfirst', hsecond', rfl, rfl⟩ :=
    h'.primary_name_cases hname heq
  simp only [List.cons_append, List.append_assoc] at heq
  obtain ⟨-, htail⟩ := List.cons.inj heq
  obtain ⟨hp, htail⟩ := List.cons.inj htail
  obtain ⟨rfl, rfl⟩ := hfirst hfirst' htail comma_stops comma_stops
  obtain ⟨hq, htail⟩ := List.cons.inj (List.append_cancel_left htail)
  obtain ⟨rfl, rfl⟩ := hsecond hsecond' htail close_stops close_stops
  obtain ⟨hr, -⟩ := List.cons.inj (List.append_cancel_left htail)
  rw [hp, hq, hr]
  exact ⟨rfl, rfl⟩

/-- A variable is the only primary at its place. -/
lemma isOnly_var {name : String} {o : ℕ} (hnone : ∀ m, (name, m) ∉ Builtin.dictionary) :
    IsOnly .primary [⟨.name name, o⟩] (.var name o) := by
  intro us rest rest' u h' heq _ _
  cases h' with
  | var =>
    obtain ⟨⟨⟩, -⟩ := List.cons.inj heq
    exact ⟨rfl, rfl⟩
  | constant hname | apply₁ hname | apply₂ hname =>
    obtain ⟨⟨⟩, -⟩ := List.cons.inj heq
    exact absurd hname (hnone _)
  | number | group => simp at heq

/-! ## All phrases -/

/-- A phrase is the only one at its place, provided that no two operators of its levels are the
same. -/
lemma isOnly (h : Derives cat ts t) (hnodup : cat.continuations.Nodup) : IsOnly cat ts t := by
  have hlevels : (Category.level levels).continuations.Nodup := by decide
  have hexpression : Category.expression.continuations.Nodup := by decide
  induction h with
  | simple _ ih => exact isOnly_simple (ih hlevels)
  | choice _ _ _ ihtest ihyes ihno =>
    exact isOnly_choice (ihtest hlevels) (ihyes hexpression) (ihno hexpression)
  | tightest _ ih => exact isOnly_tightest (ih List.nodup_nil)
  | level _ hpairs ihleft ihpairs =>
    exact isOnly_level hnodup hpairs (ihleft (Category.nodup_tighter hnodup)) (ihpairs hnodup)
  | done => exact isOnly_done
  | pair hmem _ hpairs ihright ihpairs =>
    exact isOnly_pair hnodup hmem hpairs (ihright (Category.nodup_tighter hnodup)) (ihpairs hnodup)
  | primary h ih => exact isOnly_primary h (ih List.nodup_nil)
  | sign hsign _ ih => exact isOnly_sign hsign (ih List.nodup_nil)
  | number _ hx => exact isOnly_number hx
  | group _ ih => exact isOnly_group (ih hexpression)
  | constant hname => exact isOnly_constant hname
  | apply₁ hname _ ih => exact isOnly_apply₁ hname (ih hexpression)
  | apply₂ hname _ _ ihfirst ihsecond =>
    exact isOnly_apply₂ hname (ihfirst hexpression) (ihsecond hexpression)
  | var hnone => exact isOnly_var hnone

/-- Two phrases of one category that begin at the same token, each read as far as it goes, are the
same and have the same derivation. -/
theorem unique {rest' : List Lexeme} (h : Derives cat ts t) (h' : Derives cat us u)
    (hnodup : cat.continuations.Nodup) (heq : ts ++ rest = us ++ rest') (hstops : cat.Stops rest)
    (hstops' : cat.Stops rest') : ts = us ∧ t = u :=
  h.isOnly hnodup h' heq hstops hstops'

end Derives

/-- A source has at most one derivation. -/
theorem Sentence.unique {source : String} {t u : Tree} (ht : Sentence source t)
    (hu : Sentence source u) : t = u := by
  obtain ⟨ts, stop, hts, hstop, ht⟩ := ht
  obtain ⟨us, stop', hus, hstop', hu⟩ := hu
  obtain ⟨rfl, -⟩ := hts.unique hus (Cursor.halts_of_atEnd (Cursor.atEnd_iff.2 hstop))
    (Cursor.halts_of_atEnd (Cursor.atEnd_iff.2 hstop'))
  exact (ht.unique hu (by decide) rfl Category.stops_nil Category.stops_nil).2

end Reckon.Expr
