import Reckon.Proofs.Dictionary
import Reckon.Proofs.Expr.Lexeme
import Reckon.Proofs.Source.Denotation

/-!
# The grammar of expressions

`Derives` is the grammar of expressions over tokens.  An expression is a phrase of binary operators
or a choice; every level of binary operators is an operand of the tighter levels, followed by pairs
of an operator of this level and another such operand; an operand is a primary behind any number of
signs; a primary is a numeral, an expression in parentheses, a named constant, a function with as
many arguments as it takes, or a variable.  The grammar has its own tables: `levels` of operators,
`IsSign` and the dictionary of names.  They agree with those of the reader (`levels_eq`,
`isSign_iff`, `Builtin.mem_dictionary_iff`).

`Sentence` says that a whole source is an expression.  A derivation leaves a `Tree`, which keeps the
parentheses and the signs `+` that leave no trace in the expression it stands for.  That the levels
associate to the left is `Derives.level_cons_iff`.
-/

namespace Reckon.Expr

/-- A derivation of an expression. -/
inductive Tree
  | number (x : Float)
  | constant (c : Constant)
  | var (name : String) (position : Nat)
  | group (inner : Tree)
  | sign (f : Option UnaryOp) (operand : Tree)
  | apply₁ (f : UnaryOp) (argument : Tree)
  | apply₂ (f : BinaryOp) (first second : Tree)
  | binary (f : BinaryOp) (left right : Tree)
  | choice (test yes no : Tree)

namespace Tree

/-- The expression that a derivation stands for. -/
def expr : Tree → Expr
  | number x => .number x
  | constant c => .constant c
  | var name position => .var name position
  | group inner => inner.expr
  | sign none operand => operand.expr
  | sign (some f) operand => .unary f operand.expr
  | apply₁ f argument => .unary f argument.expr
  | apply₂ f first second => .binary f first.expr second.expr
  | binary f left right => .binary f left.expr right.expr
  | choice test yes no => .choice test.expr yes.expr no.expr

/-- How many expressions and operands are open at once inside a derivation: groups, arguments,
branches and what stands behind a sign. -/
def depth : Tree → Nat
  | number _ | constant _ | var _ _ => 0
  | group inner => inner.depth + 1
  | sign _ operand => operand.depth + 1
  | apply₁ _ argument => argument.depth + 1
  | apply₂ _ first second => max first.depth second.depth + 1
  | binary _ left right => max left.depth right.depth
  | choice test yes no => max test.depth (max yes.depth no.depth + 1)

/-- The nesting of a whole expression, which opens one itself. -/
def nesting (t : Tree) : Nat := t.depth + 1

end Tree

/-- The binary operators of some levels, the loosest first. -/
abbrev Levels := List (List (Spelling × BinaryOp))

/-- The levels of binary operators. -/
def levels : Levels := [
  [("||".toList, .or)],
  [("&&".toList, .and)],
  [("|".toList, .bitOr)],
  [("^".toList, .bitXor)],
  [("&".toList, .bitAnd)],
  [("==".toList, .eq), ("!=".toList, .ne)],
  [("<".toList, .lt), (">".toList, .gt), ("<=".toList, .le), (">=".toList, .ge)],
  [("<<".toList, .shl), (">>".toList, .shr)],
  [("+".toList, .add), ("-".toList, .sub)],
  [("*".toList, .mul), ("/".toList, .div), ("%".toList, .mod)]]

/-- The reader knows these levels. -/
lemma levels_eq : binaryOperators.levels = levels := rfl

/-- The signs before an operand, and the operations they stand for.  A plus sign stands for none. -/
inductive IsSign : Char → Option UnaryOp → Prop
  | minus : IsSign '-' (some .neg)
  | plus : IsSign '+' none
  | not : IsSign '!' (some .not)
  | bitNot : IsSign '~' (some .bitNot)

/-- The reader knows these signs. -/
lemma isSign_iff {c : Char} {f : Option UnaryOp} : IsSign c f ↔ (c, f) ∈ signs := by
  constructor
  · rintro (_ | _ | _ | _) <;> decide
  · intro h
    simp only [signs, List.mem_cons, List.not_mem_nil, Prod.mk.injEq, or_false] at h
    rcases h with ⟨rfl, rfl⟩ | ⟨rfl, rfl⟩ | ⟨rfl, rfl⟩ | ⟨rfl, rfl⟩
    · exact .minus
    · exact .plus
    · exact .not
    · exact .bitNot

/-- The kinds of phrases.  The pairs that follow an operand extend the derivation to their left. -/
inductive Category
  | expression
  | level (levels : Levels)
  | pairs (operators : List (Spelling × BinaryOp)) (tighter : Levels) (left : Tree)
  | operand
  | primary

/-- The grammar of expressions: which tokens are a phrase of a category, and its derivation. -/
inductive Derives : Category → List Lexeme → Tree → Prop
  | simple {ts : List Lexeme} {t : Tree} :
      Derives (.level levels) ts t → Derives .expression ts t
  | choice {ts us vs : List Lexeme} {test yes no : Tree} {o p : Nat} :
      Derives (.level levels) ts test → Derives .expression us yes →
      Derives .expression vs no →
      Derives .expression (ts ++ ⟨.symbol ['?'], o⟩ :: (us ++ ⟨.symbol [':'], p⟩ :: vs))
        (.choice test yes no)
  | tightest {ts : List Lexeme} {t : Tree} : Derives .operand ts t → Derives (.level []) ts t
  | level {operators : List (Spelling × BinaryOp)} {tighter : Levels} {ts us : List Lexeme}
      {left t : Tree} : Derives (.level tighter) ts left →
      Derives (.pairs operators tighter left) us t →
      Derives (.level (operators :: tighter)) (ts ++ us) t
  | done {operators : List (Spelling × BinaryOp)} {tighter : Levels} {left : Tree} :
      Derives (.pairs operators tighter left) [] left
  | pair {operators : List (Spelling × BinaryOp)} {tighter : Levels} {ts us : List Lexeme}
      {left right t : Tree} {s : Spelling} {f : BinaryOp} {o : Nat} : (s, f) ∈ operators →
      Derives (.level tighter) ts right →
      Derives (.pairs operators tighter (.binary f left right)) us t →
      Derives (.pairs operators tighter left) (⟨.symbol s, o⟩ :: (ts ++ us)) t
  | primary {ts : List Lexeme} {t : Tree} : Derives .primary ts t → Derives .operand ts t
  | sign {ts : List Lexeme} {t : Tree} {c : Char} {f : Option UnaryOp} {o : Nat} :
      IsSign c f → Derives .operand ts t →
      Derives .operand (⟨.symbol [c], o⟩ :: ts) (.sign f t)
  | number {n : Numeral} {x : Float} {o : Nat} : n.IsWritten → n.Denotes x →
      Derives .primary [⟨.numeral n, o⟩] (.number x)
  | group {ts : List Lexeme} {t : Tree} {o p : Nat} : Derives .expression ts t →
      Derives .primary (⟨.symbol ['('], o⟩ :: (ts ++ [⟨.symbol [')'], p⟩])) (.group t)
  | constant {name : String} {c : Constant} {o : Nat} :
      (name, .constant c) ∈ Builtin.dictionary →
      Derives .primary [⟨.name name, o⟩] (.constant c)
  | apply₁ {name : String} {f : UnaryOp} {ts : List Lexeme} {t : Tree} {o p q : Nat} :
      (name, .unary f) ∈ Builtin.dictionary → Derives .expression ts t →
      Derives .primary (⟨.name name, o⟩ :: ⟨.symbol ['('], p⟩ :: (ts ++ [⟨.symbol [')'], q⟩]))
        (.apply₁ f t)
  | apply₂ {name : String} {f : BinaryOp} {ts us : List Lexeme} {t u : Tree} {o p q r : Nat} :
      (name, .binary f) ∈ Builtin.dictionary → Derives .expression ts t →
      Derives .expression us u →
      Derives .primary (⟨.name name, o⟩ :: ⟨.symbol ['('], p⟩ ::
        (ts ++ ⟨.symbol [','], q⟩ :: (us ++ [⟨.symbol [')'], r⟩]))) (.apply₂ f t u)
  | var {name : String} {o : Nat} : (∀ m, (name, m) ∉ Builtin.dictionary) →
      Derives .primary [⟨.name name, o⟩] (.var name o)

/-- The arguments of a function up to the closing parenthesis. -/
inductive Arguments : List Lexeme → List Tree → Prop
  | last {ts : List Lexeme} {t : Tree} {o : Nat} :
      Derives .expression ts t → Arguments (ts ++ [⟨.symbol [')'], o⟩]) [t]
  | more {ts us : List Lexeme} {t : Tree} {args : List Tree} {o : Nat} :
      Derives .expression ts t → Arguments us args →
      Arguments (ts ++ ⟨.symbol [','], o⟩ :: us) (t :: args)

/-- Whether a source is one expression, and its derivation. -/
def Sentence (source : String) (t : Tree) : Prop :=
  ∃ (ts : List Lexeme) (stop : Cursor), Lexes ⟨source.toList, 0⟩ ts stop ∧ IsBlanks stop.rest ∧
    Derives .expression ts t

namespace Derives

variable {cat : Category} {ts us : List Lexeme} {t : Tree}
  {operators : List (Spelling × BinaryOp)} {tighter : Levels} {left : Tree}

/-! ## How phrases begin -/

/-- The symbols that a phrase can begin with. -/
def openers : List Spelling := [['('], ['-'], ['+'], ['!'], ['~']]

/-- No primary begins with a sign. -/
lemma primary_head (h : Derives .primary ts t) : ∃ l more, ts = l :: more ∧
    l.token.sign? = none ∧ ∀ s, l.token = .symbol s → s ∈ openers := by
  cases h with
  | number | constant | var | apply₁ | apply₂ => exact ⟨_, _, rfl, rfl, nofun⟩
  | group =>
    refine ⟨_, _, rfl, rfl, ?_⟩
    rintro s ⟨⟩
    decide

/-- Except for pairs, no phrase is empty or begins with a symbol other than a sign or an opening
parenthesis. -/
lemma head (h : Derives cat ts t)
    (hcat : ∀ operators tighter left, cat ≠ .pairs operators tighter left) :
    ∃ l more, ts = l :: more ∧ ∀ s, l.token = .symbol s → s ∈ openers := by
  induction h with
  | simple _ ih => exact ih (by simp)
  | choice _ _ _ ih =>
    obtain ⟨l, more, rfl, hl⟩ := ih (by simp)
    exact ⟨l, _, rfl, hl⟩
  | tightest _ ih => exact ih (by simp)
  | level _ _ ih =>
    obtain ⟨l, more, rfl, hl⟩ := ih (by simp)
    exact ⟨l, _, rfl, hl⟩
  | done | pair => exact absurd rfl (hcat _ _ _)
  | primary hprimary =>
    obtain ⟨l, more, hts, -, hl⟩ := hprimary.primary_head
    exact ⟨l, more, hts, hl⟩
  | sign hmem =>
    refine ⟨_, _, rfl, ?_⟩
    rintro s ⟨⟩
    rcases hmem with _ | _ | _ | _ <;> decide
  | group =>
    refine ⟨_, _, rfl, ?_⟩
    rintro s ⟨⟩
    decide
  | number | constant | apply₁ | apply₂ | var => exact ⟨_, _, rfl, nofun⟩

/-- The token of a sign is known as one. -/
lemma sign?_of_isSign {c : Char} {f : Option UnaryOp} (h : IsSign c f) :
    (Token.symbol [c]).sign? = some f := by
  rcases h with _ | _ | _ | _ <;> rfl

/-- A numeral that is read is a primary. -/
lemma number_of_token {c : Cursor} {n : Numeral} {x : Float} {o : ℕ}
    (htoken : c.token? = some (.numeral n)) (hx : n.value? = some x) :
    Derives .primary [⟨.numeral n, o⟩] (.number x) := by
  have hwritten : n.IsWritten := (Cursor.token?_eq_some_iff.1 htoken).1.1
  exact .number hwritten ((Numeral.denotes_iff hwritten).2 hx)

/-! ## Association to the left -/

/-- The last of the pairs is the outermost operation. -/
lemma pairs_cases (h : Derives (.pairs operators tighter left) us t) :
    us = [] ∧ t = left ∨
      ∃ ts vs l r s f o, us = ts ++ ⟨.symbol s, o⟩ :: vs ∧ t = .binary f l r ∧ (s, f) ∈ operators ∧
        Derives (.pairs operators tighter left) ts l ∧ Derives (.level tighter) vs r := by
  generalize hcat : Category.pairs operators tighter left = cat at h
  induction h generalizing left with
  | done =>
    cases hcat
    exact .inl ⟨rfl, rfl⟩
  | @pair _ _ ts us left right t s f o hmem hright hrest _ ih =>
    cases hcat
    right
    rcases ih rfl with ⟨rfl, rfl⟩ | ⟨ts', vs, l, r, s', f', o', rfl, rfl, hmem', hl, hr⟩
    · exact ⟨[], ts, left, right, s, f, o, by simp, rfl, hmem, .done, hright⟩
    · exact ⟨⟨.symbol s, o⟩ :: (ts ++ ts'), vs, l, r, s', f', o', by simp, rfl, hmem',
        .pair hmem hright hl, hr⟩
  | simple | choice | tightest | level | primary | sign | number | group | constant | apply₁
  | apply₂ | var => cases hcat

/-- Pairs can be followed by one more. -/
lemma pairs_snoc {vs : List Lexeme} {l r : Tree} {s : Spelling} {f : BinaryOp} {o : Nat}
    (h : Derives (.pairs operators tighter left) us l) (hmem : (s, f) ∈ operators)
    (hright : Derives (.level tighter) vs r) :
    Derives (.pairs operators tighter left) (us ++ ⟨.symbol s, o⟩ :: vs) (.binary f l r) := by
  generalize hcat : Category.pairs operators tighter left = cat at h
  induction h generalizing left with
  | done =>
    cases hcat
    simpa using Derives.pair (o := o) hmem hright .done
  | pair hmem' hright' hrest _ ih =>
    cases hcat
    rw [List.cons_append, List.append_assoc]
    exact .pair hmem' hright' (ih rfl)
  | simple | choice | tightest | level | primary | sign | number | group | constant | apply₁
  | apply₂ | var => cases hcat

/-- A level is a phrase of the tighter levels, or a phrase of this level to the left of an operator
and a phrase of the tighter levels. -/
theorem level_cons_iff : Derives (.level (operators :: tighter)) ts t ↔
    Derives (.level tighter) ts t ∨
      ∃ us vs l r s f o, ts = us ++ ⟨.symbol s, o⟩ :: vs ∧ t = .binary f l r ∧ (s, f) ∈ operators ∧
        Derives (.level (operators :: tighter)) us l ∧ Derives (.level tighter) vs r := by
  constructor
  · intro h
    cases h with
    | @level _ _ ts us left _ hleft hpairs =>
      rcases pairs_cases hpairs with ⟨rfl, rfl⟩ | ⟨ts', vs, l, r, s, f, o, rfl, rfl, hmem, hl, hr⟩
      · exact .inl (by simpa using hleft)
      · exact .inr ⟨ts ++ ts', vs, l, r, s, f, o, by simp, rfl, hmem, .level hleft hl, hr⟩
  · rintro (h | ⟨us, vs, l, r, s, f, o, rfl, rfl, hmem, hl, hr⟩)
    · simpa using h.level .done
    · cases hl with
      | level hleft hpairs =>
        rw [List.append_assoc]
        exact .level hleft (pairs_snoc hpairs hmem hr)

/-- A phrase of the tighter levels is one of the looser levels too. -/
lemma level_append (looser : Levels) (h : Derives (.level tighter) ts t) :
    Derives (.level (looser ++ tighter)) ts t := by
  induction looser with
  | nil => exact h
  | cons operators looser ih => exact level_cons_iff.2 (.inl ih)

/-- An operand is a phrase of any levels. -/
lemma level_of_operand (levels : Levels) (h : Derives .operand ts t) :
    Derives (.level levels) ts t := by
  have happend := (Derives.tightest h).level_append levels
  rw [List.append_nil] at happend
  exact happend

lemma expression_of_operand (h : Derives .operand ts t) : Derives .expression ts t :=
  .simple (h.level_of_operand _)

/-- A phrase of the tightest levels is an expression. -/
lemma expression_of_level {looser : Levels} (h : Derives (.level tighter) ts t)
    (hlevels : looser ++ tighter = levels) : Derives .expression ts t :=
  .simple (hlevels ▸ h.level_append looser)

end Derives

/-- The sum of a named constant and a variable. -/
lemma sentence_constant_add_var :
    Sentence "pi+x" (.binary .add (.constant .pi) (.var "x" 3)) := by
  have hpi : ("pi", .constant .pi) ∈ Builtin.dictionary := by decide
  have hx : ∀ m, ("x", m) ∉ Builtin.dictionary :=
    Builtin.notMem_dictionary_iff.2 (by decide +kernel)
  have hleft : Derives (.level (levels.drop 8)) [⟨.name "pi", 0⟩] (.constant .pi) :=
    Derives.level_of_operand _ (.primary (.constant hpi))
  have hright : Derives (.level (levels.drop 9)) [⟨.name "x", 3⟩] (.var "x" 3) :=
    Derives.level_of_operand _ (.primary (.var hx))
  have hsum : Derives (.level (levels.drop 8))
      ([⟨.name "pi", 0⟩] ++ ⟨.symbol ['+'], 2⟩ :: [⟨.name "x", 3⟩])
      (.binary .add (.constant .pi) (.var "x" 3)) :=
    Derives.level_cons_iff.2 (.inr ⟨_, _, _, _, _, .add, 2, rfl, rfl, by decide, hleft, hright⟩)
  exact ⟨_, ⟨[], 4⟩, .of_lexemes 3 (by decide), nofun,
    .simple (hsum.level_append (levels.take 8))⟩

end Reckon.Expr
