import Reckon.Proofs.Expr.Reading

/-!
# Everything that is read is derived

What the reader of expressions reads is a phrase of the grammar, nested no deeper than the limit
allows, and what it leaves behind is the expression that the derivation stands for
(`reads_reader`).  The proof goes by the limit, which is smaller in every inner phrase; inside one
phrase it follows the levels of binary operators, the pairs of a level and the arguments of a
function.
-/

namespace Reckon.Expr

open Outcome

/-- A reader reads phrases of a category, which are nested less deep than a bound. -/
def Reads (x : Reader Expr Unit) (cat : Category) (bound : ℕ) : Prop :=
  ∀ s s', x s = .ok () s' → ∃ ts t, Derives cat ts t ∧ t.depth < bound ∧
    Lexes s.cursor ts s'.cursor ∧ s'.done = t.expr :: s.done

variable {operand branch inner group tighter : Reader Expr Unit} {bound limit : ℕ}
  {operators : List (Spelling × BinaryOp)} {levels : Levels} {left : Tree}

/-- The pairs of a level extend the operand to their left. -/
lemma derives_of_pairs (htighter : Reads tighter (.level levels) bound)
    (h : ∀ candidate ∈ operators, candidate.1 ∈ binaryOperators.vocabulary) {turns : ℕ}
    {c : Cursor} {base : List Expr} {s' : Progress Expr} (hleft : left.depth < bound)
    (hrun : (grammar operand).pairs operators tighter base.length turns ⟨c, left.expr :: base⟩ =
      .ok () s') :
    ∃ us t, Derives (.pairs operators levels left) us t ∧ t.depth < bound ∧
      Lexes c us s'.cursor ∧ s'.done = t.expr :: base := by
  induction turns generalizing c left with
  | zero =>
    rw [Grammar.pairs, pure_eq_ok_iff] at hrun
    rw [← hrun.2]
    exact ⟨[], left, .done, hleft, .stop rfl, rfl⟩
  | succ turns ih =>
    have hnone : Lexes c [] c.skipBlanks := .stop (by simp)
    rw [pairs_succ operand h] at hrun
    split at hrun
    · rename_i s htoken
      split at hrun
      · cases hrun
        exact ⟨[], left, .done, hleft, hnone, rfl⟩
      · rename_i candidate hfind
        have hmem := List.mem_of_find?_eq_some hfind
        have hspelling : candidate.1 = s := by simpa using List.find?_some hfind
        obtain ⟨_, s₁, hright, hrun⟩ := bind_eq_ok_iff.1 hrun
        obtain ⟨_, s₂, hreduce, hrun⟩ := bind_eq_ok_iff.1 hrun
        obtain ⟨ts, right, hderives, hdepth, hlexes, hdone⟩ := htighter _ _ hright
        obtain ⟨c₁, done₁⟩ := s₁
        obtain rfl : done₁ = [right.expr, left.expr] ++ base := hdone
        rw [apply_apply] at hreduce
        cases hreduce
        have hbinary : (Tree.binary candidate.2 left right).depth < bound := max_lt hleft hdepth
        obtain ⟨us, t, hpairs, htdepth, hrest, hdone'⟩ := ih hbinary hrun
        refine ⟨⟨.symbol s, c.skipBlanks.offset⟩ :: (ts ++ us), t, .pair ?_ hderives hpairs,
          htdepth, .cons htoken (hlexes.append hrest), hdone'⟩
        rw [← hspelling]
        exact hmem
    · cases hrun
      exact ⟨[], left, .done, hleft, hnone, rfl⟩

/-- Levels of binary operators around operands. -/
lemma reads_climb (hoperand : Reads operand .operand bound)
    (h : ∀ operators ∈ levels, ∀ candidate ∈ operators, candidate.1 ∈ binaryOperators.vocabulary)
    (turns : ℕ) : Reads ((grammar operand).climb turns levels) (.level levels) bound := by
  induction levels with
  | nil =>
    intro s s' hrun
    obtain ⟨ts, t, hderives, hrest⟩ := hoperand s s' hrun
    exact ⟨ts, t, .tightest hderives, hrest⟩
  | cons operators levels ih =>
    have htighter := ih fun o ho => h o (List.mem_cons_of_mem _ ho)
    intro s s' hrun
    obtain ⟨_, s₁, hfirst, hrun⟩ := bind_eq_ok_iff.1 hrun
    obtain ⟨_, s₂, hleft, hrun⟩ := bind_eq_ok_iff.1 hrun
    cases hfirst
    obtain ⟨ts, left, hderives, hdepth, hlexes, hdone⟩ := htighter _ _ hleft
    obtain ⟨c₂, done₂⟩ := s₂
    obtain rfl : done₂ = left.expr :: s.done := hdone
    obtain ⟨us, t, hpairs, htdepth, hrest, hdone'⟩ :=
      derives_of_pairs htighter (h operators List.mem_cons_self) hdepth hrun
    exact ⟨ts ++ us, t, .level hderives hpairs, htdepth, hlexes.append hrest, hdone'⟩

/-- An expression is a phrase of binary operators or a choice. -/
lemma reads_expressionWith (hoperand : Reads operand .operand (bound + 1))
    (hbranch : Reads branch .expression bound) :
    Reads (expressionWith operand branch) .expression (bound + 1) := by
  intro s s' hrun
  rw [expressionWith_apply] at hrun
  split at hrun
  · rename_i s₁ htest
    obtain ⟨ts, test, hderives, hdepth, hlexes, hdone⟩ :=
      reads_climb hoperand mem_vocabulary_of_mem_levels _ _ _ htest
    split at hrun
    · rename_i hquestion
      obtain ⟨_, s₂, hfirst, hrun⟩ := bind_eq_ok_iff.1 hrun
      obtain ⟨_, s₃, hcolon, hrun⟩ := bind_eq_ok_iff.1 hrun
      obtain ⟨_, s₄, hsecond, hrun⟩ := bind_eq_ok_iff.1 hrun
      obtain ⟨us, yes, hyes, hyesdepth, hyeslexes, hyesdone⟩ := hbranch _ _ hfirst
      rw [Reader.expect_apply isMark_colon] at hcolon
      split at hcolon
      · rename_i hcolontoken
        cases hcolon
        obtain ⟨vs, no, hno, hnodepth, hnolexes, hnodone⟩ := hbranch _ _ hsecond
        simp only [hyesdone, hdone] at hnodone
        obtain ⟨c₄, done₄⟩ := s₄
        obtain rfl : done₄ = [no.expr, yes.expr, test.expr] ++ s.done := hnodone
        rw [Reader.reduceSince_apply] at hrun
        cases hrun
        refine ⟨_, .choice test yes no, .choice hderives hyes hno, ?_,
          hlexes.append (.cons hquestion (hyeslexes.append (.cons hcolontoken hnolexes))), rfl⟩
        rw [Tree.depth]
        omega
      · cases hcolon
    · cases hrun
      exact ⟨ts, test, .simple hderives, hdepth, hlexes.congr_right (by simp), hdone⟩
  · cases hrun

/-- The argument list of a function, if every argument is read. -/
lemma exists_arguments (hgroup : Reads group .expression bound) {opening turns : ℕ}
    {s s' : Progress Expr} (hturns : s.cursor.rest.length < turns)
    (hrun : arguments group opening turns s = .ok () s') :
    ∃ ts args, Arguments ts args ∧ (∀ t ∈ args, t.depth < bound) ∧ Lexes s.cursor ts s'.cursor ∧
      s'.done = (args.map Tree.expr).reverse ++ s.done := by
  induction turns generalizing s with
  | zero => exact absurd hturns (Nat.not_lt_zero _)
  | succ turns ih =>
    rw [arguments_succ] at hrun
    split at hrun
    · rename_i s₁ hfirst
      obtain ⟨ts, t, hderives, hdepth, hlexes, hdone⟩ := hgroup _ _ hfirst
      split at hrun
      · rename_i hcomma
        have hshorter := Cursor.length_past hcomma
        have hle := hlexes.length_add_le
        have hrest : (s₁.cursor.past (.symbol [','])).rest.length < turns := by
          simp only [Token.text, List.length_singleton] at hshorter
          omega
        obtain ⟨us, args, hargs, hdepths, hlexes', hdone'⟩ := ih hrest hrun
        refine ⟨_, t :: args, .more hderives hargs, ?_,
          hlexes.append (.cons hcomma hlexes'), ?_⟩
        · exact List.forall_mem_cons.2 ⟨hdepth, hdepths⟩
        · rw [hdone', hdone]
          simp
      · rw [Reader.closeGroup_apply] at hrun
        split at hrun
        · rename_i hclose
          cases hrun
          simp only [Cursor.token?_skipBlanks] at hclose
          refine ⟨_, [t], .last hderives, by simpa using hdepth,
            (hlexes.append (.single hclose)).congr_right ?_, by simp [hdone]⟩
          simp
        · cases hrun
    · cases hrun

/-- A function is applied to as many arguments as it takes. -/
lemma reads_call (hgroup : Reads group .expression bound) {name : String} {function : Builtin}
    (hname : Builtin.lookup name = some function) (hconstant : ∀ c, function.meaning ≠ .constant c)
    {position o : ℕ} {c : Cursor} {done : List Expr} {s' : Progress Expr}
    (hrun : call group function position ⟨c, done⟩ = .ok () s') :
    ∃ ts t, Derives .primary (⟨.name name, o⟩ :: ts) t ∧ t.depth < bound + 1 ∧
      Lexes c ts s'.cursor ∧ s'.done = t.expr :: done := by
  have hmeaning : (Builtin.lookup name).map Builtin.meaning = some function.meaning := by
    rw [hname, Option.map_some]
  rw [call_apply] at hrun
  split at hrun
  · rename_i hopen
    split at hrun
    · -- No function does without arguments.
      have happly := apply_apply function.name function.meaning
        ((c.past (.symbol ['('])).past (.symbol [')'])) [] done
      rw [List.nil_append] at happly
      rw [happly] at hrun
      cases hfunction : function.meaning with
      | constant => exact absurd hfunction (hconstant _)
      | unary | binary => simp [hfunction, Meaning.build?] at hrun
    · obtain ⟨_, s₁, harguments, hrun⟩ := bind_eq_ok_iff.1 hrun
      obtain ⟨ts, args, hargs, hdepths, hlexes, hdone⟩ :=
        exists_arguments hgroup (Nat.lt_succ_self _) harguments
      obtain ⟨c₁, done₁⟩ := s₁
      obtain rfl : done₁ = (args.map Tree.expr).reverse ++ done := hdone
      have htokens : Lexes c (⟨.symbol ['('], c.skipBlanks.offset⟩ :: ts) c₁ :=
        .cons hopen (hlexes.congr_left (by simp))
      rw [apply_apply, List.reverse_reverse] at hrun
      cases hfunction : function.meaning with
      | constant => exact absurd hfunction (hconstant _)
      | unary f =>
        rw [hfunction] at hrun hmeaning
        cases hargs with
        | @last ts t _ hderives =>
          cases hrun
          refine ⟨_, .apply₁ f t, .apply₁ (Builtin.mem_dictionary_iff.2 hmeaning) hderives, ?_,
            htokens, rfl⟩
          exact Nat.succ_lt_succ (hdepths t (by simp))
        | more _ hargs => cases hargs <;> simp [Meaning.build?] at hrun
      | binary f =>
        rw [hfunction] at hrun hmeaning
        cases hargs with
        | last => simp [Meaning.build?] at hrun
        | @more ts _ t _ _ hfirst hargs =>
          cases hargs with
          | @last us u _ hsecond =>
            cases hrun
            refine ⟨_, .apply₂ f t u, .apply₂ (Builtin.mem_dictionary_iff.2 hmeaning) hfirst
              hsecond,
              ?_, htokens, rfl⟩
            exact Nat.succ_lt_succ (max_lt (hdepths t (by simp)) (hdepths u (by simp)))
          | more _ hargs => cases hargs <;> simp [Meaning.build?] at hrun
  · cases hrun

/-- A primary is told by its first token. -/
lemma reads_primary (hgroup : Reads group .expression bound) :
    Reads (primary group) .primary (bound + 1) := by
  rintro ⟨c, done⟩ s' hrun
  rw [primary_apply] at hrun
  split at hrun
  · rename_i n htoken
    split at hrun
    · rename_i x hx
      cases hrun
      exact ⟨_, .number x, .number_of_token htoken hx, Nat.succ_pos _, Lexes.single htoken, rfl⟩
    · cases hrun
  · rename_i name htoken
    unfold named at hrun
    cases hlookup : Builtin.lookup name with
    | none =>
      rw [hlookup] at hrun
      cases hrun
      exact ⟨_, .var name c.skipBlanks.offset, .var (Builtin.notMem_dictionary_iff.2 hlookup),
        Nat.succ_pos _, .single htoken, rfl⟩
    | some function =>
      obtain ⟨functionName, meaning⟩ := function
      rw [hlookup] at hrun
      cases meaning with
      | constant constant =>
        cases hrun
        have hmem : (name, .constant constant) ∈ Builtin.dictionary :=
          Builtin.mem_dictionary_iff.2 (by rw [hlookup]; rfl)
        exact ⟨_, .constant constant, .constant hmem, Nat.succ_pos _, .single htoken, rfl⟩
      | unary f | binary f =>
        obtain ⟨ts, t, hderives, hdepth, hlexes, hdone⟩ := reads_call (o := c.skipBlanks.offset)
          hgroup hlookup (by simp) hrun
        exact ⟨_, t, hderives, hdepth, .cons htoken hlexes, hdone⟩
  · rename_i htoken
    obtain ⟨_, s₁, hinner, hrun⟩ := bind_eq_ok_iff.1 hrun
    obtain ⟨ts, t, hderives, hdepth, hlexes, hdone⟩ := hgroup _ _ hinner
    rw [Reader.closeGroup_apply] at hrun
    split at hrun
    · rename_i hclose
      cases hrun
      refine ⟨_, .group t, .group hderives, Nat.succ_lt_succ hdepth,
        .cons htoken (hlexes.append (.single hclose)), hdone⟩
    · cases hrun
  · cases hrun

/-- A sign that is read is a token by itself, or an equals sign follows it. -/
lemma sign_cases {c : Cursor} {s : Spelling} {sign : Option UnaryOp}
    (htoken : c.token? = some (.symbol s)) (hsign : (Token.symbol s).sign? = some sign) :
    (∃ ch, s = [ch] ∧ IsSign ch sign) ∨
      (c.skipBlanks.skip 1).skipBlanks.rest.head? = some '=' := by
  have hbegins := (Cursor.token?_eq_some_iff.1 htoken).1
  have hsymbols : ∀ s ∈ Token.symbols, (Token.symbol s).sign? ≠ none →
      s = ['!', '='] ∨ s.length = 1 := by decide
  have hne : (Token.symbol s).sign? ≠ none := by
    rw [hsign]
    exact Option.some_ne_none sign
  rcases hsymbols s hbegins.1 hne with rfl | hlength
  · right
    obtain ⟨rest, hrest⟩ := hbegins.2
    have hafter : (c.skipBlanks.skip 1).rest = '=' :: rest := by
      rw [Cursor.skip, ← hrest]
      rfl
    rw [Cursor.skipBlanks_rest, hafter]
    rfl
  · obtain ⟨ch, rfl⟩ := List.length_eq_one_iff.1 hlength
    refine .inl ⟨ch, rfl, isSign_iff.2 ?_⟩
    obtain ⟨before, after, hsplit, -⟩ := List.lookup_eq_some_iff.1 hsign
    rw [hsplit]
    exact List.mem_append_right _ List.mem_cons_self

/-- The only token that begins with an equals sign is the operator. -/
lemma eq_equals_of_head? {c : Cursor} {t : Token} (hhead : c.skipBlanks.rest.head? = some '=')
    (htoken : c.token? = some t) : t = .symbol ['=', '='] := by
  obtain ⟨rest, hrest⟩ := List.head?_eq_some_iff.1 hhead
  have hbegins := (Cursor.token?_eq_some_iff.1 htoken).1
  rw [hrest] at hbegins
  have hopens := hbegins.opens
  have hfirst := hbegins.head?_text
  cases t with
  | numeral n =>
    have hopens : '='.isDigit ∨ '=' = '.' := hopens
    exact absurd hopens (by decide)
  | name found =>
    have hopens : isNameStart '=' := hopens
    exact absurd hopens (by decide)
  | symbol s =>
    have hequals : ∀ s ∈ Token.symbols, s.head? = some '=' → s = ['=', '='] := by decide
    rw [hequals s hbegins.1 hfirst]

/-- Where a sign is read and an operand follows, the sign is a token by itself. -/
lemma sign_of_derives {c stop : Cursor} {s : Spelling} {ts : List Lexeme} {t : Tree}
    {sign : Option UnaryOp} (htoken : c.token? = some (.symbol s))
    (hsign : (Token.symbol s).sign? = some sign) (hderives : Derives .operand ts t)
    (hlexes : Lexes (c.skipBlanks.skip 1) ts stop) : ∃ ch, s = [ch] ∧ IsSign ch sign := by
  rcases sign_cases htoken hsign with hsingle | hequals
  · exact hsingle
  · -- No operand begins with an equals sign.
    obtain ⟨l, more, rfl, hopener⟩ := hderives.head (by simp)
    have hl := eq_equals_of_head? hequals (Lexes.cons_iff.1 hlexes).1
    exact absurd (hopener _ hl) (by decide)

/-- An operand is a primary behind any number of signs. -/
lemma reads_operandWith (hinner : Reads inner .operand bound)
    (hgroup : Reads group .expression bound) :
    Reads (operandWith inner group) .operand (bound + 1) := by
  rintro ⟨c, done⟩ s' hrun
  rw [operandWith_apply] at hrun
  cases hsign : c.token?.bind Token.sign? with
  | none =>
    rw [hsign] at hrun
    obtain ⟨ts, t, hderives, hdepth, hlexes, hdone⟩ := reads_primary hgroup _ _ hrun
    exact ⟨ts, t, .primary hderives, hdepth, hlexes.congr_left (by simp), hdone⟩
  | some sign =>
    rw [hsign] at hrun
    obtain ⟨token, htoken, hsign⟩ := Option.bind_eq_some_iff.1 hsign
    obtain ⟨_, s₁, hoperand, hrun⟩ := bind_eq_ok_iff.1 hrun
    obtain ⟨ts, t, hderives, hdepth, hlexes, hdone⟩ := hinner _ _ hoperand
    cases token with
    | numeral | name => cases hsign
    | symbol s =>
      obtain ⟨ch, rfl, hmem⟩ := sign_of_derives htoken hsign hderives hlexes
      have htokens := Lexes.cons htoken hlexes
      have hdepth' : (Tree.sign sign t).depth < bound + 1 := Nat.succ_lt_succ hdepth
      obtain ⟨c₁, done₁⟩ := s₁
      obtain rfl : done₁ = [t.expr] ++ done := hdone
      cases sign with
      | none =>
        cases hrun
        exact ⟨_, .sign none t, .sign hmem hderives, hdepth', htokens, rfl⟩
      | some f =>
        dsimp only at hrun
        rw [apply_apply] at hrun
        cases hrun
        exact ⟨_, .sign (some f) t, .sign hmem hderives, hdepth', htokens, rfl⟩

/-- The reader of expressions reads nothing but expressions, and its operands are operands. -/
theorem reads_reader (limit n : ℕ) : Reads (reader limit n .expression) .expression n ∧
    Reads (reader limit n .operand) .operand (n + 1) := by
  have hthrow : ∀ cat e, Reads (throw e) cat 0 := by
    intro cat e s s' hrun
    cases hrun
  induction n with
  | zero =>
    constructor
    · intro s s' hrun
      cases hrun
    · exact reads_operandWith (hthrow _ _) (hthrow _ _)
  | succ n ih =>
    have hexpression : Reads (reader limit (n + 1) .expression) .expression (n + 1) :=
      reads_expressionWith ih.2 ih.1
    exact ⟨hexpression, reads_operandWith ih.2 hexpression⟩

end Reckon.Expr
