import Reckon.Proofs.Expr.Reading
import Reckon.Proofs.Expr.Unambiguous

/-!
# Everything that is derived is read

Where a phrase of the grammar begins and is not carried on by what follows it, the reader reads that
phrase and leaves behind the expression that its derivation stands for, provided that the limit on
the nesting allows it (`finds_reader`).
-/

namespace Reckon

/-- What a cursor sees next is the first of the tokens up to a cursor at which no token begins. -/
lemma Lexes.token?_eq {c stop : Cursor} {ts : List Lexeme} (h : Lexes c ts stop)
    (hstop : stop.Halts) : c.token? = ts.head?.map Lexeme.token := by
  cases ts with
  | nil => rw [← Cursor.token?_skipBlanks, nil_iff.1 h, Cursor.token?_skipBlanks, hstop]; rfl
  | cons l ts => exact (cons_iff.1 h).1

namespace Expr

open Outcome

/-- A reader finds the phrases of a category that are nested less deep than a bound, where at most
`count` tokens are left. -/
def Finds (x : Reader Expr Unit) (cat : Category) (bound count : ℕ) : Prop :=
  ∀ (c stop : Cursor) (ts rest : List Lexeme) (t : Tree) (done : List Expr), Derives cat ts t →
    t.depth < bound → cat.Stops rest → Lexes c (ts ++ rest) stop → stop.Halts →
    (ts ++ rest).length ≤ count →
    ∃ c', x ⟨c, done⟩ = .ok () ⟨c', t.expr :: done⟩ ∧ Lexes c' rest stop

variable {operand branch inner group tighter : Reader Expr Unit} {bound count : ℕ}
  {operators : List (Spelling × BinaryOp)} {levels : Levels} {left t : Tree}
  {c stop : Cursor} {ts us rest : List Lexeme} {done base : List Expr}

/-- A mark that does not follow is not read. -/
lemma token?_ne_of_stops {cat : Category} {s : Spelling} (hlexes : Lexes c rest stop)
    (hstop : stop.Halts) (hstops : cat.Stops rest) (hs : s ∈ cat.continuations) :
    c.token? ≠ some (.symbol s) := by
  rw [hlexes.token?_eq hstop]
  cases rest with
  | nil => simp
  | cons l rest => simpa using hstops l rfl s hs

lemma find?_eq_none_of_stops {s : Spelling}
    (hstops : (Category.pairs operators levels left).Stops rest)
    (hs : c.token? = some (.symbol s)) (hlexes : Lexes c rest stop) (hstop : stop.Halts) :
    operators.find? (fun candidate => candidate.1 = s) = none := by
  rw [List.find?_eq_none]
  intro candidate hmem heq
  obtain rfl : candidate.1 = s := by simpa using heq
  exact token?_ne_of_stops hlexes hstop hstops (Category.mem_continuations_of_mem hmem) hs

lemma find?_eq_some_of_mem {s : Spelling} {f : BinaryOp}
    (hnodup : (Category.pairs operators levels left).continuations.Nodup)
    (hmem : (s, f) ∈ operators) :
    operators.find? (fun candidate => candidate.1 = s) = some (s, f) := by
  obtain ⟨found, hfound⟩ : ∃ found, operators.find? (fun candidate => candidate.1 = s) =
      some found := by
    rw [← Option.isSome_iff_exists, List.find?_isSome]
    exact ⟨(s, f), hmem, by simp⟩
  have hspelling : found.1 = s := by simpa using List.find?_some hfound
  have hfoundmem := List.mem_of_find?_eq_some hfound
  obtain ⟨s', g⟩ := found
  obtain rfl : s' = s := hspelling
  rw [hfound, Derives.eq_of_mem_operators hnodup hfoundmem hmem]

/-- Pairs are nested at least as deep as the operand that they extend. -/
lemma depth_le_of_pairs (h : Derives (.pairs operators levels left) us t) :
    left.depth ≤ t.depth := by
  generalize hcat : Category.pairs operators levels left = cat at h
  induction h generalizing left with
  | done =>
    cases hcat
    exact le_rfl
  | pair _ _ _ _ ih =>
    cases hcat
    exact le_trans (le_max_left _ _) (ih rfl)
  | simple | choice | tightest | level | primary | sign | number | group | constant | apply₁
  | apply₂ | var => cases hcat

/-- The pairs of a level are read as far as they go. -/
lemma pairs_of_derives (htighter : Finds tighter (.level levels) bound count)
    (h : ∀ candidate ∈ operators, candidate.1 ∈ binaryOperators.vocabulary)
    (hnodup : (Category.pairs operators levels left).continuations.Nodup)
    (hpairs : Derives (.pairs operators levels left) us t) (hdepth : t.depth < bound)
    (hstops : (Category.pairs operators levels left).Stops rest)
    (hlexes : Lexes c (us ++ rest) stop) (hstop : stop.Halts) (hcount : (us ++ rest).length ≤ count)
    {turns : ℕ} (hturns : us.length ≤ turns) :
    ∃ c', (grammar operand).pairs operators tighter base.length turns ⟨c, left.expr :: base⟩ =
      .ok () ⟨c', t.expr :: base⟩ ∧ Lexes c' rest stop := by
  generalize hcat : Category.pairs operators levels left = cat at hpairs
  induction hpairs generalizing left c turns with
  | done =>
    cases hcat
    cases turns with
    | zero => exact ⟨c, rfl, hlexes⟩
    | succ turns =>
      rw [pairs_succ operand h]
      rcases htoken : c.token? with _ | ⟨n⟩ | ⟨name⟩ | ⟨s⟩
      · exact ⟨c.skipBlanks, rfl, hlexes.congr_left (by simp)⟩
      · exact ⟨c.skipBlanks, rfl, hlexes.congr_left (by simp)⟩
      · exact ⟨c.skipBlanks, rfl, hlexes.congr_left (by simp)⟩
      · dsimp only
        rw [find?_eq_none_of_stops hstops htoken hlexes hstop]
        exact ⟨c.skipBlanks, rfl, hlexes.congr_left (by simp)⟩
  | @pair _ _ ts us left right t s f o hmem hright hpairs _ ih =>
    cases hcat
    rw [List.cons_append, List.append_assoc] at hlexes
    rw [List.cons_append, List.append_assoc, List.length_cons] at hcount
    rw [List.length_cons, List.length_append] at hturns
    obtain ⟨htoken, -, hrest⟩ := Lexes.cons_iff.1 hlexes
    have hbinary : (Tree.binary f left right).depth ≤ t.depth := depth_le_of_pairs hpairs
    have hrightdepth : right.depth < bound :=
      lt_of_le_of_lt (le_trans (le_max_right _ _) hbinary) hdepth
    obtain ⟨c₁, hrun, hrest⟩ := htighter _ stop ts (us ++ rest) right (left.expr :: base) hright
      hrightdepth (hpairs.stops_tighter hnodup hstops) hrest hstop (by omega)
    cases turns with
    | zero => omega
    | succ turns =>
      rw [List.length_append] at hcount
      have hnodup' : (Category.pairs operators levels
        (.binary f left right)).continuations.Nodup := hnodup
      have hstops' : (Category.pairs operators levels (.binary f left right)).Stops rest := hstops
      obtain ⟨c₂, hrun', hrest'⟩ := ih hnodup' hdepth hstops' hrest (by omega)
        (show us.length ≤ turns by omega) rfl
      refine ⟨c₂, ?_, hrest'⟩
      rw [pairs_succ operand h, htoken]
      dsimp only
      rw [find?_eq_some_of_mem hnodup hmem]
      dsimp only
      rw [bind_apply, hrun]
      dsimp only
      have happly := apply_apply f.mnemonic (.binary f) c₁ [right.expr, left.expr] base
      rw [List.cons_append, List.cons_append, List.nil_append] at happly
      rw [bind_apply, happly]
      exact hrun'
  | simple | choice | tightest | level | primary | sign | number | group | constant | apply₁
  | apply₂ | var => cases hcat

/-- Levels of binary operators around operands. -/
lemma finds_climb (hoperand : ∀ count, Finds operand .operand bound count)
    (h : ∀ operators ∈ levels, ∀ candidate ∈ operators, candidate.1 ∈ binaryOperators.vocabulary)
    (hnodup : (Category.level levels).continuations.Nodup) (turns : ℕ) :
    Finds ((grammar operand).climb turns levels) (.level levels) bound turns := by
  induction levels with
  | nil =>
    intro c stop ts rest t done hderives hdepth _ hlexes hstop hcount
    cases hderives with
    | tightest hderives =>
      exact hoperand turns c stop ts rest t done hderives hdepth Category.stops_operand hlexes hstop
        hcount
  | cons operators levels ih =>
    have htighter := ih (fun o ho => h o (List.mem_cons_of_mem _ ho))
      (Category.nodup_tighter hnodup)
    intro c stop ts rest t done hderives hdepth hstops hlexes hstop hcount
    cases hderives with
    | @level _ _ ts us left _ hleft hpairs =>
      rw [List.append_assoc] at hlexes hcount
      have hleftdepth := lt_of_le_of_lt (depth_le_of_pairs hpairs) hdepth
      obtain ⟨c₁, hrun, hrest⟩ := htighter c stop ts (us ++ rest) left done hleft hleftdepth
        (hpairs.stops_tighter hnodup hstops) hlexes hstop hcount
      rw [List.length_append, List.length_append] at hcount
      obtain ⟨c₂, hrun', hrest'⟩ := pairs_of_derives htighter (h operators List.mem_cons_self)
        hnodup hpairs hdepth hstops hrest hstop (by rw [List.length_append]; omega)
        (show us.length ≤ turns by omega)
      refine ⟨c₂, ?_, hrest'⟩
      rw [Grammar.climb, bind_apply, Reader.mark]
      dsimp only
      rw [bind_apply, hrun]
      exact hrun'

/-- A choice is found by its question mark. -/
lemma finds_expressionWith (hoperand : ∀ count, Finds operand .operand (bound + 1) count)
    (hbranch : ∀ count, Finds branch .expression bound count) (count : ℕ) :
    Finds (expressionWith operand branch) .expression (bound + 1) count := by
  have hclimb := finds_climb hoperand mem_vocabulary_of_mem_levels (by decide)
  have hquestion : ['?'] ∉ (Category.level levels).continuations := by decide
  have hcolon : [':'] ∉ Category.expression.continuations := by decide
  intro c stop ts rest t done hderives hdepth hstops hlexes hstop hcount
  have hturns : ∀ {us : List Lexeme}, Lexes c us stop → us.length ≤ c.rest.length := by
    intro us hus
    have hle := hus.length_add_le
    omega
  rw [expressionWith_apply]
  cases hderives with
  | simple hderives =>
    obtain ⟨c₁, hrun, hrest⟩ := hclimb c.rest.length c stop ts rest t done hderives hdepth
      hstops.level hlexes hstop (hturns hlexes)
    have hne := token?_ne_of_stops hrest hstop hstops List.mem_cons_self
    rw [hrun]
    dsimp only
    rw [if_neg hne]
    exact ⟨c₁.skipBlanks, rfl, hrest.congr_left (by simp)⟩
  | @choice ts us vs test yes no o p htest hyes hno =>
    rw [Tree.depth] at hdepth
    simp only [List.append_assoc, List.cons_append] at hlexes
    obtain ⟨c₁, hrun, hrest⟩ := hclimb c.rest.length c stop ts _ test done htest (by omega)
      (Category.stops_symbol_cons_iff.2 hquestion) hlexes hstop (hturns hlexes)
    obtain ⟨htoken, -, hrest⟩ := Lexes.cons_iff.1 hrest
    obtain ⟨c₂, hyesrun, hrest⟩ := hbranch _ _ stop us _ yes (test.expr :: done) hyes (by omega)
      (Category.stops_symbol_cons_iff.2 hcolon) hrest hstop le_rfl
    obtain ⟨htoken', -, hrest⟩ := Lexes.cons_iff.1 hrest
    obtain ⟨c₃, hnorun, hrest⟩ := hbranch _ _ stop vs rest no (yes.expr :: test.expr :: done) hno
      (by omega) hstops hrest hstop le_rfl
    refine ⟨c₃, ?_, hrest⟩
    have hreduce := Reader.reduceSince_apply choice?
      (fun found => .argumentCount "?:" 3 found.length) c₃ [no.expr, yes.expr, test.expr] done
    rw [hrun]
    dsimp only
    rw [if_pos htoken, bind_apply, hyesrun]
    dsimp only
    rw [bind_apply, Reader.expect_apply isMark_colon, if_pos htoken']
    dsimp only
    rw [bind_apply, hnorun]
    exact hreduce

/-- The arguments of a function are read up to the closing parenthesis. -/
lemma arguments_of_derives (hgroup : ∀ count, Finds group .expression bound count)
    {args : List Tree} (hargs : Arguments ts args) (hdepths : ∀ t ∈ args, t.depth < bound)
    (hlexes : Lexes c (ts ++ rest) stop) (hstop : stop.Halts) {turns : ℕ} (opening : ℕ)
    (hturns : ts.length ≤ turns) (done : List Expr) :
    ∃ c', arguments group opening turns ⟨c, done⟩ =
      .ok () ⟨c', (args.map Tree.expr).reverse ++ done⟩ ∧ Lexes c' rest stop := by
  have hclose : [')'] ∉ Category.expression.continuations := by decide
  have hcomma : [','] ∉ Category.expression.continuations := by decide
  induction hargs generalizing c done turns with
  | @last ts t o hderives =>
    rw [List.append_assoc] at hlexes
    rw [List.length_append, List.length_singleton] at hturns
    obtain ⟨turns, rfl⟩ := Nat.exists_eq_add_of_le' (Nat.le_of_add_left_le hturns)
    obtain ⟨c₁, hrun, hrest⟩ := hgroup _ c stop ts _ t done hderives (hdepths t (by simp))
      (Category.stops_symbol_cons_iff.2 hclose) hlexes hstop le_rfl
    obtain ⟨htoken, -, hrest⟩ := Lexes.cons_iff.1 hrest
    refine ⟨c₁.past (.symbol [')']), ?_, hrest⟩
    rw [arguments_succ, hrun]
    dsimp only
    rw [if_neg (by simp [htoken]), Reader.closeGroup_apply, if_pos (by simpa using htoken)]
    simp
  | @more ts us t args o hderives _ ih =>
    rw [List.append_assoc, List.cons_append] at hlexes
    rw [List.length_append, List.length_cons] at hturns
    obtain ⟨turns, rfl⟩ := Nat.exists_eq_add_of_le' (show 1 ≤ turns by omega)
    obtain ⟨c₁, hrun, hrest⟩ := hgroup _ c stop ts _ t done hderives (hdepths t (by simp))
      (Category.stops_symbol_cons_iff.2 hcomma) hlexes hstop le_rfl
    obtain ⟨htoken, -, hrest⟩ := Lexes.cons_iff.1 hrest
    obtain ⟨c₂, hrun', hrest'⟩ := ih (fun u hu => hdepths u (List.mem_cons_of_mem t hu)) hrest
      (show us.length ≤ turns by omega) (t.expr :: done)
    refine ⟨c₂, ?_, hrest'⟩
    rw [arguments_succ, hrun]
    dsimp only
    rw [if_pos htoken, hrun']
    simp

/-- A function is applied to its arguments. -/
lemma call_of_derives (hgroup : ∀ count, Finds group .expression bound count) {args : List Tree}
    (hargs : Arguments ts args) (hdepths : ∀ t ∈ args, t.depth < bound) {o : ℕ}
    (hlexes : Lexes c (⟨.symbol ['('], o⟩ :: (ts ++ rest)) stop) (hstop : stop.Halts)
    (function : Builtin) {e : Expr} (hbuild : function.meaning.build? (args.map Tree.expr) = some e)
    (position : ℕ) (done : List Expr) :
    ∃ c', call group function position ⟨c, done⟩ = .ok () ⟨c', e :: done⟩ ∧
      Lexes c' rest stop := by
  obtain ⟨htoken, -, hrest⟩ := Lexes.cons_iff.1 hlexes
  have hne : (c.past (.symbol ['('])).token? ≠ some (.symbol [')']) := by
    obtain ⟨us, t, more, rfl, hderives⟩ : ∃ us t more, ts = us ++ more ∧
        Derives .expression us t := by
      cases hargs with
      | last hderives => exact ⟨_, _, _, rfl, hderives⟩
      | more hderives _ => exact ⟨_, _, _, rfl, hderives⟩
    obtain ⟨l, more, rfl, hopener⟩ := hderives.head (by simp)
    rw [hrest.token?_eq hstop]
    intro hclose
    have hopens : [')'] ∈ Derives.openers := hopener _ (Option.some.inj hclose)
    exact absurd hopens (by decide)
  have hskip : Lexes (c.past (.symbol ['('])).skipBlanks (ts ++ rest) stop :=
    hrest.congr_left (by simp)
  have hlength := hskip.length_add_le
  rw [List.length_append] at hlength
  have hturns : ts.length ≤ (c.past (.symbol ['('])).skipBlanks.rest.length + 1 := by omega
  obtain ⟨c₁, hrun, hrest'⟩ := arguments_of_derives hgroup hargs hdepths hskip hstop
    c.skipBlanks.offset hturns done
  refine ⟨c₁, ?_, hrest'⟩
  rw [call_apply, if_pos htoken, if_neg hne, bind_apply, hrun]
  dsimp only
  rw [apply_apply, List.reverse_reverse, hbuild]

/-- A primary is told by its first token. -/
lemma finds_primary (hgroup : ∀ count, Finds group .expression bound count) (count : ℕ) :
    Finds (primary group) .primary (bound + 1) count := by
  have hclose : [')'] ∉ Category.expression.continuations := by decide
  intro c stop ts rest t done hderives hdepth _ hlexes hstop _
  rw [primary_apply]
  cases hderives with
  | @number n x o hwritten hx =>
    obtain ⟨htoken, -, hrest⟩ := Lexes.cons_iff.1 hlexes
    rw [htoken]
    dsimp only
    rw [(Numeral.denotes_iff hwritten).1 hx]
    exact ⟨_, rfl, hrest⟩
  | @group ts t o p hderives =>
    rw [List.cons_append, List.append_assoc] at hlexes
    obtain ⟨htoken, -, hrest⟩ := Lexes.cons_iff.1 hlexes
    obtain ⟨c₁, hrun, hrest⟩ := hgroup _ _ stop ts _ t done hderives (Nat.lt_of_succ_lt_succ hdepth)
      (Category.stops_symbol_cons_iff.2 hclose) hrest hstop le_rfl
    obtain ⟨htoken', -, hrest⟩ := Lexes.cons_iff.1 hrest
    refine ⟨c₁.past (.symbol [')']), ?_, hrest⟩
    rw [htoken]
    dsimp only
    rw [bind_apply, hrun]
    dsimp only
    rw [Reader.closeGroup_apply, if_pos htoken']
    rfl
  | @constant name constant o hname =>
    obtain ⟨htoken, -, hrest⟩ := Lexes.cons_iff.1 hlexes
    obtain ⟨⟨functionName, meaning⟩, hlookup, hmeaning⟩ := Option.map_eq_some_iff.1
      (Builtin.mem_dictionary_iff.1 hname)
    obtain rfl : meaning = .constant constant := hmeaning
    refine ⟨c.past (.name name), ?_, hrest⟩
    rw [htoken]
    dsimp only
    rw [named, hlookup]
    rfl
  | @var name o hname =>
    obtain ⟨htoken, hoffset, hrest⟩ := Lexes.cons_iff.1 hlexes
    obtain rfl : o = c.skipBlanks.offset := hoffset
    refine ⟨c.past (.name name), ?_, hrest⟩
    rw [htoken]
    dsimp only
    rw [named, Builtin.notMem_dictionary_iff.1 hname]
    rfl
  | @apply₁ name f ts t o p q hname hderives =>
    obtain ⟨htoken, -, hrest⟩ := Lexes.cons_iff.1 hlexes
    obtain ⟨⟨functionName, meaning⟩, hlookup, hmeaning⟩ := Option.map_eq_some_iff.1
      (Builtin.mem_dictionary_iff.1 hname)
    obtain rfl : meaning = .unary f := hmeaning
    obtain ⟨c₁, hrun, hrest⟩ := call_of_derives hgroup (.last hderives)
      (by simpa using Nat.lt_of_succ_lt_succ hdepth) hrest hstop
      ⟨functionName, .unary f⟩ rfl c.skipBlanks.offset done
    refine ⟨c₁, ?_, hrest⟩
    rw [htoken]
    dsimp only
    rw [named, hlookup]
    exact hrun
  | @apply₂ name f ts us t u o p q r hname hfirst hsecond =>
    obtain ⟨htoken, -, hrest⟩ := Lexes.cons_iff.1 hlexes
    obtain ⟨⟨functionName, meaning⟩, hlookup, hmeaning⟩ := Option.map_eq_some_iff.1
      (Builtin.mem_dictionary_iff.1 hname)
    obtain rfl : meaning = .binary f := hmeaning
    have hdepths : t.depth < bound ∧ u.depth < bound := Nat.max_lt.1 (Nat.lt_of_succ_lt_succ hdepth)
    obtain ⟨c₁, hrun, hrest⟩ := call_of_derives hgroup (.more hfirst (.last hsecond))
      (by simpa using hdepths) hrest hstop ⟨functionName, .binary f⟩ rfl
      c.skipBlanks.offset done
    refine ⟨c₁, ?_, hrest⟩
    rw [htoken]
    dsimp only
    rw [named, hlookup]
    exact hrun

/-- A sign is read before its operand. -/
lemma finds_operandWith (hinner : ∀ count, Finds inner .operand bound count)
    (hgroup : ∀ count, Finds group .expression bound count) (count : ℕ) :
    Finds (operandWith inner group) .operand (bound + 1) count := by
  intro c stop ts rest t done hderives hdepth hstops hlexes hstop hcount
  rw [operandWith_apply]
  cases hderives with
  | primary hprimary =>
    obtain ⟨l, more, rfl, hsign, -⟩ := hprimary.primary_head
    rw [hlexes.token?_eq hstop, List.cons_append, List.head?_cons, Option.map_some,
      Option.bind_some, hsign]
    exact finds_primary hgroup count _ stop _ rest t done hprimary hdepth Category.stops_primary
      (hlexes.congr_left (by simp)) hstop hcount
  | @sign ts t ch f o hmem hderives =>
    obtain ⟨htoken, -, hrest⟩ := Lexes.cons_iff.1 hlexes
    obtain ⟨c₁, hrun, hrest⟩ := hinner _ _ stop ts rest t done hderives
      (Nat.lt_of_succ_lt_succ hdepth) Category.stops_operand hrest hstop le_rfl
    refine ⟨c₁, ?_, hrest⟩
    have hrun : inner ⟨c.skipBlanks.skip 1, done⟩ = .ok () ⟨c₁, t.expr :: done⟩ := hrun
    rw [htoken, Option.bind_some, Derives.sign?_of_isSign hmem]
    dsimp only
    rw [bind_apply, hrun]
    cases f with
    | none => rfl
    | some f => exact apply_apply f.mnemonic (.unary f) c₁ [t.expr] done

/-- The reader of expressions reads every expression that is nested no deeper than its limit. -/
theorem finds_reader (limit n : ℕ) :
    (∀ count, Finds (reader limit n .expression) .expression n count) ∧
      ∀ count, Finds (reader limit n .operand) .operand (n + 1) count := by
  have hnone : ∀ x cat count, Finds x cat 0 count := by
    intro x cat count c stop ts rest t done _ hdepth
    exact absurd hdepth (Nat.not_lt_zero _)
  induction n with
  | zero => exact ⟨hnone _ _, finds_operandWith (hnone _ _) (hnone _ _)⟩
  | succ n ih =>
    have hexpression := finds_expressionWith ih.2 ih.1
    exact ⟨hexpression, finds_operandWith ih.2 hexpression⟩

end Expr

end Reckon
