import Reckon.Proofs.Expr.Token

/-!
# The tokens between two cursors

`Lexes` says which tokens stand between two cursors, with blanks anywhere between them and the place
of each token beside it.  At most one sequence of tokens leads to a cursor at which no token begins.

A reader of expressions sees nothing of a text but its next token, `Cursor.token?`: every step of a
cursor is given here in terms of it (`Cursor.number_eq`, `Cursor.name_eq`, `Cursor.eat_eq`,
`Cursor.operator_eq`, `Cursor.sign_eq`).
-/

namespace Reckon

/-- A token and the place where it is written. -/
structure Lexeme where
  token : Token
  offset : Nat
  deriving DecidableEq

namespace Cursor

/-- The next token. -/
def token? (c : Cursor) : Option Token := Token.first? c.skipBlanks.rest

/-- The cursor behind the next token. -/
def past (c : Cursor) (t : Token) : Cursor := c.skipBlanks.skip t.text.length

/-- The next tokens, so many if there are as many, and the cursor behind them. -/
def lexemes : ℕ → Cursor → List Lexeme × Cursor
  | 0, c => ([], c)
  | count + 1, c =>
    match c.token? with
    | none => ([], c)
    | some t =>
      let later := (c.past t).lexemes count
      (⟨t, c.skipBlanks.offset⟩ :: later.1, later.2)

/-- Whether no token begins at a cursor. -/
def Halts (c : Cursor) : Prop := c.token? = none

end Cursor

/-- The tokens that stand between two cursors, with blanks anywhere between them.  Each is the
longest that begins at its place. -/
inductive Lexes : Cursor → List Lexeme → Cursor → Prop
  | done {c d stop : Cursor} : c.Clears d → stop.Clears d → Lexes c [] stop
  | next {c d stop : Cursor} {t : Token} {ts : List Lexeme} {tail : List Char} : c.Clears d →
      t.IsFirst d.rest → d.rest = t.text ++ tail →
      Lexes ⟨tail, d.offset + utf8Length t.text⟩ ts stop → Lexes c (⟨t, d.offset⟩ :: ts) stop

namespace Cursor

variable {c d : Cursor} {t : Token}

/-- Blanks do not change the next token. -/
@[simp] lemma token?_skipBlanks (c : Cursor) : c.skipBlanks.token? = c.token? := by
  rw [token?, token?, skipBlanks_skipBlanks]

/-- Blanks do not change what is behind the next token. -/
@[simp] lemma past_skipBlanks (c : Cursor) (t : Token) : c.skipBlanks.past t = c.past t := by
  rw [past, past, skipBlanks_skipBlanks]

/-- A token is found if it is the first one behind the blanks. -/
lemma token?_eq_some_iff : c.token? = some t ↔ t.IsFirst c.skipBlanks.rest :=
  Token.first?_eq_some_iff

/-- No token begins at the end. -/
lemma halts_of_atEnd (h : c.atEnd) : c.Halts := by
  have hnone : Token.first? [] = none := by decide
  rw [Halts, token?, List.isEmpty_iff.1 h, hnone]

/-- A token that is read makes the rest shorter. -/
lemma length_past (h : c.token? = some t) :
    (c.past t).rest.length + t.text.length = c.skipBlanks.rest.length := by
  have hle := (token?_eq_some_iff.1 h).1.2.length_le
  rw [past, skip, List.length_drop]
  omega

/-- Past a token less is left than before it. -/
lemma length_past_lt (h : c.token? = some t) : (c.past t).rest.length < c.rest.length := by
  have hpast := length_past h
  have hpos := (token?_eq_some_iff.1 h).1.length_pos
  have hle := c.length_skipBlanks_le
  omega

end Cursor

namespace Lexes

variable {c d e : Cursor} {t : Token} {ts us : List Lexeme}

/-- Up to a cursor that only blanks are away there are no tokens. -/
lemma stop (h : c.skipBlanks = d.skipBlanks) : Lexes c [] d :=
  .done (Cursor.clears_iff.2 h) (Cursor.clears_iff.2 rfl)

/-- The cursor behind a token is where it passes the token. -/
lemma past_eq {tail : List Char} (htail : c.skipBlanks.rest = t.text ++ tail) :
    c.past t = ⟨tail, c.skipBlanks.offset + utf8Length t.text⟩ := by
  rw [Cursor.past, Cursor.skip, htail, List.drop_left, List.take_left]

/-- The next token, and those behind it. -/
lemma token (hfirst : t.IsFirst c.skipBlanks.rest) (hrest : Lexes (c.past t) ts d) :
    Lexes c (⟨t, c.skipBlanks.offset⟩ :: ts) d := by
  obtain ⟨tail, htail⟩ := hfirst.1.2
  exact .next (Cursor.clears_iff.2 rfl) hfirst htail.symm (past_eq htail.symm ▸ hrest)

/-- Induction by the steps of a cursor, which passes blanks and tokens. -/
@[elab_as_elim]
lemma stepRec {c : Cursor} {ts : List Lexeme} {d : Cursor}
    {motive : (c : Cursor) → (ts : List Lexeme) → (d : Cursor) → Lexes c ts d → Prop}
    (stop : ∀ {c d : Cursor} (h : c.skipBlanks = d.skipBlanks), motive c [] d (.stop h))
    (token : ∀ {c d : Cursor} {t : Token} {ts : List Lexeme} (hfirst : t.IsFirst c.skipBlanks.rest)
      (hrest : Lexes (c.past t) ts d), motive (c.past t) ts d hrest →
      motive c (⟨t, c.skipBlanks.offset⟩ :: ts) d (.token hfirst hrest))
    (h : Lexes c ts d) : motive c ts d h := by
  induction h with
  | done hc hd => exact stop ((Cursor.clears_iff.1 hc).trans (Cursor.clears_iff.1 hd).symm)
  | @next c _ d t ts tail hc hfirst htail hrest ih =>
    obtain rfl := Cursor.clears_iff.1 hc
    have hstep : ∀ (behind : Cursor), behind = c.past t → ∀ hrest : Lexes behind ts d,
        motive behind ts d hrest →
        ∃ h, motive c (⟨t, c.skipBlanks.offset⟩ :: ts) d h := by
      rintro _ rfl hrest ih
      exact ⟨_, token hfirst hrest ih⟩
    obtain ⟨_, hmotive⟩ := hstep _ (past_eq htail).symm hrest ih
    exact hmotive

/-- Blanks before the first token do not matter. -/
lemma congr_left (h : Lexes c ts e) (hd : c.skipBlanks = d.skipBlanks) : Lexes d ts e := by
  induction h using stepRec with
  | stop hstop => exact .stop (hd.symm.trans hstop)
  | token hfirst hrest =>
    rw [hd] at hfirst ⊢
    refine .token hfirst ?_
    rwa [Cursor.past, hd] at hrest

/-- Blanks behind the last token do not matter. -/
lemma congr_right (h : Lexes c ts d) (he : d.skipBlanks = e.skipBlanks) : Lexes c ts e := by
  induction h using stepRec with
  | stop hstop => exact .stop (hstop.trans he)
  | token hfirst _ ih => exact .token hfirst (ih he)

/-- Tokens that follow one another. -/
lemma append (hts : Lexes c ts d) (hus : Lexes d us e) : Lexes c (ts ++ us) e := by
  induction hts using stepRec with
  | stop hstop => exact hus.congr_left hstop.symm
  | token hfirst _ ih => exact .token hfirst (ih hus)

/-- The next token is the first of those that follow. -/
lemma cons_iff {l : Lexeme} : Lexes c (l :: ts) d ↔
    c.token? = some l.token ∧ l.offset = c.skipBlanks.offset ∧ Lexes (c.past l.token) ts d := by
  constructor
  · intro h
    generalize hus : l :: ts = us at h
    induction h using stepRec with
    | stop => contradiction
    | token hfirst hrest =>
      obtain ⟨rfl, rfl⟩ := List.cons.inj hus
      exact ⟨Cursor.token?_eq_some_iff.2 hfirst, rfl, hrest⟩
  · rintro ⟨htoken, hoffset, hrest⟩
    obtain ⟨t, offset⟩ := l
    obtain rfl : offset = c.skipBlanks.offset := hoffset
    exact .token (Cursor.token?_eq_some_iff.1 htoken) hrest

/-- The next token, as a cursor finds it. -/
lemma cons (h : c.token? = some t) (hrest : Lexes (c.past t) ts d) :
    Lexes c (⟨t, c.skipBlanks.offset⟩ :: ts) d :=
  .token (Cursor.token?_eq_some_iff.1 h) hrest

/-- If there are no tokens up to a cursor, then what follows is the same. -/
lemma nil_iff : Lexes c [] d ↔ c.skipBlanks = d.skipBlanks := by
  refine ⟨fun h => ?_, .stop⟩
  generalize hts : [] = ts at h
  induction h using stepRec with
  | stop hstop => exact hstop
  | token => contradiction

/-- First tokens lead to a cursor where the others begin. -/
lemma exists_of_append (h : Lexes c (ts ++ us) e) : ∃ d, Lexes c ts d ∧ Lexes d us e := by
  induction ts generalizing c with
  | nil => exact ⟨c, .stop rfl, h⟩
  | cons l ts ih =>
    obtain ⟨htoken, hoffset, hrest⟩ := cons_iff.1 h
    obtain ⟨d, hts, hus⟩ := ih hrest
    exact ⟨d, cons_iff.2 ⟨htoken, hoffset, hts⟩, hus⟩

/-- The tokens that a cursor finds. -/
lemma of_lexemes (count : ℕ) (h : c.lexemes count = (ts, d)) : Lexes c ts d := by
  induction count generalizing c ts with
  | zero =>
    obtain ⟨rfl, rfl⟩ := Prod.mk.inj h
    exact .stop rfl
  | succ count ih =>
    rw [Cursor.lexemes] at h
    split at h
    · obtain ⟨rfl, rfl⟩ := Prod.mk.inj h
      exact .stop rfl
    · rename_i t htoken
      obtain ⟨rfl, rfl⟩ := Prod.mk.inj h
      exact cons htoken (ih rfl)

/-- The token that is read next. -/
lemma single (h : c.token? = some t) : Lexes c [⟨t, c.skipBlanks.offset⟩] (c.past t) :=
  cons h (.stop rfl)

/-- Every token takes at least one character. -/
lemma length_add_le (h : Lexes c ts d) :
    ts.length + d.skipBlanks.rest.length ≤ c.rest.length := by
  induction h using stepRec with
  | stop hstop =>
    rw [List.length_nil, Nat.zero_add, ← hstop]
    exact Cursor.length_skipBlanks_le _
  | token hfirst _ ih =>
    have hlt := Cursor.length_past_lt (Cursor.token?_eq_some_iff.2 hfirst)
    rw [List.length_cons]
    omega

/-- The tokens up to a cursor at which no token begins are determined by the text. -/
lemma unique (hts : Lexes c ts d) (hus : Lexes c us e) (hd : d.Halts) (he : e.Halts) :
    ts = us ∧ d.skipBlanks = e.skipBlanks := by
  induction hts using stepRec generalizing us with
  | @stop c d hstop =>
    rcases us with _ | ⟨l, us⟩
    · exact ⟨rfl, hstop.symm.trans (nil_iff.1 hus)⟩
    · have htoken := (cons_iff.1 hus).1
      rw [← Cursor.token?_skipBlanks, hstop, Cursor.token?_skipBlanks, hd] at htoken
      contradiction
  | @token c d t ts hfirst _ ih =>
    have htoken := Cursor.token?_eq_some_iff.2 hfirst
    rcases us with _ | ⟨⟨u, offset⟩, us⟩
    · rw [← Cursor.token?_skipBlanks, nil_iff.1 hus, Cursor.token?_skipBlanks, he] at htoken
      contradiction
    · obtain ⟨hl, hoffset, hrest⟩ := cons_iff.1 hus
      obtain rfl : u = t := Option.some.inj (hl.symm.trans htoken)
      obtain rfl : offset = c.skipBlanks.offset := hoffset
      obtain ⟨rfl, hstops⟩ := ih hrest hd
      exact ⟨rfl, hstops⟩

end Lexes

/-! ## What a cursor reads -/

namespace Token

variable {t : Token} {text : List Char}

/-- Where a name stands, it is the first token. -/
lemma first?_of_nameAt? {found : List Char} (h : nameAt? text = some found) :
    first? text = some (name (String.ofList found)) := by
  have hbegins := (begins_of_nameAt? h).1
  have hnumeral : Numeral.at? text = none := by
    by_contra hsome
    obtain ⟨n, hn⟩ := Option.ne_none_iff_exists'.1 hsome
    have hnbegins : (numeral n).Begins text := Numeral.isWritten_of_at? hn
    exact nomatch hnbegins.kind_eq hbegins
  simp [first?, hnumeral, h]

/-- The sign that a token begins with. -/
def sign? : Token → Option (Option UnaryOp)
  | symbol spelling => spelling.head?.bind fun c => Expr.signs.lookup c
  | _ => none

end Token

namespace Cursor

open Token

variable {c : Cursor} {ch : Char}

/-- The scanner finds a number if the next token is a numeral with a value. -/
lemma number_eq (c : Cursor) : c.number =
    match c.token? with
    | some (.numeral n) =>
      match n.value? with
      | some x => (.ok (some x), c.past (.numeral n))
      | none => (.error (.invalidNumber (String.ofList n.text) c.skipBlanks.offset), c.skipBlanks)
    | _ => (.ok none, c.skipBlanks) := by
  unfold number token? first?
  dsimp only
  cases Numeral.at? c.skipBlanks.rest with
  | some n =>
    dsimp only
    cases n.value? <;> rfl
  | none =>
    dsimp only
    cases nameAt? c.skipBlanks.rest with
    | some found => rfl
    | none => cases longestSpelling symbols c.skipBlanks.rest <;> rfl

/-- The scanner finds a name behind the blanks, if there is one. -/
lemma name_eq_nameAt? (c : Cursor) : c.name =
    match nameAt? c.skipBlanks.rest with
    | some found => (some (String.ofList found), c.skipBlanks.skip found.length)
    | none => (none, c.skipBlanks) := by
  unfold name
  dsimp only
  cases c.skipBlanks.rest with
  | nil => rfl
  | cons first more =>
    dsimp only [nameAt?]
    by_cases hfirst : isNameStart first <;> simp [hfirst]

/-- The scanner finds a name if the next token is one. -/
lemma name_eq (c : Cursor) : c.name =
    match c.token? with
    | some (.name found) => (some found, c.past (.name found))
    | _ => (none, c.skipBlanks) := by
  rw [name_eq_nameAt?]
  cases hfound : nameAt? c.skipBlanks.rest with
  | some found =>
    rw [token?, first?_of_nameAt? hfound]
    simp [past, Token.text]
  | none =>
    rw [token?, first?, hfound]
    cases Numeral.at? c.skipBlanks.rest with
    | some n => rfl
    | none => cases longestSpelling symbols c.skipBlanks.rest <;> rfl

/-- The marks that no other symbol begins with. -/
def IsMark (ch : Char) : Prop :=
  [ch] ∈ symbols ∧ ∀ s ∈ symbols, s.head? = some ch → s = [ch]

/-- The character that the scanner sees is a mark if this is the next token. -/
lemma peek_eq_some_iff (h : IsMark ch) : c.peek = some ch ↔ c.token? = some (.symbol [ch]) := by
  unfold peek
  constructor
  · intro hpeek
    obtain ⟨more, hrest⟩ := List.head?_eq_some_iff.1 hpeek
    have hbegins : (Token.symbol [ch]).Begins c.skipBlanks.rest :=
      ⟨h.1, more, by rw [hrest, Token.text, List.singleton_append]⟩
    obtain ⟨t, ht⟩ := Option.ne_none_iff_exists'.1 hbegins.first?_ne_none
    have hfirst := first?_eq_some_iff.1 ht
    have hkind := hfirst.1.kind_eq hbegins
    cases t with
    | symbol s =>
      have hbegins := hfirst.1
      rw [hrest] at hbegins
      have hhead : s.head? = some ch := hbegins.head?_text
      rw [token?, ht, h.2 s hbegins.1 hhead]
    | numeral | name => cases hkind
  · intro htoken
    obtain ⟨rest, hrest⟩ := (token?_eq_some_iff.1 htoken).1.2
    rw [← hrest]
    rfl

/-- A mark is read exactly if it is the next token. -/
lemma eat_eq (c : Cursor) (h : IsMark ch) : c.eat ch =
    if c.token? = some (.symbol [ch]) then (true, c.past (.symbol [ch]))
    else (false, c.skipBlanks) := by
  unfold eat
  by_cases htoken : c.token? = some (.symbol [ch])
  · rw [if_pos htoken, if_pos ((peek_eq_some_iff h).2 htoken)]
    rfl
  · rw [if_neg htoken, if_neg (mt (peek_eq_some_iff h).1 htoken)]

/-- The longest binary operator is the longest symbol, if that is a binary operator. -/
lemma peekOperator_eq (c : Cursor) : c.peekOperator Expr.binaryOperators.vocabulary =
    match c.token? with
    | some (.symbol s) => if s ∈ Expr.binaryOperators.vocabulary then some s else none
    | _ => none := by
  have hmarks : ∀ s ∈ symbols, s ∉ Expr.binaryOperators.vocabulary → s.length = 1 := by decide
  have hwords := mem_symbols_of_mem_vocabulary
  unfold peekOperator
  cases htoken : c.token? with
  | none =>
    rw [longestSpelling_eq_none_iff]
    exact fun u hu hbegins => first?_eq_none_iff.1 htoken (.symbol u) ⟨hwords u hu, hbegins⟩
  | some t =>
    obtain ⟨hbegins, hlongest⟩ := token?_eq_some_iff.1 htoken
    cases t with
    | symbol s =>
      dsimp only
      by_cases hs : s ∈ Expr.binaryOperators.vocabulary
      · rw [if_pos hs, longestSpelling_eq_some_iff]
        exact ⟨hs, hbegins.2, fun u hu hubegins => hlongest (.symbol u) ⟨hwords u hu, hubegins⟩⟩
      · rw [if_neg hs, longestSpelling_eq_none_iff]
        intro u hu hubegins
        -- No longer than a mark, the operator would be that mark.
        have hule : u.length ≤ s.length := hlongest (.symbol u) ⟨hwords u hu, hubegins⟩
        have hupos : 0 < u.length := Begins.length_pos (t := .symbol u) ⟨hwords u hu, hubegins⟩
        have hslength : s.length = 1 := hmarks s hbegins.1 hs
        have hprefixed : u <+: s := List.prefix_of_prefix_length_le hubegins hbegins.2 hule
        obtain rfl : u = s := hprefixed.eq_of_length (by omega)
        exact hs hu
    | numeral | name =>
      dsimp only
      rw [longestSpelling_eq_none_iff]
      intro u hu hubegins
      have hsymbol : (Token.symbol u).Begins c.skipBlanks.rest := ⟨hwords u hu, hubegins⟩
      exact nomatch hbegins.kind_eq hsymbol

/-- An operator is read exactly if the next token is one of the candidates. -/
lemma operator_eq (c : Cursor) {candidates : List (Spelling × BinaryOp)}
    (h : ∀ candidate ∈ candidates, candidate.1 ∈ Expr.binaryOperators.vocabulary) :
    c.operator Expr.binaryOperators.vocabulary candidates =
    match c.token? with
    | some (.symbol s) =>
      match candidates.find? (fun candidate => candidate.1 = s) with
      | none => (none, c.skipBlanks)
      | some candidate => (some candidate.2, c.past (.symbol s))
    | _ => (none, c.skipBlanks) := by
  unfold operator
  rw [peekOperator_eq]
  cases c.token? with
  | none => rfl
  | some t =>
    cases t with
    | symbol s =>
      dsimp only
      by_cases hs : s ∈ Expr.binaryOperators.vocabulary
      · rw [if_pos hs]
        dsimp only
        cases candidates.find? (fun candidate => candidate.1 = s) <;> rfl
      · have hnone : candidates.find? (fun candidate => candidate.1 = s) = none := by
          rw [List.find?_eq_none]
          intro candidate hmem heq
          rw [decide_eq_true_eq] at heq
          exact hs (heq ▸ h candidate hmem)
        rw [if_neg hs, hnone]
    | numeral | name => rfl

/-- Whether a sign follows is seen by the next token. -/
lemma sign_eq (c : Cursor) :
    (c.peek.bind fun ch => Expr.signs.lookup ch) = c.token?.bind sign? := by
  have hsigns : ∀ sign ∈ Expr.signs, [sign.1] ∈ symbols := by decide
  have hmem : ∀ ch, Expr.signs.lookup ch ≠ none → [ch] ∈ symbols := by
    intro ch hne
    obtain ⟨v, hv⟩ := Option.ne_none_iff_exists'.1 hne
    obtain ⟨before, after, hsplit, -⟩ := List.lookup_eq_some_iff.1 hv
    exact hsigns (ch, v) (by simp [hsplit])
  unfold peek token?
  cases hrest : c.skipBlanks.rest with
  | nil =>
    have hnone : first? [] = none := by decide
    rw [hnone]
    rfl
  | cons ch more =>
    rw [List.head?_cons, Option.bind_some]
    -- A sign is a symbol by itself, so that the next token is a symbol too.
    by_cases hsign : Expr.signs.lookup ch = none
    · rw [hsign]
      cases htoken : first? (ch :: more) with
      | none => rfl
      | some t =>
        have hhead := (first?_eq_some_iff.1 htoken).1.head?_text
        cases t with
        | symbol s =>
          have hhead : s.head? = some ch := hhead
          rw [Option.bind_some, sign?, hhead, Option.bind_some, hsign]
        | numeral | name => rfl
    · have hbegins : (Token.symbol [ch]).Begins (ch :: more) :=
        ⟨hmem ch hsign, by simp [Token.text]⟩
      obtain ⟨t, ht⟩ := Option.ne_none_iff_exists'.1 hbegins.first?_ne_none
      have hfirst := first?_eq_some_iff.1 ht
      have hkind := hfirst.1.kind_eq hbegins
      have hhead := hfirst.1.head?_text
      cases t with
      | symbol s =>
        have hhead : s.head? = some ch := hhead
        rw [ht, Option.bind_some, sign?, hhead, Option.bind_some]
      | numeral | name => cases hkind

end Cursor

end Reckon
