import Mathlib.Tactic.Common
import Reckon.Expr.Reading
import Reckon.Proofs.Source.Numeral
import Reckon.Proofs.Source.Operator

/-!
# The tokens of expressions

A text is cut into tokens by maximal munch: of all the tokens it begins with, the longest one is
meant (`Token.IsFirst`).  Whether that is a numeral, a name or a symbol is decided by its first
character, so that the longest token can be found kind by kind (`Token.first?_eq_some_iff`).

`Lexes` says which tokens stand between two cursors, with blanks anywhere between them.
-/

namespace Reckon

/-- The characters that names begin with. -/
lemma isNameStart_iff {c : Char} : isNameStart c = true ↔ c.isAlpha ∨ c = '_' := by
  rw [isNameStart, Bool.or_eq_true, decide_eq_true_eq]

/-- The characters that names go on with. -/
lemma isNamePart_iff {c : Char} : isNamePart c = true ↔ c.isAlphanum ∨ c = '_' := by
  rw [isNamePart, Bool.or_eq_true, decide_eq_true_eq]

/-- The name a text begins with, read as far as it goes. -/
def nameAt? : List Char → Option (List Char)
  | [] => none
  | c :: more => if isNameStart c then some (c :: more.takeWhile isNamePart) else none

/-- The kinds of tokens. -/
inductive TokenKind
  | numeral
  | name
  | symbol

/-- A token of an expression. -/
inductive Token
  | numeral (n : Numeral)
  | name (text : String)
  | symbol (spelling : Spelling)
  deriving DecidableEq

namespace Token

/-- The symbols that can stand in expressions: the binary operators, and then those that are
none. -/
def symbols : List Spelling :=
  ["||".toList, "&&".toList, "|".toList, "^".toList, "&".toList, "==".toList, "!=".toList,
    "<".toList, ">".toList, "<=".toList, ">=".toList, "<<".toList, ">>".toList, "+".toList,
    "-".toList, "*".toList, "/".toList, "%".toList,
    "!".toList, "~".toList, "(".toList, ")".toList, ",".toList, "?".toList, ":".toList]

/-- The written form of a token. -/
def text : Token → List Char
  | numeral n => n.text
  | name text => text.toList
  | symbol spelling => spelling

/-- The kind of a token. -/
def kind : Token → TokenKind
  | numeral _ => .numeral
  | name _ => .name
  | symbol _ => .symbol

/-- The tokens that can be written.  A name begins with a letter or an underscore and goes on with
letters, digits and underscores. -/
def IsWritten : Token → Prop
  | numeral n => n.IsWritten
  | name text => ∃ first part, text.toList = first :: part ∧ (first.isAlpha ∨ first = '_') ∧
      ∀ c ∈ part, c.isAlphanum ∨ c = '_'
  | symbol spelling => spelling ∈ symbols

/-- Whether a text begins with this token. -/
def Begins (t : Token) (text : List Char) : Prop := t.IsWritten ∧ t.text <+: text

/-- Whether this is the longest token that a text begins with. -/
def IsFirst (t : Token) (text : List Char) : Prop :=
  t.Begins text ∧ ∀ u : Token, u.Begins text → u.text.length ≤ t.text.length

/-- The longest token that a text begins with, found kind by kind. -/
def first? (text : List Char) : Option Token :=
  match Numeral.at? text with
  | some n => some (numeral n)
  | none =>
    match nameAt? text with
    | some found => some (name (String.ofList found))
    | none => (longestSpelling symbols text).map symbol

/-- The characters that tokens of one kind begin with. -/
def Opens (c : Char) : Token → Prop
  | numeral _ => c.isDigit ∨ c = '.'
  | name _ => isNameStart c
  | symbol _ => c ∈ symbols.filterMap List.head?

variable {t u : Token} {text rest : List Char} {c : Char} {n : Numeral}

/-- The binary operators are symbols. -/
lemma mem_symbols_of_mem_vocabulary :
    ∀ s ∈ Expr.binaryOperators.vocabulary, s ∈ symbols := by decide

/-! ## The first character of a token -/

/-- Names do not begin as numerals do. -/
lemma not_isNameStart_of_isDigit (h : c.isDigit ∨ c = '.') : ¬ isNameStart c := by
  rcases h with h | rfl
  · intro hstart
    unfold Char.isDigit at h
    unfold isNameStart Char.isAlpha Char.isUpper Char.isLower at hstart
    simp only [Bool.and_eq_true, Bool.or_eq_true, decide_eq_true_eq, ge_iff_le,
      UInt32.le_iff_toNat_le, Char.reduceVal, UInt32.reduceToNat] at h hstart
    rcases hstart with (hupper | hlower) | rfl
    · omega
    · omega
    · exact absurd h (by decide)
  · decide

/-- Names do not begin as symbols do. -/
lemma not_mem_heads_of_isNameStart (h : isNameStart c) : c ∉ symbols.filterMap List.head? := by
  intro hmem
  have hnot : (symbols.filterMap List.head?).all (fun d => !isNameStart d) = true := by decide
  have hc := List.all_eq_true.1 hnot c hmem
  rw [h] at hc
  exact absurd hc (by decide)

/-- Numerals do not begin as symbols do. -/
lemma not_mem_heads_of_isDigit (h : c.isDigit ∨ c = '.') : c ∉ symbols.filterMap List.head? := by
  intro hmem
  have hnot : (symbols.filterMap List.head?).all (fun d => !(d.isDigit || d = '.')) = true := by
    decide
  have hc := List.all_eq_true.1 hnot c hmem
  rcases h with h | rfl
  · rw [h, Bool.true_or] at hc
    exact absurd hc (by decide)
  · exact absurd hc (by decide)

/-- A token opens with a character of its kind. -/
lemma Begins.exists_opens (h : t.Begins text) : ∃ c more, text = c :: more ∧ t.Opens c := by
  obtain ⟨hwritten, rest, rfl⟩ := h
  cases t with
  | numeral n =>
    have hstarts := Numeral.starts_text_append hwritten rest
    cases htext : n.text ++ rest with
    | nil => simp [htext, Numeral.starts] at hstarts
    | cons c more =>
      rw [htext, Numeral.starts, Bool.or_eq_true, Bool.and_eq_true, decide_eq_true_eq] at hstarts
      exact ⟨c, more, htext, hstarts.imp_right And.left⟩
  | name text =>
    obtain ⟨first, part, htext, hfirst, -⟩ := hwritten
    exact ⟨first, part ++ rest, by simp [Token.text, htext], isNameStart_iff.2 hfirst⟩
  | symbol spelling =>
    have hne : ∀ s ∈ symbols, s ≠ [] := by decide
    obtain ⟨c, more, rfl⟩ := List.exists_cons_of_ne_nil (hne spelling hwritten)
    exact ⟨c, more ++ rest, rfl, List.mem_filterMap.2 ⟨c :: more, hwritten, rfl⟩⟩

/-- The first character of a token opens it. -/
lemma Begins.opens (h : t.Begins (c :: rest)) : t.Opens c := by
  obtain ⟨d, more, htext, hd⟩ := h.exists_opens
  obtain ⟨rfl, rfl⟩ := List.cons.inj htext
  exact hd

/-- Every token takes at least one character. -/
lemma Begins.length_pos (h : t.Begins text) : 0 < t.text.length := by
  obtain ⟨hwritten, -⟩ := h
  obtain ⟨c, more, htext, -⟩ := Begins.exists_opens ⟨hwritten, List.prefix_rfl⟩
  rw [htext]
  exact Nat.succ_pos _

/-- A token has the first character of the text that begins with it. -/
lemma Begins.head?_text (h : t.Begins (c :: rest)) : t.text.head? = some c := by
  have hpos := h.length_pos
  obtain ⟨-, more, hmore⟩ := h
  cases htext : t.text with
  | nil => simp [htext] at hpos
  | cons d part =>
    rw [htext, List.cons_append] at hmore
    rw [(List.cons.inj hmore).1, List.head?_cons]

/-- Tokens that one text begins with are of the same kind. -/
lemma Begins.kind_eq (ht : t.Begins text) (hu : u.Begins text) : t.kind = u.kind := by
  obtain ⟨c, more, rfl, htc⟩ := ht.exists_opens
  have huc := hu.opens
  cases t <;> cases u
  · rfl
  · exact absurd huc (not_isNameStart_of_isDigit htc)
  · exact absurd huc (not_mem_heads_of_isDigit htc)
  · exact absurd htc (not_isNameStart_of_isDigit huc)
  · rfl
  · exact absurd huc (not_mem_heads_of_isNameStart htc)
  · exact absurd htc (not_mem_heads_of_isDigit huc)
  · exact absurd htc (not_mem_heads_of_isNameStart huc)
  · rfl

/-! ## The longest token -/

/-- Of the names that a text begins with, the scanner finds the longest. -/
lemma begins_of_nameAt? {found : List Char} (h : nameAt? text = some found) :
    (name (String.ofList found)).Begins text ∧
      ∀ u : String, (name u).Begins text → u.toList.length ≤ found.length := by
  cases text with
  | nil => simp [nameAt?] at h
  | cons c more =>
    simp only [nameAt?] at h
    split at h
    · rename_i hc
      rw [Option.some.injEq] at h
      subst h
      refine ⟨⟨⟨c, _, String.toList_ofList, isNameStart_iff.1 hc,
        fun d hd => isNamePart_iff.1 (List.mem_takeWhile_imp hd)⟩, ?_⟩, ?_⟩
      · rw [Token.text, String.toList_ofList, List.cons_prefix_cons]
        exact ⟨rfl, List.takeWhile_prefix _⟩
      · rintro u ⟨⟨first, part, htext, -, hpart⟩, hbegins⟩
        rw [Token.text, htext, List.cons_prefix_cons] at hbegins
        obtain ⟨rest, rfl⟩ := hbegins.2
        rw [htext, List.takeWhile_append_of_pos fun d hd => isNamePart_iff.2 (hpart d hd)]
        simp
    · simp at h

/-- The scanner finds the first token. -/
lemma isFirst_of_first? (h : first? text = some t) : t.IsFirst text := by
  unfold first? at h
  split at h
  · rename_i n hn
    rw [Option.some.injEq] at h
    subst h
    have hbegins : (numeral n).Begins text := Numeral.isWritten_of_at? hn
    refine ⟨hbegins, fun u hu => ?_⟩
    cases u with
    | numeral m => exact Numeral.longest_of_at? hn hu.1 hu.2
    | name | symbol => exact nomatch hbegins.kind_eq hu
  · split at h
    · rename_i found hfound
      rw [Option.some.injEq] at h
      subst h
      obtain ⟨hbegins, hlongest⟩ := begins_of_nameAt? hfound
      refine ⟨hbegins, fun u hu => ?_⟩
      cases u with
      | name m => simpa [Token.text] using hlongest m hu
      | numeral | symbol => exact nomatch hbegins.kind_eq hu
    · rw [Option.map_eq_some_iff] at h
      obtain ⟨spelling, hspelling, rfl⟩ := h
      obtain ⟨hmem, hprefixed, hlongest⟩ := longestSpelling_eq_some_iff.1 hspelling
      have hbegins : (symbol spelling).Begins text := ⟨hmem, hprefixed⟩
      refine ⟨hbegins, fun u hu => ?_⟩
      cases u with
      | symbol s => exact hlongest s hu.1 hu.2
      | numeral | name => exact nomatch hbegins.kind_eq hu

/-- If a text begins with a token, then one is found. -/
lemma Begins.first?_ne_none (h : t.Begins text) : first? text ≠ none := by
  unfold first?
  cases t with
  | numeral n =>
    have hwritten : n.IsWritten := h.1
    have hbegins : n.text <+: text := h.2
    obtain ⟨m, ⟨hm, hmbegins⟩, hlongest⟩ := exists_longest hwritten hbegins
    rw [Numeral.at?_eq_some_of_longest hm hmbegins hlongest]
    simp
  | name found =>
    obtain ⟨⟨first, part, htext, hfirst, -⟩, rest, rfl⟩ := h
    split
    · simp
    · simp [Token.text, htext, nameAt?, isNameStart_iff.2 hfirst]
  | symbol spelling =>
    split
    · simp
    · split
      · simp
      · rw [ne_eq, Option.map_eq_none_iff, longestSpelling_eq_none_iff]
        exact fun hnone => hnone spelling h.1 h.2

/-- A text has at most one longest token. -/
lemma IsFirst.unique (ht : t.IsFirst text) (hu : u.IsFirst text) : t = u := by
  have hlength : t.text.length = u.text.length := Nat.le_antisymm (hu.2 t ht.1) (ht.2 u hu.1)
  have htext : t.text = u.text :=
    (List.prefix_of_prefix_length_le ht.1.2 hu.1.2 (Nat.le_of_eq hlength)).eq_of_length hlength
  have hkind := ht.1.kind_eq hu.1
  cases t with
  | numeral n =>
    cases u with
    | numeral m =>
      have hn := Numeral.at?_eq_some_of_longest ht.1.1 ht.1.2 fun k hk hkbegins =>
        ht.2 (numeral k) ⟨hk, hkbegins⟩
      have hm := Numeral.at?_eq_some_of_longest hu.1.1 hu.1.2 fun k hk hkbegins =>
        hu.2 (numeral k) ⟨hk, hkbegins⟩
      rw [Option.some.inj (hn.symm.trans hm)]
    | name | symbol => exact nomatch hkind
  | name found =>
    cases u with
    | name other => rw [String.ext htext]
    | numeral | symbol => exact nomatch hkind
  | symbol spelling =>
    cases u with
    | symbol other => rw [show spelling = other from htext]
    | numeral | name => exact nomatch hkind

/-- The token that is found is the longest one. -/
lemma first?_eq_some_iff : first? text = some t ↔ t.IsFirst text := by
  constructor
  · exact isFirst_of_first?
  · intro h
    obtain ⟨u, hu⟩ := Option.ne_none_iff_exists'.1 h.1.first?_ne_none
    rw [hu, (isFirst_of_first? hu).unique h]

/-- No token is found exactly if the text begins with none. -/
lemma first?_eq_none_iff : first? text = none ↔ ∀ t : Token, ¬ t.Begins text := by
  constructor
  · exact fun h t ht => ht.first?_ne_none h
  · intro h
    by_contra hsome
    obtain ⟨t, ht⟩ := Option.ne_none_iff_exists'.1 hsome
    exact h t (isFirst_of_first? ht).1

end Token

end Reckon
