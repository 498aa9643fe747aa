import Reckon.Proofs.Expr.Lexeme

/-!
# Texts that are cut off at a semicolon

No token of an expression contains a semicolon, so that the tokens before one are the same whether
the text goes on there or is cut off (`Token.first?_append`).  `Cursor.Cut` relates a cursor in a
text that is cut off to one in a text that goes on: up to the cut both see the same, and they stay
related when both pass a token.  The offsets of the two cursors have nothing to do with each other.
-/

namespace Reckon

/-- Whether a text is empty or begins with a semicolon. -/
def IsCutOff (tail : List Char) : Prop := ∀ ch ∈ tail.head?, ch = ';'

variable {tail rest : List Char} {t : Token}

/-- The end of a text cuts off. -/
lemma isCutOff_nil : IsCutOff [] := nofun

/-- A semicolon cuts off. -/
lemma isCutOff_cons (more : List Char) : IsCutOff (';' :: more) := by
  intro ch hch
  exact (Option.some.inj hch).symm

/-- What is cut off does not begin with blanks. -/
lemma IsCutOff.dropWhile_isBlank (htail : IsCutOff tail) : tail.dropWhile isBlank = tail := by
  cases tail with
  | nil => rfl
  | cons ch more =>
    obtain rfl : ch = ';' := htail ch rfl
    rfl

/-- What holds no semicolon cannot reach beyond the cut. -/
lemma IsCutOff.prefix_append_iff (htail : IsCutOff tail) {word : List Char} (hword : ';' ∉ word) :
    word <+: rest ++ tail ↔ word <+: rest := by
  refine ⟨fun h => ?_, fun h => h.trans (List.prefix_append _ _)⟩
  rcases List.prefix_or_prefix_of_prefix h (List.prefix_append rest tail) with hle | hle
  · exact hle
  · obtain ⟨more, rfl⟩ := hle
    have hmore : more <+: tail := (List.prefix_append_right_inj rest).1 h
    cases more with
    | nil => simp
    | cons ch more =>
      obtain ⟨behind, rfl⟩ := hmore
      obtain rfl : ch = ';' := htail ch rfl
      exact absurd (List.mem_append_right rest List.mem_cons_self) hword

/-! ## The characters of tokens -/

/-- Whether a numeral or a name can hold this character. -/
def isWordPart (c : Char) : Bool := isNamePart c || c = '.' || c = '+' || c = '-'

variable {ch : Char}

/-- Names may hold digits. -/
lemma isNamePart_of_isDigit (h : ch.isDigit) : isNamePart ch := by
  rw [isNamePart, Char.isAlphanum, h, Bool.or_true, Bool.true_or]

/-- Numerals may hold digits. -/
lemma isWordPart_of_isDigit (h : ch.isDigit) : isWordPart ch := by
  rw [isWordPart, isNamePart_of_isDigit h, Bool.true_or, Bool.true_or, Bool.true_or]

/-- Names may hold what hexadecimal numerals are made of. -/
lemma isNamePart_of_isHexDigit (h : isHexDigit ch) : isNamePart ch := by
  unfold isHexDigit at h
  unfold isNamePart Char.isAlphanum Char.isAlpha Char.isUpper Char.isLower
  simp only [Bool.or_eq_true, Bool.and_eq_true, decide_eq_true_eq, Char.le_def, ge_iff_le,
    UInt32.le_iff_toNat_le, Char.reduceVal, UInt32.reduceToNat] at h ⊢
  rcases h with (hdigit | hlower) | hupper
  · exact .inl (.inr hdigit)
  · exact .inl (.inl (.inr (by omega)))
  · exact .inl (.inl (.inl (by omega)))

/-- Exponents are made of what numerals may hold. -/
lemma Exponent.isWordPart_of_mem_text {e : Exponent} (h : e.IsWritten) (hmem : ch ∈ e.text) :
    isWordPart ch := by
  obtain ⟨hmarker, hsign, -, hdigits⟩ := h
  rw [Exponent.text, List.mem_cons, List.mem_append] at hmem
  rcases hmem with rfl | hmem | hmem
  · rcases hmarker with hmarker | hmarker <;> rw [hmarker] <;> decide
  · rcases hsign ch (Option.mem_toList.1 hmem) with rfl | rfl <;> decide
  · exact isWordPart_of_isDigit (hdigits ch hmem)

/-- Numerals are made of what numerals or names may hold. -/
lemma Numeral.isWordPart_of_mem_text {n : Numeral} (h : n.IsWritten) (hmem : ch ∈ n.text) :
    isWordPart ch := by
  cases n with
  | hexadecimal marker digits =>
    obtain ⟨hmarker, hdigits⟩ := h
    rw [Numeral.text, List.mem_cons, List.mem_cons] at hmem
    rcases hmem with rfl | rfl | hmem
    · decide
    · rcases hmarker with rfl | rfl <;> decide
    · rw [isWordPart, isNamePart_of_isHexDigit (isHexDigit_iff.2 (hdigits ch hmem)), Bool.true_or,
        Bool.true_or, Bool.true_or]
  | decimal whole fraction exponent =>
    obtain ⟨hwhole, hfraction, hexponent, -⟩ := h
    rw [Numeral.text, List.mem_append, List.mem_append] at hmem
    rcases hmem with (hmem | hmem) | hmem
    · exact isWordPart_of_isDigit (hwhole ch hmem)
    · cases fraction with
      | none => exact absurd hmem List.not_mem_nil
      | some places =>
        rcases List.mem_cons.1 hmem with rfl | hmem
        · decide
        · exact isWordPart_of_isDigit (hfraction places rfl ch hmem)
    · cases exponent with
      | none => exact absurd hmem List.not_mem_nil
      | some e => exact Exponent.isWordPart_of_mem_text (hexponent e rfl) hmem

/-- Names may hold what they begin with. -/
lemma isNamePart_of_isNameStart (h : isNameStart ch) : isNamePart ch := by
  rw [isNameStart, Bool.or_eq_true] at h
  rw [isNamePart, Char.isAlphanum, Bool.or_eq_true, Bool.or_eq_true]
  exact h.imp_left .inl

/-! ## Tokens -/

namespace Token

/-- A name consists of characters with which a name can go on. -/
lemma IsWritten.isNamePart_of_mem {text : String} (h : (name text).IsWritten)
    (hmem : ch ∈ text.toList) : isNamePart ch := by
  obtain ⟨first, part, htext, hfirst, hpart⟩ := h
  rw [htext] at hmem
  rcases List.mem_cons.1 hmem with rfl | hmem
  · exact isNamePart_of_isNameStart (isNameStart_iff.2 hfirst)
  · exact isNamePart_iff.2 (hpart ch hmem)

/-- Tokens other than symbols hold nothing but the characters of numerals and names. -/
lemma IsWritten.isWordPart_or_symbol (h : t.IsWritten) :
    (∀ ch ∈ t.text, isWordPart ch) ∨ ∃ s ∈ symbols, t = symbol s := by
  cases t with
  | numeral n => exact .inl fun ch hmem => Numeral.isWordPart_of_mem_text h hmem
  | name text =>
    refine .inl fun ch hmem => ?_
    rw [isWordPart, h.isNamePart_of_mem hmem, Bool.true_or, Bool.true_or, Bool.true_or]
  | symbol spelling => exact .inr ⟨spelling, h, rfl⟩

/-- No token contains a semicolon. -/
lemma IsWritten.not_mem_text (h : t.IsWritten) : ';' ∉ t.text := by
  rcases h.isWordPart_or_symbol with hparts | ⟨s, hs, rfl⟩
  · exact fun hmem => absurd (hparts ';' hmem) (by decide)
  · have hsymbols : ∀ s ∈ symbols, ';' ∉ s := by decide
    exact hsymbols s hs

/-- A tail that is cut off has no part in the first token. -/
lemma begins_append_iff (htail : IsCutOff tail) : t.Begins (rest ++ tail) ↔ t.Begins rest :=
  and_congr_right fun hwritten => htail.prefix_append_iff hwritten.not_mem_text

/-- The next token is the same whether the text goes on behind the cut or not. -/
theorem first?_append (htail : IsCutOff tail) (rest : List Char) :
    first? (rest ++ tail) = first? rest := by
  refine Option.ext fun t => ?_
  rw [first?_eq_some_iff, first?_eq_some_iff, IsFirst, IsFirst, begins_append_iff htail]
  exact and_congr_right fun _ => forall_congr' fun u => by rw [begins_append_iff htail]

end Token

/-! ## Cursors -/

namespace Cursor

variable {c c' d d' : Cursor}

/-- Whether what `d` sees is what `c` sees with a tail behind it, which is cut off from the text of
`c`. -/
structure Cut (tail : List Char) (c d : Cursor) : Prop where
  rest_eq : d.skipBlanks.rest = c.skipBlanks.rest ++ tail
  not_mem : ';' ∉ c.skipBlanks.rest

/-- At the end of a text there is no token. -/
lemma token?_of_length_le_zero (h : c.rest.length ≤ 0) : c.token? = none := by
  have hrest : c.rest = [] := List.length_eq_zero_iff.1 (Nat.le_zero.1 h)
  refine halts_of_atEnd (atEnd_iff.2 ?_)
  rw [hrest]
  exact nofun

/-- Skipping blanks brings up nothing new. -/
lemma skipBlanks_rest_subset (c : Cursor) : c.skipBlanks.rest ⊆ c.rest := by
  rw [skipBlanks_rest]
  exact (List.dropWhile_suffix _).subset

/-- A text without semicolons is cut off from the tail behind it. -/
lemma Cut.of_rest (htail : IsCutOff tail) (hrest : d.rest = c.rest ++ tail) (hmem : ';' ∉ c.rest) :
    Cut tail c d := by
  refine ⟨?_, fun h => hmem (c.skipBlanks_rest_subset h)⟩
  rw [skipBlanks_rest, skipBlanks_rest, hrest, List.dropWhile_append]
  split
  · rename_i hnone
    rw [List.isEmpty_iff.1 hnone, htail.dropWhile_isBlank, List.nil_append]
  · rfl

namespace Cut

/-- Blanks on either side do not matter. -/
lemma congr (h : Cut tail c d) (hc : c'.skipBlanks = c.skipBlanks)
    (hd : d'.skipBlanks = d.skipBlanks) : Cut tail c' d' := by
  refine ⟨?_, ?_⟩
  · rw [hc, hd, h.rest_eq]
  · rw [hc]
    exact h.not_mem

/-- Blanks may be skipped on both sides. -/
lemma skipBlanks (h : Cut tail c d) : Cut tail c.skipBlanks d.skipBlanks :=
  h.congr c.skipBlanks_skipBlanks d.skipBlanks_skipBlanks

/-- Both cursors can be moved by what is left before the cut. -/
lemma skip (htail : IsCutOff tail) (h : Cut tail c d) {n : ℕ} (hn : n ≤ c.skipBlanks.rest.length) :
    Cut tail (c.skipBlanks.skip n) (d.skipBlanks.skip n) := by
  refine .of_rest htail ?_ fun hmem => h.not_mem (List.mem_of_mem_drop hmem)
  rw [Cursor.skip, Cursor.skip, h.rest_eq, List.drop_append_of_le_length hn]

/-- Both see the same token. -/
lemma token?_eq (htail : IsCutOff tail) (h : Cut tail c d) : d.token? = c.token? := by
  rw [token?, token?, h.rest_eq, Token.first?_append htail]

/-- Both can pass it. -/
lemma past (htail : IsCutOff tail) (h : Cut tail c d) (htoken : c.token? = some t) :
    Cut tail (c.past t) (d.past t) :=
  h.skip htail (token?_eq_some_iff.1 htoken).1.2.length_le

/-- The first sees the end where the second sees the tail. -/
lemma rest_eq_tail (h : Cut tail c d) (hend : c.atEnd) : d.skipBlanks.rest = tail := by
  rw [h.rest_eq, List.isEmpty_iff.1 hend, List.nil_append]

/-- Where the text goes on, so does that with the tail. -/
lemma not_atEnd (h : Cut tail c d) (hend : ¬c.atEnd) : ¬d.atEnd := by
  rw [atEnd, h.rest_eq, List.isEmpty_iff, List.append_eq_nil_iff]
  exact fun hboth => hend (List.isEmpty_iff.2 hboth.1)

/-! ### The semicolon -/

/-- The first never sees a semicolon. -/
lemma eat_left (h : Cut tail c d) : c.eat ';' = (false, c.skipBlanks) :=
  eat_of_head?_ne fun hhead => h.not_mem (List.mem_of_mem_head? hhead)

/-- The second sees none before the cut. -/
lemma eat_right (h : Cut tail c d) (hend : ¬c.atEnd) : d.eat ';' = (false, d.skipBlanks) := by
  refine eat_of_head?_ne fun hhead => h.not_mem (List.mem_of_mem_head? ?_)
  rw [h.rest_eq] at hhead
  rcases hrest : c.skipBlanks.rest with _ | ⟨ch, more⟩
  · exact absurd (List.isEmpty_iff.2 hrest) hend
  · rw [hrest] at hhead
    exact hhead

/-- At the end of both texts there is no semicolon. -/
lemma eat_nil (h : Cut [] c d) (hend : c.atEnd) :
    d.eat ';' = (false, d.skipBlanks) ∧ d.atEnd := by
  have hrest := h.rest_eq_tail hend
  refine ⟨eat_of_head?_ne ?_, List.isEmpty_iff.2 hrest⟩
  rw [hrest]
  exact (Option.some_ne_none _).symm

/-- At the end of the text that is cut off the other one has a semicolon, and the rest behind it. -/
lemma eat_cons {more : List Char} (h : Cut (';' :: more) c d) (hend : c.atEnd) :
    d.eat ';' = (true, d.skipBlanks.skip 1) ∧ (d.skipBlanks.skip 1).rest = more :=
  eat_of_skipBlanks_rest (h.rest_eq_tail hend)

end Cut

end Cursor

end Reckon
