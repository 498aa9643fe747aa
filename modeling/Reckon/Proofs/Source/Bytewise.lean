import Reckon.Proofs.Pattern.Search
import Reckon.Proofs.Source.Cursor
import Reckon.Proofs.Source.Numeral
import Reckon.Proofs.Source.Operator
import Reckon.Source.Bytewise
import Reckon.Source.Progress

/-!
# Scans by bytes and by characters

Where a cursor stands in a text, a byte-wise scan cuts the text between characters only, and finds
what the cursor finds.  An ASCII character is a byte, and no byte of another character is below 128:
so the bytes from the cursor on that are ASCII characters of some kind are the characters of this
kind (`Bytewise.past_eq`).
-/

namespace Reckon

/-- Whether all characters with a property are ASCII. -/
def IsAscii (p : Char → Bool) : Prop := ∀ c, p c = true → c.toNat < 128

namespace IsAscii

variable {p q : Char → Bool}

/-- A test for one ASCII character fits bytes. -/
protected lemma eq (d : Char) (hd : d.toNat < 128) : IsAscii (· = d) := by
  intro c hc
  rwa [of_decide_eq_true hc]

/-- Two tests that fit bytes do so together. -/
protected lemma or (hp : IsAscii p) (hq : IsAscii q) : IsAscii fun c => p c || q c := by
  intro c hc
  rcases Bool.or_eq_true_iff.1 hc with hc | hc
  · exact hp c hc
  · exact hq c hc

/-- A test that no character behind an ASCII character passes fits bytes. -/
lemma of_le (last : Char) (hlast : last.toNat < 128) (h : ∀ c, p c = true → c.val ≤ last.val) :
    IsAscii p :=
  fun c hc => Nat.lt_of_le_of_lt (UInt32.le_iff_toNat_le.1 (h c hc)) hlast

/-- The characters from one to another, of which the last is ASCII. -/
protected lemma range (first last : Char) (hlast : last.toNat < 128) :
    IsAscii fun c => decide (first.val ≤ c.val) && decide (c.val ≤ last.val) :=
  of_le last hlast fun _ hc => of_decide_eq_true (Bool.and_eq_true_iff.1 hc).2

/-- Blanks are ASCII. -/
lemma isBlank : IsAscii isBlank :=
  ((((IsAscii.eq ' ' (by decide)).or (.eq '\t' (by decide))).or (.eq '\n' (by decide))).or
    (.eq '\x0c' (by decide))).or (.eq '\r' (by decide))

lemma isDigit : IsAscii Char.isDigit :=
  .range '0' '9' (by decide)

/-- Hexadecimal digits are ASCII. -/
lemma isHexDigit : IsAscii isHexDigit :=
  (isDigit.or (.range 'a' 'f' (by decide))).or (.range 'A' 'F' (by decide))

lemma isAlpha : IsAscii Char.isAlpha :=
  IsAscii.or (of_le 'Z' (by decide) fun _ hc => (of_decide_eq_true hc).2)
    (.range 'a' 'z' (by decide))

/-- What names begin with is ASCII. -/
lemma isNameStart : IsAscii isNameStart :=
  isAlpha.or (.eq '_' (by decide))

/-- What names go on with is ASCII. -/
lemma isNamePart : IsAscii isNamePart :=
  (isAlpha.or isDigit).or (.eq '_' (by decide))

end IsAscii

section

variable {p : Char → Bool} {c : Char} {text rest : List Char}

/-- The bytes of a character stand before those of the rest. -/
lemma utf8_cons (c : Char) (text : List Char) :
    utf8 (c :: text) = String.utf8EncodeChar c ++ utf8 text :=
  List.flatMap_cons

/-- The bytes of a text are those of its parts. -/
lemma utf8_append (before rest : List Char) : utf8 (before ++ rest) = utf8 before ++ utf8 rest :=
  List.flatMap_append

/-- A text has as many bytes as is counted. -/
lemma length_utf8 (text : List Char) : (utf8 text).length = utf8Length text := by
  induction text with
  | nil => rfl
  | cons c text ih =>
    rw [utf8_cons, List.length_append, String.length_utf8EncodeChar, ih, utf8Length]

/-- An ASCII character is encoded by itself. -/
lemma utf8EncodeChar_of_lt (h : c.toNat < 128) : String.utf8EncodeChar c =
    [UInt8.ofNat c.toNat] := by
  have hle : c.val.toNat ≤ 127 := Nat.le_of_lt_succ h
  unfold String.utf8EncodeChar
  simp only [hle, ↓reduceIte]
  rfl

/-- An ASCII character takes one byte. -/
lemma utf8Size_of_lt (h : c.toNat < 128) : c.utf8Size = 1 := by
  rw [← String.length_utf8EncodeChar, utf8EncodeChar_of_lt h]
  rfl

/-- A character of one byte is ASCII. -/
lemma toNat_lt_of_utf8Size (h : c.utf8Size = 1) : c.toNat < 128 :=
  Nat.lt_succ_of_le (UInt32.le_iff_toNat_le.1 (Char.utf8Size_eq_one_iff.1 h))

/-- The byte of an ASCII character is of the kinds that the character is of. -/
lemma byteIs_ofNat (p : Char → Bool) (h : c.toNat < 128) :
    byteIs p (UInt8.ofNat c.toNat) = p c := by
  have hbyte : (UInt8.ofNat c.toNat).toNat = c.toNat :=
    UInt8.toNat_ofNat_of_lt' (Nat.lt_trans h (by decide))
  have hlow : UInt8.ofNat c.toNat < 128 := by
    rw [UInt8.lt_iff_toNat_lt, hbyte]
    exact h
  unfold byteIs
  rw [hbyte, Char.ofNat_toNat, decide_eq_true hlow, Bool.true_and]

/-- The bytes of other characters are of no kind of ASCII characters. -/
lemma byteIs_of_mem (p : Char → Bool) (h : ¬c.toNat < 128) {byte : UInt8}
    (hmem : byte ∈ String.utf8EncodeChar c) : byteIs p byte = false := by
  have hbyte : ¬byte < 128 := by
    intro hbyte
    obtain ⟨hsingle, -⟩ := utf8EncodeChar_eq_of_mem (UInt8.lt_iff_toNat_lt.1 hbyte) hmem
    have hlength := String.length_utf8EncodeChar c
    rw [hsingle] at hlength
    exact h (toNat_lt_of_utf8Size hlength.symm)
  unfold byteIs
  rw [decide_eq_false hbyte, Bool.false_and]

/-- A character begins with a byte that is of a kind of ASCII characters if the character itself is,
and then it has no other byte. -/
lemma exists_utf8EncodeChar_eq_cons (hp : IsAscii p) (c : Char) :
    ∃ byte more, String.utf8EncodeChar c = byte :: more ∧ byteIs p byte = p c ∧
      (p c = true → more = []) := by
  by_cases hc : c.toNat < 128
  · exact ⟨_, [], utf8EncodeChar_of_lt hc, byteIs_ofNat p hc, fun _ => rfl⟩
  · have hnot : p c = false := Bool.eq_false_iff.2 fun h => hc (hp c h)
    cases hencode : String.utf8EncodeChar c with
    | nil => exact absurd hencode String.utf8EncodeChar_ne_nil
    | cons byte more =>
      refine ⟨byte, more, rfl, ?_, fun h => absurd h (Bool.eq_false_iff.1 hnot)⟩
      rw [hnot]
      exact byteIs_of_mem p hc (hencode ▸ List.mem_cons_self)

/-- The bytes at the beginning of a text that are ASCII characters of one kind are its characters of
this kind. -/
lemma length_takeWhile_utf8 (hp : IsAscii p) (text : List Char) :
    ((utf8 text).takeWhile (byteIs p)).length = (text.takeWhile p).length := by
  induction text with
  | nil => rfl
  | cons c text ih =>
    obtain ⟨byte, more, hencode, hbyte, hmore⟩ := exists_utf8EncodeChar_eq_cons hp c
    rw [utf8_cons, hencode, List.cons_append, List.takeWhile_cons, List.takeWhile_cons, hbyte]
    split
    · rename_i hc
      rw [hmore hc, List.nil_append, List.length_cons, List.length_cons, ih]
    · rfl

/-- A test for ASCII characters can be made of the first byte. -/
lemma any_head?_utf8 (hp : IsAscii p) (text : List Char) :
    (utf8 text).head?.any (byteIs p) = text.head?.any p := by
  cases text with
  | nil => rfl
  | cons c text =>
    obtain ⟨byte, more, hencode, hbyte, -⟩ := exists_utf8EncodeChar_eq_cons hp c
    rw [utf8_cons, hencode]
    exact hbyte

end

/-! ## What stands at a cursor -/

namespace Bytewise

variable {p : Char → Bool} {c : Cursor} {text : List Char}

/-- Behind the offset of a cursor stand the bytes of the rest. -/
lemma drop_utf8 (hc : c.StandsIn text) : (utf8 text).drop c.offset = utf8 c.rest := by
  obtain ⟨before, htext, hoffset⟩ := hc
  rw [htext, utf8_append, hoffset, ← length_utf8, List.drop_left]

/-- Behind the offset of a cursor stands its rest. -/
lemma dropBytes?_eq (hc : c.StandsIn text) : dropBytes? text c.offset = some c.rest :=
  dropBytes?_eq_some_iff.2 hc

/-- At the offset of a cursor stands the first character of its rest. -/
lemma hasAt_eq (hp : IsAscii p) (hc : c.StandsIn text) :
    hasAt p text c.offset = c.rest.head?.any p := by
  rw [hasAt, ← List.head?_drop, drop_utf8 hc, any_head?_utf8 hp]

/-- A stretch of ASCII characters has as many bytes as characters. -/
lemma utf8Length_takeWhile (hp : IsAscii p) (text : List Char) :
    utf8Length (text.takeWhile p) = (text.takeWhile p).length :=
  utf8Length_of_ascii fun c hc => hp c (List.mem_takeWhile_imp hc)

/-- Behind a stretch of the rest stands the offset moved by its bytes. -/
lemma offset_skip_length {part : List Char} (h : part <+: c.rest) :
    (c.skip part.length).offset = c.offset + utf8Length part := by
  rw [Cursor.skip, ← List.prefix_iff_eq_take.1 h]

/-- ASCII characters are passed byte by byte. -/
lemma past_eq (hp : IsAscii p) (hc : c.StandsIn text) :
    past p text c.offset = (c.skip (c.rest.takeWhile p).length).offset := by
  rw [past, drop_utf8 hc, length_takeWhile_utf8 hp, offset_skip_length (List.takeWhile_prefix p),
    utf8Length_takeWhile hp]

/-- A cut from one cursor to a later one succeeds. -/
lemma slice?_eq (hc : c.StandsIn text) (n : ℕ) :
    slice? text c.offset (c.skip n).offset = some (c.rest.take n) := by
  have hle : c.offset ≤ (c.skip n).offset := Nat.le_add_right _ _
  have hlength : c.rest.length - (c.skip n).rest.length = min n c.rest.length := by
    rw [Cursor.skip, List.length_drop]
    omega
  unfold slice?
  rw [dropBytes?_eq hc, dropBytes?_eq (hc.skip n)]
  simp only [Option.bind_eq_bind, Option.bind_some, if_pos hle, hlength]
  rw [← List.take_eq_take_min]

/-- A character that stands at a cursor is the one that is tested. -/
lemma hasAt_of_rest {d : Char} {rest : List Char} (hp : IsAscii p) (hc : c.StandsIn text)
    (hrest : c.rest = d :: rest) : hasAt p text c.offset = p d := by
  rw [hasAt_eq hp hc, hrest]
  rfl

/-- An ASCII character is one byte. -/
lemma offset_skip_one (hp : IsAscii p) (h : c.rest.head?.any p = true) :
    (c.skip 1).offset = c.offset + 1 := by
  cases hrest : c.rest with
  | nil =>
    rw [hrest] at h
    contradiction
  | cons d rest =>
    rw [hrest] at h
    rw [Cursor.skip, hrest]
    simp [utf8Length, utf8Size_of_lt (hp d h)]

/-! ## Steps -/

/-- Whether a scan finds what a step of the cursor finds, wherever the cursor stands in a text. -/
def Agrees {β : Type} (scan : Bytewise β) (step : Cursor → β × Cursor) : Prop :=
  ∀ text c, c.StandsIn text → scan text c.offset = some ((step c).1, (step c).2.offset)

/-- Blanks are skipped byte by byte as they are character by character. -/
lemma pastBlanks_eq (hc : c.StandsIn text) : pastBlanks text c.offset = c.skipBlanks.offset :=
  past_eq .isBlank hc

/-- Both ways the position behind blanks is found. -/
lemma agrees_position : Agrees position fun c => (c.skipBlanks.offset, c.skipBlanks) := by
  intro text c hc
  rw [position, pastBlanks_eq hc]

/-- Both ways it is seen whether anything is left. -/
lemma agrees_atEnd : Agrees atEnd fun c => (c.atEnd, c.skipBlanks) := by
  intro text c hc
  have hle := hc.skipBlanks.offset_add_utf8Length
  have hend := hc.skipBlanks.offset_eq_iff
  have hatEnd : decide (utf8Length text ≤ c.skipBlanks.offset) = c.atEnd := by
    rw [Cursor.atEnd, Bool.eq_iff_iff, decide_eq_true_iff, List.isEmpty_iff, ← hend]
    omega
  rw [atEnd, pastBlanks_eq hc, length_utf8, hatEnd]

/-- Both ways the next character is seen. -/
lemma agrees_peek : Agrees peek fun c => (c.peek, c.skipBlanks) := by
  intro text c hc
  rw [peek, pastBlanks_eq hc, dropBytes?_eq hc.skipBlanks]
  rfl

/-- Both ways the same is said to be unexpected. -/
lemma agrees_unexpected {β : Type} : Agrees (unexpected : Bytewise (Except Error β))
    fun c => (.error (Reader.unexpectedAt c), c.skipBlanks) := by
  intro text c hc
  have hpeek := agrees_peek text c hc
  dsimp only at hpeek ⊢
  rw [unexpected, hpeek, Reader.unexpectedAt]
  cases c.peek with
  | none => rfl
  | some found => rfl

/-- Both ways a character is passed. -/
lemma agrees_bump : Agrees bump Cursor.bump := by
  intro text c hc
  rw [bump, dropBytes?_eq hc]
  unfold Cursor.bump Cursor.skip
  cases c.rest with
  | nil => rfl
  | cons d rest => rfl

/-- A character that was looked at is as long as it is. -/
lemma offset_skip_one_of_head? {d : Char} (h : c.rest.head? = some d) :
    (c.skip 1).offset = c.offset + d.utf8Size := by
  obtain ⟨rest, hrest⟩ := List.head?_eq_some_iff.1 h
  rw [Cursor.skip, hrest]
  rfl

/-- Both ways an expected character is passed. -/
lemma agrees_eat (expected : Char) : Agrees (eat expected) (Cursor.eat expected) := by
  intro text c hc
  have hpeek := agrees_peek text c hc
  dsimp only at hpeek
  rw [eat, hpeek, Cursor.eat]
  by_cases h : c.peek = some expected
  · rw [if_pos h, offset_skip_one_of_head? h]
    exact if_pos h
  · rw [if_neg h]
    exact if_neg h

/-- Both ways the longest operator is found. -/
lemma agrees_operator {Op : Type} (vocabulary : List Spelling) (candidates : List (Spelling × Op)) :
    Agrees (operator vocabulary candidates) (Cursor.operator vocabulary candidates) := by
  intro text c hc
  rw [operator, pastBlanks_eq hc, dropBytes?_eq hc.skipBlanks]
  unfold Cursor.operator Cursor.peekOperator
  simp only [Option.bind_eq_bind, Option.bind_some]
  cases hword : longestSpelling vocabulary c.skipBlanks.rest with
  | none => rfl
  | some word =>
    dsimp only
    cases candidates.find? fun candidate => decide (candidate.1 = word) with
    | none => rfl
    | some candidate =>
      have hprefix := (longestSpelling_eq_some_iff.1 hword).2.1
      rw [offset_skip_length hprefix]
      rfl

/-- Both ways a name is found. -/
lemma agrees_name : Agrees name Cursor.name := by
  intro text c hc
  have hstart := hc.skipBlanks
  rw [name, pastBlanks_eq hc]
  cases hrest : c.skipBlanks.rest with
  | nil =>
    have hnone : hasAt isNameStart text c.skipBlanks.offset = false := by
      rw [hasAt_eq .isNameStart hstart, hrest]
      rfl
    simp only [Cursor.name, hrest]
    rw [hnone]
    rfl
  | cons first more =>
    simp only [Cursor.name, hrest]
    rw [hasAt_of_rest .isNameStart hstart hrest]
    by_cases hfirst : isNameStart first = true
    · have hskip : (c.skipBlanks.skip 1).offset = c.skipBlanks.offset + 1 :=
        offset_skip_one .isNameStart (by rw [hrest]; exact hfirst)
      have hmore : (c.skipBlanks.skip 1).rest = more := by rw [Cursor.skip, hrest]; rfl
      have hpast := past_eq .isNamePart (hstart.skip 1)
      rw [hskip, hmore, Cursor.skip_skip, Nat.add_comm 1] at hpast
      have htake : (more.takeWhile isNamePart) <+: more := List.takeWhile_prefix isNamePart
      rw [if_pos hfirst, if_pos hfirst, hpast, slice?_eq hstart, hrest, List.take_succ_cons,
        ← List.prefix_iff_eq_take.1 htake]
      rfl
    · rw [if_neg hfirst, if_neg hfirst]
      rfl

/-! ## Numerals -/

/-- A cursor before an ASCII character: the one behind it stands one byte further on. -/
lemma exists_skip_one {d : Char} {rest : List Char} (hc : c.StandsIn text)
    (hrest : c.rest = d :: rest)
    (hd : d.toNat < 128) :
    (c.skip 1).StandsIn text ∧ (c.skip 1).rest = rest ∧ (c.skip 1).offset = c.offset + 1 := by
  refine ⟨hc.skip 1, by rw [Cursor.skip, hrest]; rfl, ?_⟩
  exact offset_skip_one (.eq d hd) (by rw [hrest]; exact decide_eq_true rfl)

/-- The fraction is passed as it is read. -/
lemma pastFraction_eq (hc : c.StandsIn text) : pastFraction text c.offset =
    (c.skip ((Numeral.fractionAt? c.rest).elim 0 fun places => places.length + 1)).offset := by
  have hpoint : IsAscii (· = '.') := .eq '.' (by decide)
  unfold pastFraction
  cases hrest : c.rest with
  | nil =>
    rw [hasAt_eq hpoint hc, hrest]
    rfl
  | cons d more =>
    rw [hasAt_of_rest hpoint hc hrest]
    by_cases hd : d = '.'
    · subst hd
      obtain ⟨hstands, hmore, hoffset⟩ := exists_skip_one hc hrest (by decide)
      have hpast := past_eq .isDigit hstands
      rw [hoffset, hmore, Cursor.skip_skip, Nat.add_comm 1] at hpast
      rw [if_pos (decide_eq_true rfl), hpast]
      rfl
    · have hnone : Numeral.fractionAt? (d :: more) = none := by
        rw [Numeral.fractionAt?]
        exact fun more' h => hd (List.cons.inj h).1
      rw [if_neg (by simpa using hd), hnone]
      rfl

/-- A text begins with a character of a kind if there is a stretch of them. -/
lemma any_head?_eq (p : Char → Bool) (text : List Char) :
    text.head?.any p = !(text.takeWhile p).isEmpty := by
  cases text with
  | nil => rfl
  | cons d text =>
    rw [List.takeWhile_cons]
    cases hd : p d with
    | true => exact hd
    | false => exact hd

/-- The sign of an exponent is passed byte by byte. -/
lemma pastSign_eq (hc : c.StandsIn text) : pastSign text c.offset =
    (c.skip (c.rest.head?.filter fun d => d = '+' ∨ d = '-').toList.length).offset := by
  have hsigns : IsAscii fun d => d = '+' || d = '-' :=
    (IsAscii.eq '+' (by decide)).or (.eq '-' (by decide))
  unfold pastSign
  cases hrest : c.rest with
  | nil =>
    rw [hasAt_eq hsigns hc, hrest]
    rfl
  | cons d more =>
    rw [hasAt_of_rest hsigns hc hrest]
    by_cases hd : d = '+' ∨ d = '-'
    · have hsign : (d = '+' || d = '-') = true := by simpa using hd
      rw [if_pos hsign, List.head?_cons, Option.filter_some_pos (by simpa using hd)]
      exact (exists_skip_one hc hrest (hsigns d hsign)).2.2.symm
    · rw [if_neg (by simpa using hd), List.head?_cons, Option.filter_some_neg (by simpa using hd)]
      rfl

/-- The exponent is passed as it is read. -/
lemma pastExponent_eq (hc : c.StandsIn text) : pastExponent text c.offset =
    (c.skip ((Exponent.at? c.rest).elim 0 fun e => e.text.length)).offset := by
  have hletters : IsAscii fun d => d = 'e' || d = 'E' :=
    (IsAscii.eq 'e' (by decide)).or (.eq 'E' (by decide))
  unfold pastExponent
  cases hrest : c.rest with
  | nil =>
    rw [hasAt_eq hletters hc, hrest]
    rfl
  | cons marker more =>
    rw [hasAt_of_rest hletters hc hrest, Exponent.at?]
    by_cases hmarker : marker = 'e' ∨ marker = 'E'
    · have hletter : (marker = 'e' || marker = 'E') = true := by simpa using hmarker
      obtain ⟨hstands, hmore, hoffset⟩ := exists_skip_one hc hrest (hletters marker hletter)
      have hdigits := pastSign_eq hstands
      rw [hoffset, hmore, Cursor.skip_skip] at hdigits
      generalize hsign : more.head?.filter (fun d => decide (d = '+' ∨ d = '-')) = sign at hdigits ⊢
      have hbehind : (c.skip (1 + sign.toList.length)).rest = more.drop sign.toList.length := by
        rw [Cursor.skip, hrest, Nat.add_comm, List.drop_succ_cons]
      rw [if_pos hmarker, if_pos hletter, hdigits]
      dsimp only
      rw [hasAt_eq .isDigit (hc.skip _), past_eq .isDigit (hc.skip _), Cursor.skip_skip,
        hbehind, any_head?_eq]
      cases hempty : ((more.drop sign.toList.length).takeWhile Char.isDigit).isEmpty with
      | true => rfl
      | false =>
        simp only [Bool.not_false, if_true, Bool.false_eq_true, if_false, Option.elim_some,
          Exponent.text, List.length_cons, List.length_append]
        rw [Nat.add_assoc, Nat.add_comm 1]
    · rw [if_neg hmarker, if_neg (by simpa using hmarker)]
      rfl

/-- A decimal numeral is as long as its parts. -/
lemma length_text_decimal (whole : List Char) (fraction : Option (List Char))
    (exponent : Option Exponent) :
    (Numeral.decimal whole fraction exponent).text.length =
      whole.length + (fraction.elim 0 fun places => places.length + 1) +
        exponent.elim 0 fun e => e.text.length := by
  rw [Numeral.text, List.length_append, List.length_append]
  cases fraction with
  | none =>
    cases exponent with
    | none => rfl
    | some e => rfl
  | some places =>
    cases exponent with
    | none => rfl
    | some e => rfl

/-- A decimal numeral is passed as it is read. -/
lemma pastDecimal_eq (hc : c.StandsIn text) : pastDecimal text c.offset =
    (c.skip (Numeral.decimalAt c.rest).text.length).offset := by
  rw [pastDecimal, past_eq .isDigit hc, pastFraction_eq (hc.skip _), Cursor.skip_skip,
    pastExponent_eq (hc.skip _), Cursor.skip_skip, Numeral.decimalAt, length_text_decimal,
    length_text_decimal]
  rfl

/-- It is seen from two bytes whether a numeral begins. -/
lemma startsNumeral_eq (hc : c.StandsIn text) :
    startsNumeral text c.offset = Numeral.starts c.rest := by
  have hpoint : IsAscii (· = '.') := .eq '.' (by decide)
  unfold startsNumeral
  cases hrest : c.rest with
  | nil =>
    rw [hasAt_eq .isDigit hc, hasAt_eq hpoint hc, hrest]
    rfl
  | cons d more =>
    rw [hasAt_of_rest .isDigit hc hrest, hasAt_of_rest hpoint hc hrest, Numeral.starts]
    by_cases hd : d = '.'
    · subst hd
      obtain ⟨hstands, hmore, hoffset⟩ := exists_skip_one hc hrest (by decide)
      rw [← hoffset, hasAt_eq .isDigit hstands, hmore]
    · rw [decide_eq_false hd, Bool.false_and, Bool.false_and]

/-- Whether a text begins with `0x`, in either case. -/
def IsHexadecimal (text : List Char) : Prop :=
  ∃ marker more, text = '0' :: marker :: more ∧ (marker = 'x' ∨ marker = 'X')

/-- The first two bytes tell whether a numeral is hexadecimal. -/
lemma hasAt_iff_isHexadecimal (hc : c.StandsIn text) :
    (hasAt (· = '0') text c.offset &&
        hasAt (fun d => d = 'x' || d = 'X') text (c.offset + 1)) = true ↔
      IsHexadecimal c.rest := by
  have hzero : IsAscii (· = '0') := .eq '0' (by decide)
  have hmarkers : IsAscii fun d => d = 'x' || d = 'X' :=
    (IsAscii.eq 'x' (by decide)).or (.eq 'X' (by decide))
  unfold IsHexadecimal
  cases hrest : c.rest with
  | nil =>
    rw [hasAt_eq hzero hc, hrest]
    simp
  | cons d rest =>
    rw [hasAt_of_rest hzero hc hrest]
    by_cases hd : d = '0'
    · subst hd
      obtain ⟨hstands, hmore, hoffset⟩ := exists_skip_one hc hrest (by decide)
      rw [← hoffset, hasAt_eq hmarkers hstands, hmore]
      cases rest with
      | nil => simp
      | cons marker more => simp
    · simp [hd]

/-- Behind `0x` a numeral is hexadecimal. -/
lemma at?_of_isHexadecimal {marker : Char} {more : List Char} (h : marker = 'x' ∨ marker = 'X') :
    Numeral.at? ('0' :: marker :: more) =
      some (.hexadecimal marker (more.takeWhile isHexDigit)) := by
  rcases h with rfl | rfl
  · rfl
  · rfl

/-- Otherwise a numeral is decimal. -/
lemma at?_of_not_isHexadecimal {rest : List Char} (hstarts : Numeral.starts rest = true)
    (h : ¬IsHexadecimal rest) : Numeral.at? rest = some (Numeral.decimalAt rest) := by
  unfold Numeral.at?
  rw [if_pos hstarts]
  split
  · exact absurd ⟨_, _, rfl, .inl rfl⟩ h
  · exact absurd ⟨_, _, rfl, .inr rfl⟩ h
  · rfl

/-- The bytes of a hexadecimal numeral. -/
lemma pastHexadecimal_eq {marker : Char} {more : List Char} (hc : c.StandsIn text)
    (hrest : c.rest = '0' :: marker :: more) (hmarker : marker = 'x' ∨ marker = 'X') :
    past isHexDigit text (c.offset + 2) =
        (c.skip (Numeral.hexadecimal marker (more.takeWhile isHexDigit)).text.length).offset ∧
      slice? text (c.offset + 2) (past isHexDigit text (c.offset + 2)) =
        some (more.takeWhile isHexDigit) := by
  have hlow : marker.toNat < 128 := by
    rcases hmarker with rfl | rfl
    · decide
    · decide
  obtain ⟨hstands₁, hrest₁, hoffset₁⟩ := exists_skip_one hc hrest (by decide)
  obtain ⟨hstands₂, hrest₂, hoffset₂⟩ := exists_skip_one hstands₁ hrest₁ hlow
  rw [hoffset₁] at hoffset₂
  have hpast := past_eq .isHexDigit hstands₂
  have hslice := slice?_eq hstands₂ (more.takeWhile isHexDigit).length
  rw [hoffset₂, hrest₂] at hpast
  rw [hoffset₂, hrest₂, ← List.prefix_iff_eq_take.1 (List.takeWhile_prefix isHexDigit),
    ← hpast] at hslice
  refine ⟨?_, hslice⟩
  have hlength : (Numeral.hexadecimal marker (more.takeWhile isHexDigit)).text.length =
      1 + (1 + (more.takeWhile isHexDigit).length) := by
    rw [Numeral.text, List.length_cons, List.length_cons]
    omega
  rw [hpast, Cursor.skip_skip, Cursor.skip_skip, hlength]

/-- What a cursor passes can be cut out of the text. -/
lemma slice?_skip_length {part : List Char} (hc : c.StandsIn text) (h : part <+: c.rest) :
    slice? text c.offset (c.skip part.length).offset = some part := by
  rw [slice?_eq hc, ← List.prefix_iff_eq_take.1 h]

/-- The end of a text ends every numeral. -/
lemma endsBefore_nil (n : Numeral) : n.EndsBefore [] := by
  have hnone : ∀ {P : Char → Prop}, ∀ d ∈ ([] : List Char).head?, P d :=
    fun d hd => absurd hd (Option.not_mem_none d)
  rcases n with ⟨marker, digits⟩ | ⟨whole, _ | places, _ | e⟩
  · exact hnone
  · exact ⟨hnone, rfl, fun _ => hnone⟩
  · exact hnone
  · exact ⟨hnone, rfl⟩
  · exact hnone

/-- A decimal numeral that is cut out is read back. -/
lemma decimalAt_text (h : Numeral.starts text = true) :
    Numeral.decimalAt (Numeral.decimalAt text).text = Numeral.decimalAt text := by
  have hread := Numeral.decimalAt_text_append (Numeral.isWritten_decimalAt h) (endsBefore_nil _)
  rwa [List.append_nil] at hread

/-- Both ways a number is read. -/
lemma agrees_number : Agrees number Cursor.number := by
  intro text c hc
  have hstart := hc.skipBlanks
  rw [number, pastBlanks_eq hc, startsNumeral_eq hstart]
  unfold Cursor.number
  dsimp only
  generalize c.skipBlanks = d at hstart ⊢
  cases hstarts : Numeral.starts d.rest with
  | false =>
    have hnone : Numeral.at? d.rest = none := by
      unfold Numeral.at?
      rw [hstarts]
      rfl
    rw [hnone]
    rfl
  | true =>
    rw [if_pos rfl]
    by_cases hhex : IsHexadecimal d.rest
    · rw [if_pos ((hasAt_iff_isHexadecimal hstart).2 hhex)]
      obtain ⟨marker, more, hrest, hmarker⟩ := hhex
      obtain ⟨hpast, hslice⟩ := pastHexadecimal_eq hstart hrest hmarker
      have hprefix : (Numeral.hexadecimal marker (more.takeWhile isHexDigit)).text <+: d.rest := by
        rw [hrest]
        exact (Numeral.isWritten_of_at? (at?_of_isHexadecimal hmarker)).2
      rw [hslice, hpast, slice?_skip_length hstart hprefix, hrest, at?_of_isHexadecimal hmarker]
      simp only [Option.bind_eq_bind, Option.bind_some, Numeral.value?]
      cases (more.takeWhile isHexDigit).isEmpty with
      | true => rfl
      | false => rfl
    · have hprefix := Numeral.prefix_decimalAt d.rest
      rw [if_neg fun h => hhex ((hasAt_iff_isHexadecimal hstart).1 h), pastDecimal_eq hstart,
        slice?_skip_length hstart hprefix, at?_of_not_isHexadecimal hstarts hhex]
      simp only [Option.bind_eq_bind, Option.bind_some, decimalAt_text hstarts]
      rfl

end Bytewise

end Reckon
