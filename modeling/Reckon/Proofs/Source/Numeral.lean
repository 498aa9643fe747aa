import Mathlib.Data.List.TakeWhile
import Reckon.Proofs.Source.Digits

/-!
# The longest numeral

Numerals are read by maximal munch.  `Numeral.IsWritten` says which texts are numerals: hexadecimal
digits behind `0x`, or decimal digits with a fraction and an exponent.  Of all the numerals a text
begins with, `Numeral.at?` reads the longest one, and it reads none only if there is none
(`Numeral.at?_eq_some_of_longest`, `Numeral.longest_of_at?`).

Both halves rest on one computation: a written numeral is read back if what follows cannot be a part
of it (`Numeral.at?_text_append`).
-/

namespace Reckon

/-- A stretch of accepted characters is read as far as it goes. -/
lemma takeWhile_append_eq {p : Char → Bool} {part rest : List Char} (hpart : ∀ c ∈ part, p c)
    (hrest : ∀ c ∈ rest.head?, ¬ p c) : (part ++ rest).takeWhile p = part := by
  rw [List.takeWhile_append_of_pos hpart]
  cases rest with
  | nil => simp
  | cons c rest =>
    have hc : ¬ p c := hrest c rfl
    simp [hc]

/-- Of all the things whose written form a text begins with, one has the longest form. -/
lemma exists_longest {α : Type*} {written : α → List Char} {P : α → Prop} {text : List Char} {a : α}
    (ha : P a) (hbegins : written a <+: text) :
    ∃ b, (P b ∧ written b <+: text) ∧
      ∀ c, P c → written c <+: text → (written c).length ≤ (written b).length := by
  induction hn : text.length - (written a).length using Nat.strong_induction_on generalizing a with
  | _ n ih =>
    by_cases hmax : ∀ c, P c → written c <+: text → (written c).length ≤ (written a).length
    · exact ⟨a, ⟨ha, hbegins⟩, hmax⟩
    · push Not at hmax
      obtain ⟨b, hb, hbbegins, hlt⟩ := hmax
      have hle := hbbegins.length_le
      exact ih (text.length - (written b).length) (by omega) hb hbbegins rfl

namespace Exponent

/-- The exponents that can be written: a letter, perhaps a sign, and at least one digit. -/
def IsWritten (e : Exponent) : Prop :=
  (e.marker = 'e' ∨ e.marker = 'E') ∧ (∀ c ∈ e.sign, c = '+' ∨ c = '-') ∧ e.digits ≠ [] ∧
    ∀ c ∈ e.digits, c.isDigit

variable {e : Exponent} {text rest : List Char}

/-- The sign a text begins with is a part of the text. -/
lemma toList_filter_head?_append (p : Char → Bool) (text : List Char) :
    (text.head?.filter p).toList ++ text.drop (text.head?.filter p).toList.length = text := by
  cases text with
  | nil => rfl
  | cons c rest =>
    rw [List.head?_cons, Option.filter_some]
    split <;> rfl

/-- The exponent that is read is written where the text begins. -/
lemma isWritten_of_at? (h : at? text = some e) : e.IsWritten ∧ e.text <+: text := by
  cases text with
  | nil => simp [at?] at h
  | cons marker more =>
    unfold at? at h
    simp only at h
    split at h
    · rename_i hmarker
      split at h
      · simp at h
      · rename_i hdigits
        rw [Option.some.injEq] at h
        subst h
        refine ⟨⟨hmarker, ?_, ?_, ?_⟩, ?_⟩
        · intro c hc
          simpa using (Option.mem_filter_iff.1 hc).2
        · simpa using hdigits
        · intro c hc
          exact List.mem_takeWhile_imp hc
        · rw [Exponent.text, List.cons_prefix_cons]
          refine ⟨rfl, ?_⟩
          conv_rhs => rw [← toList_filter_head?_append (fun c => c = '+' ∨ c = '-') more]
          rw [List.prefix_append_right_inj]
          exact List.takeWhile_prefix _
    · simp at h

/-- A written exponent is read back if no digit follows. -/
lemma at?_text_append (h : e.IsWritten) (hrest : ∀ c ∈ rest.head?, ¬ c.isDigit) :
    at? (e.text ++ rest) = some e := by
  obtain ⟨marker, sign, digits⟩ := e
  obtain ⟨hmarker, hsign, hne, hdigits⟩ := h
  obtain ⟨d, more, rfl⟩ := List.exists_cons_of_ne_nil hne
  have hd : d.isDigit := hdigits d (by simp)
  have hread : (d :: more ++ rest).takeWhile Char.isDigit = d :: more :=
    takeWhile_append_eq hdigits hrest
  have hfilter : ((sign.toList ++ (d :: more ++ rest)).head?.filter
      fun c => c = '+' ∨ c = '-') = sign := by
    cases sign with
    | none =>
      have hplus : d ≠ '+' := by rintro rfl; simp at hd
      have hminus : d ≠ '-' := by rintro rfl; simp at hd
      simp [Option.filter_some, hplus, hminus]
    | some c =>
      have hc := hsign c rfl
      simp [Option.filter_some, hc]
  rw [Exponent.text, List.cons_append, List.append_assoc, at?]
  simp only [hmarker, ↓reduceIte, hfilter, List.drop_left, hread]
  simp

end Exponent

namespace Numeral

/-- The numerals that can be written.  A hexadecimal one may lack its digits, and then has no
value; a decimal one has a digit on at least one side of the point. -/
def IsWritten : Numeral → Prop
  | hexadecimal marker digits => (marker = 'x' ∨ marker = 'X') ∧ ∀ c ∈ digits, IsHexSign c
  | decimal whole fraction exponent =>
    (∀ c ∈ whole, c.isDigit) ∧ (∀ places ∈ fraction, ∀ c ∈ places, c.isDigit) ∧
      (∀ e ∈ exponent, e.IsWritten) ∧ (whole = [] → ∃ d places, fraction = some (d :: places))

variable {n : Numeral} {text rest : List Char}

/-- A fraction that is found is a point and digits. -/
lemma prefix_of_fractionAt? {places : List Char} (h : fractionAt? text = some places) :
    '.' :: places <+: text ∧ ∀ c ∈ places, c.isDigit := by
  unfold fractionAt? at h
  split at h
  · rw [Option.some.injEq] at h
    subst h
    refine ⟨?_, fun c hc => List.mem_takeWhile_imp hc⟩
    rw [List.cons_prefix_cons]
    exact ⟨rfl, List.takeWhile_prefix _⟩
  · simp at h

/-- What is read of a text without its exponent is the beginning of the text. -/
lemma prefix_whole_fraction (text : List Char) :
    (decimal (text.takeWhile Char.isDigit)
      (fractionAt? (text.drop (text.takeWhile Char.isDigit).length)) none).text <+: text := by
  rw [Numeral.text, Option.elim_none, List.append_nil]
  have hwhole : text.takeWhile Char.isDigit <+: text := List.takeWhile_prefix _
  conv_rhs => rw [← List.prefix_iff_eq_append.1 hwhole]
  rw [List.prefix_append_right_inj]
  cases hfraction : fractionAt? (text.drop (text.takeWhile Char.isDigit).length) with
  | none => exact List.nil_prefix
  | some places => exact (prefix_of_fractionAt? hfraction).1

/-- The text begins with the decimal numeral that is found there. -/
lemma prefix_decimalAt (text : List Char) : (decimalAt text).text <+: text := by
  have hbefore := prefix_whole_fraction text
  unfold decimalAt
  simp only
  conv_rhs => rw [← List.prefix_iff_eq_append.1 hbefore]
  rw [Numeral.text, Numeral.text, Option.elim_none, List.append_nil, List.prefix_append_right_inj]
  cases hexponent : Exponent.at? (text.drop _) with
  | none => exact List.nil_prefix
  | some e => exact (Exponent.isWritten_of_at? hexponent).2

/-- A decimal numeral that is found can be written. -/
lemma isWritten_decimalAt (h : starts text) : (decimalAt text).IsWritten := by
  refine ⟨fun c hc => List.mem_takeWhile_imp hc, ?_, ?_, ?_⟩
  · intro places hplaces
    exact (prefix_of_fractionAt? hplaces).2
  · intro e he
    exact (Exponent.isWritten_of_at? he).1
  · intro hwhole
    rw [hwhole, List.length_nil, List.drop_zero]
    cases text with
    | nil => simp [starts] at h
    | cons c more =>
      have hc : c.isDigit = false := by
        by_contra hc
        simp [hc] at hwhole
      simp only [starts, hc, Bool.false_or, Bool.and_eq_true, decide_eq_true_eq] at h
      obtain ⟨rfl, hmore⟩ := h
      cases more with
      | nil => simp at hmore
      | cons d more =>
        have hd : d.isDigit := by simpa using hmore
        exact ⟨d, more.takeWhile Char.isDigit, by simp [fractionAt?, hd]⟩

/-- The numeral that is read is written where the text begins. -/
lemma isWritten_of_at? (h : at? text = some n) : n.IsWritten ∧ n.text <+: text := by
  unfold at? at h
  split at h
  · rename_i hstarts
    split at h <;> rw [Option.some.injEq] at h <;> subst h
    · refine ⟨⟨.inl rfl, fun c hc => isHexDigit_iff.1 (List.mem_takeWhile_imp hc)⟩, ?_⟩
      rw [Numeral.text, List.cons_prefix_cons, List.cons_prefix_cons]
      exact ⟨rfl, rfl, List.takeWhile_prefix _⟩
    · refine ⟨⟨.inr rfl, fun c hc => isHexDigit_iff.1 (List.mem_takeWhile_imp hc)⟩, ?_⟩
      rw [Numeral.text, List.cons_prefix_cons, List.cons_prefix_cons]
      exact ⟨rfl, rfl, List.takeWhile_prefix _⟩
    · exact ⟨isWritten_decimalAt hstarts, prefix_decimalAt text⟩
  · simp at h

/-- Whether a numeral cannot go on in the text that follows it. -/
def EndsBefore (rest : List Char) : Numeral → Prop
  | hexadecimal _ _ => ∀ c ∈ rest.head?, ¬ IsHexSign c
  | decimal _ _ (some _) => ∀ c ∈ rest.head?, ¬ c.isDigit
  | decimal _ (some _) none => (∀ c ∈ rest.head?, ¬ c.isDigit) ∧ Exponent.at? rest = none
  | decimal whole none none =>
    (∀ c ∈ rest.head?, ¬ c.isDigit ∧ c ≠ '.') ∧ Exponent.at? rest = none ∧
      (whole = ['0'] → ∀ c ∈ rest.head?, c ≠ 'x' ∧ c ≠ 'X')

/-- A text begins as a numeral does if one is written there. -/
lemma starts_text_append (h : n.IsWritten) (rest : List Char) : starts (n.text ++ rest) := by
  cases n with
  | hexadecimal marker digits => simp [Numeral.text, starts]
  | decimal whole fraction exponent =>
    obtain ⟨hwhole, hfraction, -, hnonempty⟩ := h
    cases whole with
    | cons c whole =>
      have hc : c.isDigit := hwhole c (by simp)
      simp [Numeral.text, starts, hc]
    | nil =>
      obtain ⟨d, places, rfl⟩ := hnonempty rfl
      have hd : d.isDigit := hfraction _ rfl d (by simp)
      simp [Numeral.text, starts, hd]

section Decimal

variable {whole : List Char} {fraction : Option (List Char)} {exponent : Option Exponent}

/-- What follows the digits before the point is no digit. -/
lemma not_isDigit_head?_fraction (h : (decimal whole fraction exponent).IsWritten)
    (hends : (decimal whole fraction exponent).EndsBefore rest) {c : Char}
    (hc : c ∈ ((fraction.elim [] fun places => '.' :: places) ++
      ((exponent.elim [] Exponent.text) ++ rest)).head?) :
    ¬ c.isDigit ∧ (c = 'x' ∨ c = 'X' → whole ≠ ['0']) := by
  obtain ⟨-, -, hexponent, -⟩ := h
  cases fraction with
  | some places =>
    obtain rfl : '.' = c := by simpa using hc
    simp
  | none =>
    cases exponent with
    | some e =>
      obtain rfl : e.marker = c := by simpa [Exponent.text] using hc
      rcases (hexponent e rfl).1 with hmarker | hmarker <;> rw [hmarker] <;> simp
    | none =>
      obtain ⟨hrest, -, hzero⟩ := hends
      have hc' : c ∈ rest.head? := by simpa using hc
      refine ⟨(hrest c hc').1, fun hmarker hwhole => ?_⟩
      have hnot := hzero hwhole c hc'
      tauto

/-- A decimal numeral does not look like a hexadecimal one. -/
lemma text_append_ne_hexadecimal (h : (decimal whole fraction exponent).IsWritten)
    (hends : (decimal whole fraction exponent).EndsBefore rest) {marker : Char}
    (hmarker : marker = 'x' ∨ marker = 'X') (more : List Char) :
    (decimal whole fraction exponent).text ++ rest ≠ '0' :: marker :: more := by
  have hmarkerDigit : ¬ marker.isDigit := by
    rcases hmarker with rfl | rfl <;> decide
  intro htext
  rw [Numeral.text, List.append_assoc, List.append_assoc] at htext
  have hwhole := h.1
  match whole, hwhole, htext with
  | [], _, htext =>
    obtain ⟨d, places, rfl⟩ := h.2.2.2 rfl
    simp at htext
  | [c], _, htext =>
    obtain ⟨rfl, htail⟩ := List.cons.inj htext
    have hhead := congrArg List.head? htail
    exact (not_isDigit_head?_fraction h hends hhead).2 hmarker rfl
  | c :: d :: whole, hwhole, htext =>
    obtain ⟨-, htail⟩ := List.cons.inj htext
    obtain ⟨rfl, -⟩ := List.cons.inj htail
    exact hmarkerDigit (hwhole d (by simp))

/-- The fraction and the exponent of a decimal numeral are read back. -/
lemma fractionAt?_append (h : (decimal whole fraction exponent).IsWritten)
    (hends : (decimal whole fraction exponent).EndsBefore rest) :
    fractionAt? ((fraction.elim [] fun places => '.' :: places) ++
      ((exponent.elim [] Exponent.text) ++ rest)) = fraction := by
  obtain ⟨-, hfraction, hexponent, -⟩ := h
  have hafter : ∀ c ∈ ((exponent.elim [] Exponent.text) ++ rest).head?,
      ¬ c.isDigit ∧ (fraction = none → c ≠ '.') := by
    intro c hc
    cases exponent with
    | some e =>
      obtain rfl : e.marker = c := by simpa [Exponent.text] using hc
      rcases (hexponent e rfl).1 with hmarker | hmarker <;> rw [hmarker] <;> simp
    | none =>
      have hc' : c ∈ rest.head? := by simpa using hc
      cases fraction with
      | some places => exact ⟨hends.1 c hc', by simp⟩
      | none => exact ⟨(hends.1 c hc').1, fun _ => (hends.1 c hc').2⟩
  cases fraction with
  | some places =>
    have hread := takeWhile_append_eq (hfraction places rfl) fun c hc => (hafter c hc).1
    simp [fractionAt?, hread]
  | none =>
    rw [Option.elim_none, List.nil_append]
    unfold fractionAt?
    split
    · rename_i heq
      rw [heq] at hafter
      exact absurd rfl ((hafter '.' rfl).2 rfl)
    · rfl

/-- A written exponent is found again. -/
lemma exponentAt?_append (h : (decimal whole fraction exponent).IsWritten)
    (hends : (decimal whole fraction exponent).EndsBefore rest) :
    Exponent.at? ((exponent.elim [] Exponent.text) ++ rest) = exponent := by
  cases exponent with
  | some e =>
    refine Exponent.at?_text_append (h.2.2.1 e rfl) ?_
    cases fraction <;> exact hends
  | none =>
    cases fraction with
    | some places => exact hends.2
    | none => exact hends.2.1

/-- A written decimal numeral is found again. -/
lemma decimalAt_text_append (h : (decimal whole fraction exponent).IsWritten)
    (hends : (decimal whole fraction exponent).EndsBefore rest) :
    decimalAt ((decimal whole fraction exponent).text ++ rest) =
      decimal whole fraction exponent := by
  have hwhole : ((decimal whole fraction exponent).text ++ rest).takeWhile Char.isDigit =
      whole := by
    rw [Numeral.text, List.append_assoc, List.append_assoc]
    exact takeWhile_append_eq h.1 fun c hc => (not_isDigit_head?_fraction h hends hc).1
  have hfraction : fractionAt? (((decimal whole fraction exponent).text ++ rest).drop
      whole.length) = fraction := by
    rw [Numeral.text, List.append_assoc, List.append_assoc, List.drop_left]
    exact fractionAt?_append h hends
  have hexponent : Exponent.at? (((decimal whole fraction exponent).text ++ rest).drop
      (decimal whole fraction none).text.length) = exponent := by
    rw [Numeral.text, Numeral.text, Option.elim_none, List.append_nil, List.append_assoc,
      List.drop_left]
    exact exponentAt?_append h hends
  unfold decimalAt
  simp only [hwhole, hfraction, hexponent]

end Decimal

/-- A written numeral is read back if nothing follows with which it goes on. -/
lemma at?_text_append (h : n.IsWritten) (hends : n.EndsBefore rest) :
    at? (n.text ++ rest) = some n := by
  have hstarts := starts_text_append h rest
  unfold at?
  rw [if_pos hstarts]
  cases n with
  | hexadecimal marker digits =>
    have hread : (digits ++ rest).takeWhile isHexDigit = digits :=
      takeWhile_append_eq (fun c hc => isHexDigit_iff.2 (h.2 c hc))
        fun c hc hdigit => hends c hc (isHexDigit_iff.1 hdigit)
    rcases h.1 with rfl | rfl <;> simp [Numeral.text, hread]
  | decimal whole fraction exponent =>
    split
    · rename_i more htext
      exact absurd htext (text_append_ne_hexadecimal h hends (.inl rfl) more)
    · rename_i more htext
      exact absurd htext (text_append_ne_hexadecimal h hends (.inr rfl) more)
    · rw [decimalAt_text_append h hends]

/-- A numeral that no longer one extends ends before the rest of the text. -/
lemma endsBefore_of_longest (h : n.IsWritten)
    (hlongest : ∀ m : Numeral, m.IsWritten → m.text <+: n.text ++ rest →
      m.text.length ≤ n.text.length) : n.EndsBefore rest := by
  -- Each way to go on would make a longer numeral of `n` and the beginning of `rest`.
  have hextend : ∀ (m : Numeral) (part : List Char), m.IsWritten → m.text = n.text ++ part →
      part <+: rest → part = [] := by
    intro m part hm htext hpart
    have hle := hlongest m hm (by rw [htext]; exact (List.prefix_append_right_inj _).2 hpart)
    rw [htext, List.length_append] at hle
    exact List.eq_nil_of_length_eq_zero (by omega)
  have hhead : ∀ c ∈ rest.head?, [c] <+: rest := by
    intro c hc
    obtain ⟨more, rfl⟩ := List.head?_eq_some_iff.1 hc
    simp
  cases n with
  | hexadecimal marker digits =>
    intro c hc hdigit
    have hwritten : (hexadecimal marker (digits ++ [c])).IsWritten :=
      ⟨h.1, by simpa [or_imp, forall_and, hdigit] using h.2⟩
    exact absurd (hextend _ [c] hwritten (by simp [Numeral.text]) (hhead c hc)) (by simp)
  | decimal whole fraction exponent =>
    obtain ⟨hwhole, hfraction, hexponent, hnonempty⟩ := h
    have hexp : exponent = none → Exponent.at? rest = none := by
      rintro rfl
      by_contra hsome
      obtain ⟨e, he⟩ := Option.ne_none_iff_exists'.1 hsome
      obtain ⟨hwritten, hbegins⟩ := Exponent.isWritten_of_at? he
      have hnil := hextend (decimal whole fraction (some e)) e.text
        ⟨hwhole, hfraction, by simpa using hwritten, hnonempty⟩ (by simp [Numeral.text]) hbegins
      simp [Exponent.text] at hnil
    cases exponent with
    | some e =>
      intro c hc hdigit
      obtain ⟨hmarker, hsign, hne, hdigits⟩ := hexponent e rfl
      have hwritten : (⟨e.marker, e.sign, e.digits ++ [c]⟩ : Exponent).IsWritten :=
        ⟨hmarker, hsign, by simp, by simpa [or_imp, forall_and, hdigit] using hdigits⟩
      have hnil := hextend (decimal whole fraction (some ⟨e.marker, e.sign, e.digits ++ [c]⟩)) [c]
        ⟨hwhole, hfraction, by simpa using hwritten, hnonempty⟩
        (by simp [Numeral.text, Exponent.text]) (hhead c hc)
      simp at hnil
    | none =>
      cases fraction with
      | some places =>
        refine ⟨fun c hc hdigit => ?_, hexp rfl⟩
        have hnil := hextend (decimal whole (some (places ++ [c])) none) [c]
          ⟨hwhole, by simpa [or_imp, forall_and, hdigit] using hfraction, by simp,
            fun hempty => ?_⟩ (by simp [Numeral.text]) (hhead c hc)
        · simp at hnil
        · obtain ⟨d, more, hplaces⟩ := hnonempty hempty
          exact ⟨d, more ++ [c], by rw [Option.some.inj hplaces, List.cons_append]⟩
      | none =>
        have hwhole' : whole ≠ [] := by
          intro hempty
          obtain ⟨d, more, hnone⟩ := hnonempty hempty
          simp at hnone
        refine ⟨fun c hc => ⟨fun hdigit => ?_, ?_⟩, hexp rfl, ?_⟩
        · have hnil := hextend (decimal (whole ++ [c]) none none) [c]
            ⟨by simpa [or_imp, forall_and, hdigit] using hwhole, by simp, by simp, by simp⟩
            (by simp [Numeral.text]) (hhead c hc)
          simp at hnil
        · rintro rfl
          have hnil := hextend (decimal whole (some []) none) ['.']
            ⟨hwhole, by simp, by simp, fun hempty => absurd hempty hwhole'⟩
            (by simp [Numeral.text]) (hhead '.' hc)
          simp at hnil
        · rintro rfl c hc
          have hhex : ¬ (c = 'x' ∨ c = 'X') := by
            intro hmarker
            have hnil := hextend (hexadecimal c []) [c] ⟨hmarker, by simp⟩
              (by simp [Numeral.text]) (hhead c hc)
            simp at hnil
          exact not_or.1 hhex

/-- The longest numeral a text begins with is the one that is read. -/
lemma at?_eq_some_of_longest (h : n.IsWritten) (hbegins : n.text <+: text)
    (hlongest : ∀ m : Numeral, m.IsWritten → m.text <+: text → m.text.length ≤ n.text.length) :
    at? text = some n := by
  obtain ⟨rest, rfl⟩ := hbegins
  exact at?_text_append h (endsBefore_of_longest h hlongest)

/-- No numeral with which a text begins is longer than the one that is read. -/
lemma longest_of_at? (h : at? text = some n) {m : Numeral} (hm : m.IsWritten)
    (hbegins : m.text <+: text) : m.text.length ≤ n.text.length := by
  obtain ⟨k, ⟨hk, hkbegins⟩, hlongest⟩ := exists_longest hm hbegins
  have hread := at?_eq_some_of_longest hk hkbegins hlongest
  obtain rfl : k = n := Option.some.inj (hread.symm.trans h)
  exact hlongest m hm hbegins

end Numeral

end Reckon
