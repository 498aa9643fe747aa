import Mathlib.Tactic.Common
import Reckon.Filter.Pattern.Basic

/-!
# The notation of patterns

`Pattern.IsWritten` says how patterns are written: `^` and `$` for the two ends, and between them
the pieces, each of them an atom with nothing, `*` or `+` behind it.  Every text is written for the
pattern that is read from it (`Pattern.isWritten_ofString`), but a text can be written for several
patterns: `a*` is also the character `a` followed by the character `*`.

This does not happen to patterns in which no sign of the notation is meant as a character.  A text
stands for such a pattern exactly if it is written for it (`Pattern.ofString_eq_iff`).
-/

namespace Reckon

/-! ## Texts in parts -/

/-- Whether a text falls into consecutive parts, one written for each item of a list. -/
inductive WrittenInOrder {α : Type} (R : α → List Char → Prop) : List α → List Char → Prop
  | nil : WrittenInOrder R [] []
  | cons {a : α} {as : List α} {part rest : List Char} :
      R a part → WrittenInOrder R as rest → WrittenInOrder R (a :: as) (part ++ rest)

namespace WrittenInOrder

variable {α : Type} {R : α → List Char → Prop} {a : α} {as bs : List α}
  {part text text' : List Char}

/-- What is written behind something else is written with it. -/
lemma append (h : WrittenInOrder R as text) (h' : WrittenInOrder R bs text') :
    WrittenInOrder R (as ++ bs) (text ++ text') := by
  induction h with
  | nil => exact h'
  | cons hfirst _ ih =>
    rw [List.append_assoc]
    exact .cons hfirst ih

/-- A text goes on with one more part. -/
lemma concat (h : WrittenInOrder R as text) (ha : R a part) :
    WrittenInOrder R (as ++ [a]) (text ++ part) := by
  have hlast := WrittenInOrder.cons ha .nil
  rw [List.append_nil] at hlast
  exact h.append hlast

/-- If everything can be written, then so can lists. -/
lemma exists_of_forall (h : ∀ a, ∃ part, R a part) (as : List α) :
    ∃ text, WrittenInOrder R as text := by
  induction as with
  | nil => exact ⟨[], .nil⟩
  | cons a as ih =>
    obtain ⟨part, hpart⟩ := h a
    obtain ⟨text, htext⟩ := ih
    exact ⟨part ++ text, .cons hpart htext⟩

/-- The last part of a text. -/
lemma exists_of_concat (h : WrittenInOrder R (as ++ [a]) text) :
    ∃ before part, text = before ++ part ∧ WrittenInOrder R as before ∧ R a part := by
  induction as generalizing text with
  | nil =>
    cases h with
    | @cons _ _ part rest ha hrest =>
      cases hrest
      exact ⟨[], part, by simp, .nil, ha⟩
  | cons b as ih =>
    cases h with
    | cons hb hrest =>
      obtain ⟨before, part, rfl, hbefore, ha⟩ := ih hrest
      exact ⟨_, part, (List.append_assoc _ _ _).symm, .cons hb hbefore, ha⟩

end WrittenInOrder

/-! ## The notation -/

namespace Atom

/-- The characters that mean something else outside sets. -/
def signs : List Char := ['.', '^', '$', '[', '*', '+']

/-- The characters that mean something else inside sets. -/
def setSigns : List Char := [']', '-', '^']

/-- Whether no sign of the notation is meant as a character, and no set is empty. -/
def IsPlain : Atom → Prop
  | any => True
  | char expected => expected ∉ signs
  | set _ ranges => ranges ≠ [] ∧ ∀ r ∈ ranges, r.1 ∉ setSigns ∧ r.2 ∉ setSigns

/-- How a range is written: by its two ends, or as its only character. -/
inductive IsRangeText : Char × Char → List Char → Prop
  | single (c : Char) : IsRangeText (c, c) [c]
  | ends (low high : Char) : IsRangeText (low, high) [low, '-', high]

/-- How an atom is written. -/
inductive IsWritten : Atom → List Char → Prop
  | any : IsWritten any ['.']
  | char (c : Char) : IsWritten (char c) [c]
  | set {negated : Bool} {ranges : List (Char × Char)} {text : List Char} :
      WrittenInOrder IsRangeText ranges text →
      IsWritten (set negated ranges) ('[' :: ((if negated then ['^'] else []) ++ text ++ [']']))

end Atom

/-- The sign that stands for a repetition. -/
def Repetition.text : Repetition → List Char
  | once => []
  | zeroOrMore => ['*']
  | oneOrMore => ['+']

/-- How a piece is written: its atom, and its repetition behind it. -/
def Piece.IsWritten (piece : Piece) (text : List Char) : Prop :=
  ∃ part, piece.atom.IsWritten part ∧ text = part ++ piece.repetition.text

namespace Pattern

/-- How a pattern is written: its pieces in order, between the signs of the ends to which it is
tied. -/
def IsWritten (p : Pattern) (text : List Char) : Prop :=
  ∃ body, WrittenInOrder Piece.IsWritten p.pieces body ∧
    text = (if p.anchoredStart then ['^'] else []) ++ body ++ (if p.anchoredEnd then ['$'] else [])

/-- Whether no sign of the notation is meant as a character in a pattern. -/
def IsPlain (p : Pattern) : Prop := ∀ piece ∈ p.pieces, piece.atom.IsPlain

end Pattern

/-! ## Every text is written for its pattern -/

namespace Atom

variable {isFirst : Bool} {text rest : List Char} {ranges : List (Char × Char)} {atom : Atom}

/-- What is read as the end of a range is a minus sign and a character. -/
lemma eq_of_rangeEnd? {high : Char} (h : rangeEnd? text = some high) :
    text = '-' :: high :: text.drop 2 := by
  unfold rangeEnd? at h
  split at h
  · split at h
    · cases h
    · cases h
      rfl
  · cases h

/-- What is read as ranges is written for them. -/
lemma exists_of_ranges? (h : ranges? isFirst text = some (ranges, rest)) :
    ∃ part, text = part ++ ']' :: rest ∧ WrittenInOrder IsRangeText ranges part := by
  fun_induction ranges? isFirst text generalizing ranges with
  | case1 => cases h
  | case2 isFirst c more hclose =>
    cases h
    have hc : c = ']' := (by simpa using hclose : c = ']' ∧ isFirst = false).1
    exact ⟨[], by rw [hc]; rfl, .nil⟩
  | case3 isFirst c more _ high hend ih =>
    obtain ⟨⟨others, behind⟩, hothers, heq⟩ := Option.map_eq_some_iff.1 h
    obtain ⟨rfl, rfl⟩ := Prod.mk.inj heq
    obtain ⟨part, hpart, hwritten⟩ := ih hothers
    refine ⟨_, ?_, .cons (.ends c high) hwritten⟩
    rw [eq_of_rangeEnd? hend, hpart]
    rfl
  | case4 isFirst c more _ _ ih =>
    obtain ⟨⟨others, behind⟩, hothers, heq⟩ := Option.map_eq_some_iff.1 h
    obtain ⟨rfl, rfl⟩ := Prod.mk.inj heq
    obtain ⟨part, rfl, hwritten⟩ := ih hothers
    exact ⟨_, rfl, .cons (.single c) hwritten⟩

/-- What is read as a set is written for it. -/
lemma exists_of_set? (h : set? text = some (atom, rest)) :
    ∃ part, text = part ++ rest ∧ atom.IsWritten ('[' :: part) := by
  unfold set? at h
  split at h
  · obtain ⟨⟨ranges, behind⟩, hranges, heq⟩ := Option.map_eq_some_iff.1 h
    obtain ⟨rfl, rfl⟩ := Prod.mk.inj heq
    obtain ⟨part, rfl, hwritten⟩ := exists_of_ranges? hranges
    exact ⟨'^' :: (part ++ [']']), by simp, (.set hwritten : Atom.IsWritten (.set true ranges) _)⟩
  · obtain ⟨⟨ranges, behind⟩, hranges, heq⟩ := Option.map_eq_some_iff.1 h
    obtain ⟨rfl, rfl⟩ := Prod.mk.inj heq
    obtain ⟨part, rfl, hwritten⟩ := exists_of_ranges? hranges
    exact ⟨part ++ [']'], by simp, (.set hwritten : Atom.IsWritten (.set false ranges) _)⟩

end Atom

/-- A sign stands for the repetition that is written so. -/
lemma Repetition.text_of_ofSign? {c : Char} {r : Repetition} (h : ofSign? c = some r) :
    r.text = [c] := by
  unfold ofSign? at h
  split at h
  · cases h
    rfl
  · cases h
    rfl
  · cases h

namespace Pattern

variable {before pieces : List Piece} {text : List Char}

/-- The last piece is repeated if it is not repeated yet. -/
lemma exists_of_repeatLast? {r : Repetition} {repeated : List Piece}
    (h : repeatLast? r before = some repeated) :
    ∃ atom more, before = ⟨atom, .once⟩ :: more ∧ repeated = ⟨atom, r⟩ :: more := by
  unfold repeatLast? at h
  split at h
  · cases h
    exact ⟨_, _, rfl, rfl⟩
  · cases h

/-- A piece that is taken once is written like its atom. -/
lemma isWritten_once {atom : Atom} {part : List Char} (h : atom.IsWritten part) :
    Piece.IsWritten ⟨atom, .once⟩ part :=
  ⟨part, h, (List.append_nil part).symm⟩

/-- One more atom is written. -/
lemma writtenInOrder_push {read part : List Char} {atom : Atom}
    (h : WrittenInOrder Piece.IsWritten before.reverse read) (hatom : atom.IsWritten part) :
    WrittenInOrder Piece.IsWritten (⟨atom, .once⟩ :: before : List Piece).reverse
      (read ++ part) := by
  rw [List.reverse_cons]
  exact h.concat (isWritten_once hatom)

/-- What is read as pieces is written for them. -/
lemma writtenInOrder_piecesAfter (text : List Char) {read : List Char}
    (h : WrittenInOrder Piece.IsWritten before.reverse read) :
    WrittenInOrder Piece.IsWritten (piecesAfter before text) (read ++ text) := by
  fun_induction piecesAfter before text generalizing read with
  | case1 before =>
    rw [List.append_nil]
    exact h
  | case2 before c rest repeated hrepeated ih =>
    -- The sign belongs to the last of the pieces that were read.
    obtain ⟨r, hsign, hlast⟩ := Option.bind_eq_some_iff.1 hrepeated
    obtain ⟨atom, more, rfl, rfl⟩ := exists_of_repeatLast? hlast
    rw [List.reverse_cons] at h
    obtain ⟨readBefore, part, rfl, hbefore, part', hatom, hpart⟩ := h.exists_of_concat
    have hpart : part = part' := hpart.trans (List.append_nil part')
    rw [List.append_cons]
    refine ih ?_
    rw [List.reverse_cons, List.append_assoc]
    exact hbefore.concat ⟨part, hpart ▸ hatom, by rw [Repetition.text_of_ofSign? hsign]⟩
  | case3 before rest _ ih =>
    rw [List.append_cons]
    exact ih (writtenInOrder_push h .any)
  | case4 before rest atom more hset _ _ ih =>
    obtain ⟨part, rfl, hatom⟩ := Atom.exists_of_set? hset
    rw [← List.cons_append, ← List.append_assoc]
    exact ih (writtenInOrder_push h hatom)
  | case5 before rest _ _ _ ih =>
    rw [List.append_cons]
    exact ih (writtenInOrder_push h (.char '['))
  | case6 before c rest _ _ _ ih =>
    rw [List.append_cons]
    exact ih (writtenInOrder_push h (.char c))

/-- Every text is the written form of the pieces that are read from it. -/
lemma writtenInOrder_pieces (text : List Char) :
    WrittenInOrder Piece.IsWritten (piecesAfter [] text) text := by
  have hnone : WrittenInOrder Piece.IsWritten ([] : List Piece).reverse [] := .nil
  exact writtenInOrder_piecesAfter text hnone

/-- What stands between the anchors is the written form of the pattern. -/
lemma isWritten_ofBody (anchoredStart : Bool) (body : List Char) :
    (ofBody anchoredStart body).IsWritten ((if anchoredStart then ['^'] else []) ++ body) := by
  unfold ofBody
  split
  · rename_i hlast
    obtain ⟨front, rfl⟩ := List.getLast?_eq_some_iff.1 hlast
    rw [List.dropLast_concat, ← List.append_assoc]
    exact ⟨front, writtenInOrder_pieces front, rfl⟩
  · exact ⟨body, writtenInOrder_pieces body, (List.append_nil _).symm⟩

/-- Every text is written for the pattern that is read from it. -/
lemma isWritten_ofString (text : String) : (ofString text).IsWritten text.toList := by
  unfold ofString
  split
  · rename_i body htext
    rw [htext]
    exact isWritten_ofBody true body
  · exact isWritten_ofBody false text.toList

end Pattern

/-! ## Plain patterns are read back -/

namespace Atom

variable {isFirst : Bool} {part rest : List Char} {ranges : List (Char × Char)} {atom : Atom}

/-- No plain range begins with a minus sign, so that the range before it has ended. -/
lemma rangeEnd?_append (h : WrittenInOrder IsRangeText ranges part)
    (hplain : ∀ r ∈ ranges, r.1 ∉ setSigns ∧ r.2 ∉ setSigns) :
    rangeEnd? (part ++ ']' :: rest) = none := by
  have hminus : ∀ c, c ∉ setSigns → ∀ more, rangeEnd? (c :: more) = none := by
    intro c hc more
    unfold rangeEnd?
    split
    · rename_i heq
      obtain ⟨rfl, -⟩ := List.cons.inj heq
      exact absurd (by decide) hc
    · rfl
  cases h with
  | nil => rfl
  | cons hfirst _ =>
    have hc := (hplain _ List.mem_cons_self).1
    cases hfirst with
    | single c => exact hminus c hc _
    | ends low high => exact hminus low hc _

/-- Plain ranges are read up to the closing bracket. -/
lemma ranges?_append (h : WrittenInOrder IsRangeText ranges part)
    (hplain : ∀ r ∈ ranges, r.1 ∉ setSigns ∧ r.2 ∉ setSigns)
      (hfirst : isFirst = true → ranges ≠ []) :
    ranges? isFirst (part ++ ']' :: rest) = some (ranges, rest) := by
  induction h generalizing isFirst with
  | nil =>
    have hnot : isFirst = false := by
      cases isFirst with
      | true => exact absurd rfl (hfirst rfl)
      | false => rfl
    subst hnot
    rw [List.nil_append, ranges?]
    rfl
  | @cons r others part more hr hothers ih =>
    obtain ⟨hhead, hplain'⟩ := List.forall_mem_cons.1 hplain
    have hbracket : r.1 ≠ ']' ∧ r.2 ≠ ']' := by
      constructor
      · rintro heq
        exact hhead.1 (by rw [heq]; decide)
      · rintro heq
        exact hhead.2 (by rw [heq]; decide)
    have hmore : ranges? false (more ++ ']' :: rest) = some (others, rest) :=
      ih hplain' fun h => absurd h Bool.false_ne_true
    cases hr with
    | single c =>
      have hend : rangeEnd? (more ++ ']' :: rest) = none := rangeEnd?_append hothers hplain'
      rw [List.append_assoc, List.singleton_append, ranges?, hend, hmore]
      simp [hbracket.1]
    | ends low high =>
      have hend : rangeEnd? ('-' :: high :: (more ++ ']' :: rest)) = some high := if_neg hbracket.2
      rw [List.append_assoc, List.cons_append, List.cons_append, List.singleton_append, ranges?,
        hend]
      simp [hbracket.1, hmore]

/-- A plain set is read up to its closing bracket. -/
lemma set?_append {negated : Bool} (h : WrittenInOrder IsRangeText ranges part)
    (hplain : (set negated ranges).IsPlain) :
    set? ((if negated then ['^'] else []) ++ part ++ ']' :: rest) =
      some (set negated ranges, rest) := by
  obtain ⟨hne, hranges⟩ := hplain
  have hread : ranges? true (part ++ ']' :: rest) = some (ranges, rest) :=
    ranges?_append h hranges fun _ => hne
  cases negated with
  | true =>
    rw [if_pos rfl, List.append_assoc, List.singleton_append, set?, hread]
    rfl
  | false =>
    rw [if_neg Bool.false_ne_true, List.nil_append]
    unfold set?
    split
    · -- A plain range does not begin with the sign of negation.
      rename_i heq
      exfalso
      cases h with
      | nil => exact hne rfl
      | cons hr _ =>
        have hc := (hranges _ List.mem_cons_self).1
        have hcaret : '^' ∈ setSigns := by decide
        cases hr with
        | single c | ends c =>
          obtain ⟨rfl, -⟩ := List.cons.inj heq
          exact hc hcaret
    · rw [hread]
      rfl

end Atom

namespace Pattern

variable {before pieces : List Piece} {part body rest : List Char} {atom : Atom} {p : Pattern}

/-- A character that is no sign of a repetition begins a new piece. -/
lemma bind_ofSign?_eq_none {c : Char} (h : c ≠ '*' ∧ c ≠ '+') :
    ((Repetition.ofSign? c).bind fun r => repeatLast? r before) = none := by
  have hnone : Repetition.ofSign? c = none := by
    unfold Repetition.ofSign?
    split
    · exact absurd rfl h.1
    · exact absurd rfl h.2
    · rfl
  rw [hnone]
  rfl

/-- A plain atom is read as a piece. -/
lemma piecesAfter_atom (h : atom.IsWritten part) (hplain : atom.IsPlain) :
    piecesAfter before (part ++ rest) = piecesAfter (⟨atom, .once⟩ :: before) rest := by
  cases h with
  | any =>
    rw [List.singleton_append, piecesAfter, bind_ofSign?_eq_none (by decide)]
    rfl
  | char c =>
    have hne : ∀ d ∈ Atom.signs, c ≠ d := fun d hd heq => hplain (heq ▸ hd)
    rw [List.singleton_append, piecesAfter,
      bind_ofSign?_eq_none ⟨hne '*' (by decide), hne '+' (by decide)⟩]
    dsimp only
    rw [if_neg (hne '.' (by decide)), if_neg (hne '[' (by decide))]
  | @set negated ranges text hranges =>
    have hset : Atom.set? (((if negated then ['^'] else []) ++ text ++ [']']) ++ rest) =
        some (.set negated ranges, rest) := by
      rw [List.append_assoc, List.singleton_append]
      exact Atom.set?_append hranges hplain
    rw [List.cons_append, piecesAfter, bind_ofSign?_eq_none (by decide)]
    dsimp only
    rw [if_neg (by decide), if_pos rfl]
    split
    · rename_i found more heq
      rw [hset] at heq
      obtain ⟨rfl, rfl⟩ := Prod.mk.inj (Option.some.inj heq)
      rfl
    · rename_i heq
      rw [hset] at heq
      cases heq

/-- The sign of a repetition belongs to the piece before it. -/
lemma piecesAfter_repetition (r : Repetition) :
    piecesAfter (⟨atom, .once⟩ :: before) (r.text ++ rest) =
      piecesAfter (⟨atom, r⟩ :: before) rest := by
  cases r with
  | once => rfl
  | zeroOrMore | oneOrMore =>
    rw [Repetition.text, List.singleton_append, piecesAfter]
    rfl

/-- Plain pieces are read one behind the other. -/
lemma piecesAfter_eq (h : WrittenInOrder Piece.IsWritten pieces body)
    (hplain : ∀ piece ∈ pieces, piece.atom.IsPlain) :
    piecesAfter before body = before.reverse ++ pieces := by
  induction h generalizing before with
  | nil =>
    rw [piecesAfter, List.append_nil]
  | @cons piece others part more hfirst _ ih =>
    obtain ⟨hatom, hothers⟩ := List.forall_mem_cons.1 hplain
    obtain ⟨text, htext, rfl⟩ := hfirst
    rw [List.append_assoc, piecesAfter_atom htext hatom, piecesAfter_repetition, ih hothers,
      List.reverse_cons, List.append_assoc, List.singleton_append]

/-- A text in two parts begins and ends as one of them does. -/
lemma ends_append {text text' : List Char} {c d : Char}
    (h : text.head? ≠ some c ∧ text.getLast? ≠ some d)
    (h' : text'.head? ≠ some c ∧ text'.getLast? ≠ some d) :
    (text ++ text').head? ≠ some c ∧ (text ++ text').getLast? ≠ some d := by
  rw [List.head?_append, List.getLast?_append, ne_eq, ne_eq, Option.or_eq_some_iff,
    Option.or_eq_some_iff]
  exact ⟨fun hor => hor.elim h.1 fun hright => h'.1 hright.2,
    fun hor => hor.elim h'.2 fun hleft => h.2 hleft.2⟩

/-- A plain atom does not begin or end with a sign that ties a pattern to an end of the text. -/
lemma ends_atom (h : atom.IsWritten part) (hplain : atom.IsPlain) :
    part.head? ≠ some '^' ∧ part.getLast? ≠ some '$' := by
  cases h with
  | any => decide
  | char c =>
    have hne : ∀ d ∈ Atom.signs, c ≠ d := fun d hd heq => hplain (heq ▸ hd)
    exact ⟨fun heq => hne '^' (by decide) (Option.some.inj heq),
      fun heq => hne '$' (by decide) (Option.some.inj heq)⟩
  | @set negated ranges text hranges =>
    rw [← List.cons_append, List.getLast?_concat]
    exact ⟨by simp, by decide⟩

/-- Neither do plain pieces. -/
lemma ends_pieces (h : WrittenInOrder Piece.IsWritten pieces body)
    (hplain : ∀ piece ∈ pieces, piece.atom.IsPlain) :
    body.head? ≠ some '^' ∧ body.getLast? ≠ some '$' := by
  induction h with
  | nil => exact ⟨nofun, nofun⟩
  | @cons piece others part more hfirst _ ih =>
    obtain ⟨hatom, hothers⟩ := List.forall_mem_cons.1 hplain
    obtain ⟨text, htext, rfl⟩ := hfirst
    have hsign : piece.repetition.text.head? ≠ some '^' ∧
        piece.repetition.text.getLast? ≠ some '$' := by
      cases piece.repetition with
      | once | zeroOrMore | oneOrMore => decide
    exact ends_append (ends_append (ends_atom htext hatom) hsign) (ih hothers)

/-- The end of the text is what a pattern is tied to if it says so behind its plain pieces. -/
lemma ofBody_append (h : WrittenInOrder Piece.IsWritten pieces body)
    (hplain : ∀ piece ∈ pieces, piece.atom.IsPlain) (anchoredStart anchoredEnd : Bool) :
    ofBody anchoredStart (body ++ if anchoredEnd then ['$'] else []) =
      ⟨pieces, anchoredStart, anchoredEnd⟩ := by
  have hread : piecesAfter [] body = pieces := piecesAfter_eq h hplain
  unfold ofBody
  cases anchoredEnd with
  | true =>
    rw [if_pos rfl, List.getLast?_concat, if_pos rfl, List.dropLast_concat, hread]
  | false =>
    rw [if_neg Bool.false_ne_true, List.append_nil, if_neg (ends_pieces h hplain).2, hread]

/-- What is written for a plain pattern is read as this pattern. -/
lemma ofString_of_isWritten (hplain : p.IsPlain) {text : String} (h : p.IsWritten text.toList) :
    ofString text = p := by
  obtain ⟨pieces, anchoredStart, anchoredEnd⟩ := p
  obtain ⟨body, hbody, htext⟩ := h
  have hread := fun start => ofBody_append hbody hplain start anchoredEnd
  unfold ofString
  dsimp only at htext
  rw [htext, List.append_assoc]
  cases anchoredStart with
  | true => exact hread true
  | false =>
    split
    · -- Neither the pieces nor the sign of the end begin with the sign of the start.
      rename_i more heq
      exfalso
      have hhead := congrArg List.head? heq
      rw [if_neg Bool.false_ne_true, List.nil_append, List.head?_append, List.head?_cons,
        Option.or_eq_some_iff] at hhead
      rcases hhead with hbegins | ⟨-, hend⟩
      · exact (ends_pieces hbody hplain).1 hbegins
      · cases anchoredEnd with
        | true => exact absurd (Option.some.inj hend) (by decide)
        | false => cases hend
    · exact hread false

/-! ## The texts of a pattern -/

/-- Every pattern can be written. -/
lemma exists_isWritten (p : Pattern) : ∃ text, p.IsWritten text := by
  have hranges : ∀ ranges, ∃ text, WrittenInOrder Atom.IsRangeText ranges text :=
    WrittenInOrder.exists_of_forall fun r => ⟨_, .ends r.1 r.2⟩
  have hatom : ∀ atom : Atom, ∃ text, atom.IsWritten text := by
    intro atom
    cases atom with
    | any => exact ⟨_, .any⟩
    | char c => exact ⟨_, .char c⟩
    | set negated ranges =>
      obtain ⟨text, htext⟩ := hranges ranges
      exact ⟨_, .set htext⟩
  obtain ⟨body, hbody⟩ := WrittenInOrder.exists_of_forall (R := Piece.IsWritten) (fun piece => by
    obtain ⟨text, htext⟩ := hatom piece.atom
    exact ⟨_, text, htext, rfl⟩) p.pieces
  exact ⟨_, body, hbody, rfl⟩

/-- A pattern in which no sign of the notation is meant as a character can be written, and a text
stands for it exactly if it is written for it: then it is read as these pieces, in this order, with
these repetitions, ranges and ends. -/
theorem ofString_eq_iff (p : Pattern) (h : p.IsPlain) :
    (∃ text : String, p.IsWritten text.toList) ∧
      ∀ text : String, ofString text = p ↔ p.IsWritten text.toList := by
  refine ⟨?_, fun text => ⟨?_, ofString_of_isWritten h⟩⟩
  · obtain ⟨text, htext⟩ := exists_isWritten p
    exact ⟨String.ofList text, by rwa [String.toList_ofList]⟩
  · rintro rfl
    exact isWritten_ofString text

/-- A negated set of a range and a character, a repeated dot and a minus sign, tied to both ends. -/
theorem ofString_negated_set :
    let p : Pattern := ⟨[⟨.set true [('a', 'z'), ('_', '_')], .oneOrMore⟩, ⟨.any, .zeroOrMore⟩,
      ⟨.char '-', .once⟩], true, true⟩
    p.IsPlain ∧ p.IsWritten "^[^a-z_]+.*-$".toList ∧ ofString "^[^a-z_]+.*-$" = p := by
  intro p
  have hset : Atom.IsPlain (.set true [('a', 'z'), ('_', '_')]) := by
    refine ⟨List.cons_ne_nil _ _, List.forall_mem_cons.2 ⟨by decide, ?_⟩⟩
    exact List.forall_mem_singleton.2 (by decide)
  have hplain : p.IsPlain := by
    refine List.forall_mem_cons.2 ⟨hset, List.forall_mem_cons.2 ⟨trivial, ?_⟩⟩
    have hminus : '-' ∉ Atom.signs := by decide
    exact List.forall_mem_singleton.2 hminus
  have hranges : WrittenInOrder Atom.IsRangeText [('a', 'z'), ('_', '_')] ['a', '-', 'z', '_'] :=
    .cons (Atom.IsRangeText.ends 'a' 'z') (.cons (Atom.IsRangeText.single '_') .nil)
  have hwritten : p.IsWritten "^[^a-z_]+.*-$".toList :=
    ⟨_, .cons ⟨_, .set hranges, rfl⟩ (.cons ⟨_, .any, rfl⟩ (.cons ⟨_, .char '-', rfl⟩ .nil)),
      by decide⟩
  exact ⟨hplain, hwritten, ((ofString_eq_iff p hplain).2 _).2 hwritten⟩

end Pattern

end Reckon
