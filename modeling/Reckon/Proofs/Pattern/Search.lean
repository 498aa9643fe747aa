import Mathlib.Tactic.Common
import Reckon.Filter.Pattern.Matching
import Reckon.Filter.Pattern.Search
import Reckon.Proofs.Source.Cursor

/-!
# The search finds exactly the matches

The search walks through a text with a memory of its failures, tries the longest repetitions first
and skips the places at which a match cannot begin.  None of this shows in its answer.

The memory is right as long as every recorded slot belongs to a state without a match
(`Search.Failures.Sound`).  A slot determines its state, because an offset never exceeds the length
of the text and determines what is left of it.  So recording a failure keeps the memory right, and
looking one up gives the answer that the search would have found (`Search.matchAt_spec`).
-/

namespace Reckon

/-! ## What a piece leaves -/

namespace Atom

/-- The stops of an atom are the places behind the parts that consist of accepted characters. -/
lemma mem_stops_iff {atom : Atom} {text : List Char} {offset : Nat} {stop : Cursor} :
    stop ∈ atom.stops text offset ↔
      ∃ part, text = part ++ stop.rest ∧ (∀ c ∈ part, atom.accepts c) ∧
        stop.offset = offset + utf8Length part := by
  induction text generalizing offset with
  | nil =>
    constructor
    · intro h
      rw [stops, List.mem_singleton] at h
      subst h
      exact ⟨[], by simp, by simp, by simp [utf8Length]⟩
    · rintro ⟨part, htext, -, hoffset⟩
      obtain ⟨rfl, hrest⟩ := List.append_eq_nil_iff.1 htext.symm
      rw [stops, List.mem_singleton]
      exact Cursor.ext hrest hoffset
  | cons c text ih =>
    rw [stops, List.mem_cons]
    constructor
    · rintro (rfl | h)
      · exact ⟨[], by simp, by simp, by simp [utf8Length]⟩
      · split at h
        · rename_i hc
          obtain ⟨part, rfl, hpart, hoffset⟩ := ih.1 h
          refine ⟨c :: part, rfl, ?_, ?_⟩
          · simpa [hc] using hpart
          · rw [hoffset, utf8Length, Nat.add_assoc]
        · simp at h
    · rintro ⟨part, htext, hpart, hoffset⟩
      cases part with
      | nil =>
        left
        exact Cursor.ext htext.symm hoffset
      | cons d part =>
        right
        obtain ⟨rfl, rfl⟩ := List.cons.inj htext
        have hc : atom.accepts c := hpart c (by simp)
        rw [if_pos hc]
        refine ih.2 ⟨part, rfl, fun e he => hpart e (List.mem_cons_of_mem c he), ?_⟩
        rw [hoffset, utf8Length, Nat.add_assoc]

/-- Behind the first stop are those that lie behind at least one character. -/
lemma mem_tail_stops_iff {atom : Atom} {text : List Char} {offset : Nat} {stop : Cursor} :
    stop ∈ (atom.stops text offset).tail ↔
      ∃ part, text = part ++ stop.rest ∧ 0 < part.length ∧ (∀ c ∈ part, atom.accepts c) ∧
        stop.offset = offset + utf8Length part := by
  cases text with
  | nil =>
    simp only [stops, List.tail_cons, List.not_mem_nil, false_iff]
    rintro ⟨part, htext, hpos, -⟩
    obtain ⟨rfl, -⟩ := List.append_eq_nil_iff.1 htext.symm
    exact Nat.lt_irrefl 0 hpos
  | cons c text =>
    rw [stops, List.tail_cons]
    constructor
    · intro h
      split at h
      · rename_i hc
        obtain ⟨part, rfl, hpart, hoffset⟩ := mem_stops_iff.1 h
        refine ⟨c :: part, rfl, by simp, by simpa [hc] using hpart, ?_⟩
        rw [hoffset, utf8Length, Nat.add_assoc]
      · simp at h
    · rintro ⟨part, htext, hpos, hpart, hoffset⟩
      obtain ⟨d, part, rfl⟩ := List.exists_cons_of_length_pos hpos
      obtain ⟨rfl, rfl⟩ := List.cons.inj htext
      have hc : atom.accepts c := hpart c (by simp)
      rw [if_pos hc]
      refine mem_stops_iff.2 ⟨part, rfl, fun e he => hpart e (List.mem_cons_of_mem c he), ?_⟩
      rw [hoffset, utf8Length, Nat.add_assoc]

end Atom

/-- A piece can end exactly behind the parts that it accepts. -/
lemma Piece.mem_ends_iff {piece : Piece} {start stop : Cursor} :
    stop ∈ piece.ends start ↔
      ∃ part, start.rest = part ++ stop.rest ∧ piece.Accepts part ∧
        stop.offset = start.offset + utf8Length part := by
  unfold Piece.ends Piece.Accepts
  cases piece.repetition with
  | once =>
    cases hstart : start.rest with
    | nil =>
      simp only [List.not_mem_nil, false_iff]
      rintro ⟨part, hpart, ⟨hlength, -⟩, -⟩
      obtain ⟨rfl, -⟩ := List.append_eq_nil_iff.1 hpart.symm
      simp [Repetition.Allows] at hlength
    | cons c rest =>
      simp only
      constructor
      · intro h
        split at h
        · rename_i hc
          rw [List.mem_singleton] at h
          subst h
          exact ⟨[c], by simp [Cursor.skip, hstart], ⟨rfl, by simpa using hc⟩,
            by simp [Cursor.skip, hstart]⟩
        · simp at h
      · rintro ⟨part, hpart, ⟨hlength, haccepts⟩, hoffset⟩
        obtain ⟨d, rfl⟩ := List.length_eq_one_iff.1 hlength
        obtain ⟨rfl, hrest⟩ := List.cons.inj hpart
        rw [if_pos (haccepts c (by simp)), List.mem_singleton]
        refine Cursor.ext ?_ ?_
        · simp [Cursor.skip, hstart, hrest]
        · simp [Cursor.skip, hstart, hoffset]
  | zeroOrMore => simp [Repetition.Allows, Atom.mem_stops_iff]
  | oneOrMore => simp [Repetition.Allows, Atom.mem_tail_stops_iff, and_assoc]

/-- Whether pieces match at the start of what is left of a text. -/
def MatchesAt (anchoredEnd : Bool) (pieces : List Piece) (rest : List Char) : Prop :=
  ∃ found after, rest = found ++ after ∧ AcceptedInOrder pieces found ∧
    (anchoredEnd → after = [])

namespace MatchesAt

variable {anchoredEnd : Bool} {piece : Piece} {pieces : List Piece} {rest : List Char}

/-- No pieces match everywhere, or at the end only. -/
lemma nil_iff : MatchesAt anchoredEnd [] rest ↔ (anchoredEnd → rest = []) := by
  constructor
  · rintro ⟨found, after, rfl, hfound, hafter⟩ hend
    cases hfound
    exact hafter hend
  · intro h
    exact ⟨[], rest, rfl, .nil, h⟩

/-- Pieces match if the first one leaves a place at which the others match. -/
lemma cons_iff {start : Cursor} : MatchesAt anchoredEnd (piece :: pieces) start.rest ↔
    ∃ stop ∈ piece.ends start, MatchesAt anchoredEnd pieces stop.rest := by
  constructor
  · rintro ⟨found, after, hrest, hfound, hafter⟩
    obtain _ | ⟨first, others⟩ := hfound
    rename_i part rest'
    rw [List.append_assoc] at hrest
    exact ⟨⟨rest' ++ after, _⟩, Piece.mem_ends_iff.2 ⟨part, hrest, first, rfl⟩,
      rest', after, rfl, others, hafter⟩
  · rintro ⟨stop, hstop, found, after, hrest, hfound, hafter⟩
    obtain ⟨part, hpart, first, -⟩ := Piece.mem_ends_iff.1 hstop
    exact ⟨part ++ found, after, by rw [hpart, hrest, List.append_assoc], .cons first hfound,
      hafter⟩

end MatchesAt

/-- A stop of a piece stands in the text in which it began. -/
lemma Piece.standsIn_of_mem_ends {piece : Piece} {start stop : Cursor} {text : List Char}
    (h : start.StandsIn text) (hstop : stop ∈ piece.ends start) : stop.StandsIn text := by
  obtain ⟨part, hrest, -, hoffset⟩ := Piece.mem_ends_iff.1 hstop
  have hmoved := h.move hrest
  rwa [← hoffset] at hmoved

/-! ## The memory of failures -/

namespace Search

variable {s : Search} {pieces : List Piece} {text : List Char}

/-- A slot belongs to one state only, since no offset exceeds the length of the text. -/
lemma slot_injective {index index' offset offset' : Nat} (hoffset : offset ≤ s.length)
    (hoffset' : offset' ≤ s.length) (h : s.slot index offset = s.slot index' offset') :
    index = index' ∧ offset = offset' := by
  unfold slot at h
  have hindex : index = index' := by
    have hdiv := congrArg (· / (s.length + 1)) h
    simpa [Nat.mul_comm _ (s.length + 1), Nat.mul_add_div, Nat.div_eq_of_lt,
      Nat.lt_succ_of_le hoffset, Nat.lt_succ_of_le hoffset'] using hdiv
  subst hindex
  exact ⟨rfl, Nat.add_left_cancel h⟩

/-- A memory is sound for a pattern and a text if no state whose slot it holds has a match. -/
def Sound (s : Search) (pieces : List Piece) (text : List Char) (failures : Failures) : Prop :=
  ∀ (index : ℕ) (start : Cursor), start.StandsIn text → s.slot index start.offset ∈ failures →
    ¬ MatchesAt s.anchoredEnd (pieces.drop index) start.rest

/-- Before any search nothing has failed. -/
lemma sound_empty : s.Sound pieces text ∅ := by
  intro index start _ hmem
  simp at hmem

/-- A state without a match can be recorded. -/
lemma Sound.insert {failures : Failures} {index : Nat} {start : Cursor}
    (hlength : s.length = utf8Length text) (h : s.Sound pieces text failures)
    (hstart : start.StandsIn text)
    (hfail : ¬ MatchesAt s.anchoredEnd (pieces.drop index) start.rest) :
    s.Sound pieces text (failures.insert (s.slot index start.offset)) := by
  intro index' start' hstart' hmem
  rw [Std.HashSet.mem_insert, beq_iff_eq] at hmem
  rcases hmem with hslot | hmem
  · have hle : start.offset ≤ s.length := by
      have := hstart.offset_add_utf8Length
      omega
    have hle' : start'.offset ≤ s.length := by
      have := hstart'.offset_add_utf8Length
      omega
    obtain ⟨rfl, hoffset⟩ := slot_injective hle hle' hslot
    rw [← hstart.eq_of_offset_eq hstart' hoffset]
    exact hfail
  · exact h index' start' hstart' hmem

end Search

lemma stateM_bind_apply {σ α β : Type} (x : StateM σ α) (f : α → StateM σ β) (s : σ) :
    (x >>= f) s = f (x s).1 (x s).2 := rfl

/-- A search through a list by an action that keeps an invariant, and whose answers are right where
the invariant holds. -/
lemma anyM_spec {α σ : Type} {invariant : σ → Prop} {holds : α → Prop} (check : α → StateM σ Bool)
    (items : List α)
    (hcheck : ∀ a ∈ items, ∀ s, invariant s →
      invariant (check a s).2 ∧ ((check a s).1 = true ↔ holds a)) {s : σ} (hs : invariant s) :
    invariant (items.anyM check s).2 ∧
      ((items.anyM check s).1 = true ↔ ∃ a ∈ items, holds a) := by
  induction items generalizing s with
  | nil =>
    have hrun : ([] : List α).anyM check s = (false, s) := rfl
    rw [hrun]
    exact ⟨hs, by simp⟩
  | cons a items ih =>
    obtain ⟨hkeep, hanswer⟩ := hcheck a (by simp) s hs
    have hrest := ih (fun b hb => hcheck b (List.mem_cons_of_mem a hb)) hkeep
    have hrun : (a :: items).anyM check s =
        if (check a s).1 = true then (true, (check a s).2)
        else items.anyM check (check a s).2 := by
      rw [List.anyM, stateM_bind_apply]
      cases (check a s).1 <;> rfl
    rw [hrun]
    split
    · rename_i htrue
      exact ⟨hkeep, by simp [hanswer.1 htrue]⟩
    · rename_i hfalse
      have hno : ¬ holds a := mt hanswer.2 hfalse
      refine ⟨hrest.1, hrest.2.trans ?_⟩
      simp [hno]

namespace Search

variable {s : Search} {pieces : List Piece} {text : List Char}

/-- One step of the search: a recorded state fails at once, and a state that fails is recorded. -/
lemma matchAt_cons (index : ℕ) (piece : Piece) (rest : List Piece) (start : Cursor)
    (failures : Failures) :
    s.matchAt index (piece :: rest) start failures =
      if s.remembers && failures.contains (s.slot index start.offset) then (false, failures)
      else
        let tried := (piece.ends start).anyM (s.matchAt (index + 1) rest) failures
        if s.remembers && !tried.1 then (tried.1, tried.2.insert (s.slot index start.offset))
        else tried := by
  rw [matchAt, stateM_bind_apply]
  change (if (s.remembers && failures.contains (s.slot index start.offset)) = true then
    pure false else _ : StateM Failures Bool) failures = _
  by_cases hseen : (s.remembers && failures.contains (s.slot index start.offset)) = true
  · rw [if_pos hseen, if_pos hseen]
    rfl
  · rw [if_neg hseen, if_neg hseen, stateM_bind_apply]
    by_cases hfail : (s.remembers && !((piece.ends start).anyM (s.matchAt (index + 1) rest)
        failures).1) = true
    · simp only [if_pos hfail]
      rfl
    · simp only [if_neg hfail]
      rfl

/-- The search keeps its memory sound, and with a sound memory it finds exactly the matches. -/
lemma matchAt_spec (hlength : s.length = utf8Length text) {index : ℕ} {rest : List Piece}
    {start : Cursor} {failures : Failures} (hrest : pieces.drop index = rest)
    (hstart : start.StandsIn text) (hsound : s.Sound pieces text failures) :
    s.Sound pieces text (s.matchAt index rest start failures).2 ∧
      ((s.matchAt index rest start failures).1 = true ↔
        MatchesAt s.anchoredEnd rest start.rest) := by
  induction rest generalizing index start failures with
  | nil =>
    refine ⟨hsound, ?_⟩
    have hrun : (s.matchAt index [] start failures).1 =
        (!s.anchoredEnd || decide (start.offset = s.length)) := rfl
    rw [MatchesAt.nil_iff, ← hstart.offset_eq_iff, ← hlength, hrun]
    cases s.anchoredEnd <;> simp
  | cons piece rest ih =>
    have hnext : pieces.drop (index + 1) = rest := by
      rw [← List.drop_drop, hrest, List.drop_succ_cons, List.drop_zero]
    -- The stops are tried one after the other, each with the memory that the one before it leaves.
    have htried := anyM_spec (s.matchAt (index + 1) rest) (piece.ends start)
      (fun stop hstop failures hsound =>
        ih hnext (Piece.standsIn_of_mem_ends hstart hstop) hsound) hsound
    rw [← MatchesAt.cons_iff] at htried
    obtain ⟨hkept, hanswer⟩ := htried
    rw [matchAt_cons]
    split
    · rename_i hseen
      rw [Bool.and_eq_true, Std.HashSet.contains_iff_mem] at hseen
      have hfail := hsound index start hstart hseen.2
      rw [hrest] at hfail
      exact ⟨hsound, by simpa using hfail⟩
    · dsimp only
      split
      · rename_i hfail
        rw [Bool.and_eq_true, Bool.not_eq_true', ← Bool.not_eq_true, hanswer] at hfail
        exact ⟨hkept.insert hlength hstart (hrest ▸ hfail.2), hanswer⟩
      · exact ⟨hkept, hanswer⟩

end Search

/-! ## The places where a match can begin -/

/-- A byte below 128 is the whole encoding of a character, of which it is the number. -/
lemma utf8EncodeChar_eq_of_mem {byte : UInt8} (hbyte : byte.toNat < 128) {c : Char}
    (h : byte ∈ String.utf8EncodeChar c) : String.utf8EncodeChar c = [byte] ∧ c.toUInt8 = byte := by
  have hlow : c.val.toNat ≤ 127 := by
    by_contra hhigh
    unfold String.utf8EncodeChar at h
    simp only [hhigh, ↓reduceIte] at h
    split at h <;> try split at h
    all_goals
      simp only [List.mem_cons, List.not_mem_nil, or_false] at h
      rcases h with rfl | rfl | rfl | rfl <;> simp only [UInt8.toNat_ofNat'] at hbyte <;> omega
  unfold String.utf8EncodeChar at h ⊢
  simp only [hlow, ↓reduceIte, List.mem_singleton] at h ⊢
  subst h
  exact ⟨rfl, rfl⟩

namespace Pattern

variable {p : Pattern} {text : String} {start : Cursor}

/-- An offset is found where the byte stands. -/
lemma mem_byteOffsets_iff {byte : UInt8} {text : List Char} {offset : ℕ} :
    offset ∈ byteOffsets byte text ↔
      (text.flatMap String.utf8EncodeChar)[offset]? = some byte := by
  unfold byteOffsets
  rw [List.mem_filterMap]
  constructor
  · rintro ⟨⟨found, place⟩, hmem, hfound⟩
    rw [List.mem_zipIdx_iff_getElem?] at hmem
    simp only [Option.ite_none_right_eq_some, Option.some.injEq] at hfound
    obtain ⟨rfl, rfl⟩ := hfound
    exact hmem
  · intro h
    exact ⟨(byte, offset), List.mem_zipIdx_iff_getElem?.2 h, by simp⟩

/-- A byte below 128 stands only where its character stands, and so never inside another one. -/
lemma getElem?_utf8_eq_some_iff {byte : UInt8} (hbyte : byte.toNat < 128) {text : List Char}
    {offset : ℕ} :
    (text.flatMap String.utf8EncodeChar)[offset]? = some byte ↔
      ∃ before c rest, text = before ++ c :: rest ∧ String.utf8EncodeChar c = [byte] ∧
        offset = utf8Length before := by
  induction text generalizing offset with
  | nil => simp
  | cons d text ih =>
    rw [List.flatMap_cons, List.getElem?_append]
    split
    · rename_i hinside
      constructor
      · intro h
        obtain ⟨hencode, -⟩ := utf8EncodeChar_eq_of_mem hbyte (List.mem_of_getElem? h)
        rw [hencode, List.length_singleton, Nat.lt_one_iff] at hinside
        exact ⟨[], d, text, rfl, hencode, by simpa [utf8Length] using hinside⟩
      · rintro ⟨before, c, rest, htext, hencode, rfl⟩
        cases before with
        | nil =>
          obtain ⟨rfl, rfl⟩ := List.cons.inj htext
          simp [hencode, utf8Length]
        | cons e before =>
          obtain ⟨rfl, rfl⟩ := List.cons.inj htext
          rw [String.length_utf8EncodeChar, utf8Length] at hinside
          omega
    · rename_i houtside
      rw [ih, String.length_utf8EncodeChar] at *
      rw [Nat.not_lt] at houtside
      constructor
      · rintro ⟨before, c, rest, rfl, hencode, hoffset⟩
        refine ⟨d :: before, c, rest, rfl, hencode, ?_⟩
        rw [utf8Length]
        omega
      · rintro ⟨before, c, rest, htext, hencode, rfl⟩
        cases before with
        | nil =>
          have := d.utf8Size_pos
          rw [utf8Length] at houtside
          omega
        | cons e before =>
          obtain ⟨rfl, rfl⟩ := List.cons.inj htext
          refine ⟨before, c, rest, rfl, hencode, ?_⟩
          rw [utf8Length]
          omega

/-- A piece that must occur and accepts one character only puts it at the start of every match. -/
lemma head?_of_matchesAt {anchoredEnd : Bool} {c : Char} {repetition : Repetition}
    {pieces : List Piece} {rest : List Char} (hrepetition : repetition ≠ .zeroOrMore)
    (h : MatchesAt anchoredEnd (⟨.char c, repetition⟩ :: pieces) rest) : rest.head? = some c := by
  obtain ⟨found, after, rfl, hfound, -⟩ := h
  obtain _ | ⟨⟨hallows, haccepts⟩, others⟩ := hfound
  rename_i part rest'
  have hpos : 0 < part.length := by
    cases repetition with
    | once => exact Nat.lt_of_lt_of_eq Nat.one_pos (Eq.symm hallows)
    | zeroOrMore => exact absurd rfl hrepetition
    | oneOrMore => exact hallows
  obtain ⟨d, part, rfl⟩ := List.exists_cons_of_length_pos hpos
  have hd : d = c := by simpa [Atom.accepts, eq_comm] using haccepts d (by simp)
  simp [hd]

/-- A leading byte encodes a character with which every match begins. -/
lemma exists_of_leadingByte? {byte : UInt8} (h : p.leadingByte? = some byte) :
    byte.toNat < 128 ∧ ∃ c, String.utf8EncodeChar c = [byte] ∧
      ∀ rest, MatchesAt p.anchoredEnd p.pieces rest → rest.head? = some c := by
  have hascii : ∀ c : Char, (if c.toNat < 128 then some c.toUInt8 else none) = some byte →
      byte.toNat < 128 ∧ String.utf8EncodeChar c = [byte] := by
    intro c hc
    rw [Option.ite_none_right_eq_some, Option.some.injEq] at hc
    obtain ⟨hlt, rfl⟩ := hc
    have hle : c.val.toNat ≤ 127 := Nat.le_of_lt_succ hlt
    refine ⟨?_, ?_⟩
    · rw [Char.toUInt8, UInt32.toNat_toUInt8]
      omega
    · unfold String.utf8EncodeChar
      simp only [hle, ↓reduceIte]
      rfl
  unfold leadingByte? at h
  split at h
  · rename_i c more hpieces
    obtain ⟨hbyte, hencode⟩ := hascii c h
    refine ⟨hbyte, c, hencode, fun rest hrest => ?_⟩
    rw [hpieces] at hrest
    exact head?_of_matchesAt (by simp) hrest
  · rename_i c more hpieces
    obtain ⟨hbyte, hencode⟩ := hascii c h
    refine ⟨hbyte, c, hencode, fun rest hrest => ?_⟩
    rw [hpieces] at hrest
    exact head?_of_matchesAt (by simp) hrest
  · simp at h

/-- A search starts at a character. -/
lemma standsIn_of_mem_starts (h : start ∈ p.starts text) : start.StandsIn text.toList := by
  unfold starts at h
  split at h
  · rw [List.mem_singleton] at h
    subst h
    exact Cursor.standsIn_ofString text
  · split at h
    · obtain ⟨offset, -, hcursor⟩ := List.mem_filterMap.1 h
      exact (Place.cursor?_eq_some_iff.1 hcursor).2
    · obtain ⟨part, htext, -, hoffset⟩ := Atom.mem_stops_iff.1 h
      exact ⟨part, htext, by rw [hoffset, Nat.zero_add]⟩

/-- Without an anchor at the start, a match can begin at each place that is not ruled out by the
leading byte, and no match begins at those that are. -/
lemma mem_starts_of_matchesAt (hstart : p.anchoredStart = false) (h : start.StandsIn text.toList)
    (hmatch : MatchesAt p.anchoredEnd p.pieces start.rest) : start ∈ p.starts text := by
  obtain ⟨before, htext, hoffset⟩ := h
  unfold starts
  rw [if_neg (by simp [hstart])]
  split
  · rename_i byte hleading
    obtain ⟨hbyte, c, hencode, hhead⟩ := exists_of_leadingByte? hleading
    obtain ⟨rest, hrest⟩ := List.head?_eq_some_iff.1 (hhead _ hmatch)
    refine List.mem_filterMap.2 ⟨start.offset, mem_byteOffsets_iff.2 ?_,
      Place.cursor?_eq_some_iff.2 ⟨rfl, before, htext, hoffset⟩⟩
    exact (getElem?_utf8_eq_some_iff hbyte).2 ⟨before, c, rest, hrest ▸ htext, hencode, hoffset⟩
  · exact Atom.mem_stops_iff.2 ⟨before, htext, fun _ _ => rfl, by rw [hoffset, Nat.zero_add]⟩

/-- The starts are enough to find a match wherever there is one. -/
lemma exists_mem_starts_iff :
    (∃ start ∈ p.starts text, MatchesAt p.anchoredEnd p.pieces start.rest) ↔
      p.Matches text.toList := by
  constructor
  · rintro ⟨start, hmem, found, after, hrest, hfound, hafter⟩
    obtain ⟨before, htext, hoffset⟩ := standsIn_of_mem_starts hmem
    refine ⟨before, found, after, by rw [htext, hrest, List.append_assoc], hfound, ?_, hafter⟩
    intro hanchored
    rw [starts, if_pos hanchored, List.mem_singleton] at hmem
    subst hmem
    simpa [Cursor.ofString] using htext
  · rintro ⟨before, found, after, htext, hfound, hbefore, hafter⟩
    have hmatch : MatchesAt p.anchoredEnd p.pieces (found ++ after) :=
      ⟨found, after, rfl, hfound, hafter⟩
    cases hanchored : p.anchoredStart with
    | true =>
      refine ⟨Cursor.ofString text, by simp [starts, hanchored], ?_⟩
      rw [hbefore hanchored, List.nil_append] at htext
      rw [Cursor.ofString, htext]
      exact hmatch
    | false =>
      exact ⟨⟨found ++ after, utf8Length before⟩, mem_starts_of_matchesAt hanchored
        ⟨before, by rw [htext, List.append_assoc], rfl⟩ hmatch, hmatch⟩

/-- The search for a pattern finds exactly the matches. -/
theorem isMatch_eq_true_iff (p : Pattern) (text : String) :
    p.isMatch text = true ↔ p.Matches text.toList := by
  have hlength : (p.search text).length = utf8Length text.toList := rfl
  have hrest : p.pieces.drop 0 = p.pieces := List.drop_zero
  have hsearch := anyM_spec ((p.search text).matchAt 0 p.pieces) (p.starts text)
    (fun start hstart failures hsound =>
      Search.matchAt_spec hlength hrest (standsIn_of_mem_starts hstart) hsound)
    Search.sound_empty
  exact hsearch.2.trans exists_mem_starts_iff

end Pattern

end Reckon
