import Mathlib.Data.List.Basic
import Reckon.Engine.Settings
import Reckon.Proofs.Source.Numeral
import Reckon.Proofs.Text

/-!
# Reading parameters

What a parameter list says, given without the reader: an item has a key and a value with an equals
sign between them and white space around both (`Setting.HasParts`), it writes a setting if the key
is one of its field and the value writes its value (`Setting.Writes`), and every other item deserves
an objection (`Setting.Objects`).  The reader of items agrees (`Setting.ofItem_of_writes`,
`Setting.ofItem_of_objects`, `Setting.writes_or_objects`).

The settings of a list are made by one change after the other, and changes of different fields have
nothing to do with each other (`Settings.get_foldl`).  So the last item of each field counts, and a
list that has an item for every field in any order is read as the settings it was written from
(`Settings.ofParameters_spec`).
-/

namespace Reckon

/-- The fields of settings. -/
inductive Field
  | programCapacity
  | stackCapacity
  | symbolBuckets
  | literalCapacity
  | nestingLimit
  | autoInstall
  deriving DecidableEq, Repr

namespace Field

/-- The key of a field. -/
def key : Field → String
  | programCapacity => "program_capacity"
  | stackCapacity => "stack_capacity"
  | symbolBuckets => "symbol_buckets"
  | literalCapacity => "literal_capacity"
  | nestingLimit => "nesting_limit"
  | autoInstall => "auto_install"

/-- The keys of a field.  One of the fields has another name. -/
def keys : Field → List String
  | symbolBuckets => ["symbol_buckets", "buckets"]
  | f => [f.key]

/-- All fields. -/
def all : List Field :=
  [programCapacity, stackCapacity, symbolBuckets, literalCapacity, nestingLimit, autoInstall]

/-- The key of a field is one of its keys. -/
lemma key_mem_keys (f : Field) : f.key ∈ f.keys := by
  cases f <;> exact List.mem_cons_self

/-- The setting that a capacity makes for a field. -/
def make? : Field → Option (ℕ → Setting)
  | programCapacity => some .programCapacity
  | stackCapacity => some .stackCapacity
  | symbolBuckets => some .symbolBuckets
  | literalCapacity => some .literalCapacity
  | nestingLimit => some .nestingLimit
  | autoInstall => none

/-- Every field but the switch is a capacity. -/
lemma exists_make?_of_ne {f : Field} (h : f ≠ .autoInstall) : ∃ make, f.make? = some make := by
  cases f with
  | autoInstall => exact absurd rfl h
  | programCapacity | stackCapacity | symbolBuckets | literalCapacity | nestingLimit =>
    exact ⟨_, rfl⟩

/-- The keys are words without white space and without the signs that separate. -/
lemma all_keys {f : Field} {key : String} (h : key ∈ f.keys) :
    key.toList.all (fun c => !isSpace c && c != '=' && c != '&') = true := by
  have hall : ∀ f : Field, f.keys.all (fun key =>
      key.toList.all fun c => !isSpace c && c != '=' && c != '&') = true := by
    intro f
    cases f <;> rfl
  exact List.all_eq_true.1 (hall f) key h

end Field

namespace Setting

variable {item key value : List Char} {s : Setting} {n : ℕ} {b : Bool}

/-- The field that a setting is for. -/
def field : Setting → Field
  | programCapacity _ => .programCapacity
  | stackCapacity _ => .stackCapacity
  | symbolBuckets _ => .symbolBuckets
  | literalCapacity _ => .literalCapacity
  | nestingLimit _ => .nestingLimit
  | autoInstall _ => .autoInstall

/-! ## What items write -/

/-- Whether a text writes a capacity: digits, perhaps behind a plus sign, for a positive number that
is not too large. -/
def WritesCapacity (value : List Char) (n : ℕ) : Prop :=
  ∃ digits, (value = digits ∨ value = '+' :: digits) ∧ digits ≠ [] ∧
    (∀ c ∈ digits, c.isDigit = true) ∧ digitsValue 10 digits = n ∧ 0 < n ∧ n ≤ largestCapacity

/-- The words for a position of a switch. -/
def wordsOf : Bool → List String
  | true => ["on", "true", "yes", "1"]
  | false => ["off", "false", "no", "0"]

/-- Whether a text writes a position of a switch, in any case. -/
def WritesSwitch (value : List Char) (b : Bool) : Prop :=
  String.ofList (value.map Char.toLower) ∈ wordsOf b

/-- Whether a text writes the value of a setting. -/
def WritesValue (value : List Char) : Setting → Prop
  | programCapacity n | stackCapacity n | symbolBuckets n | literalCapacity n | nestingLimit n =>
    WritesCapacity value n
  | autoInstall b => WritesSwitch value b

/-- Whether an item has this key and this value, with an equals sign between them and white space
around both. -/
def HasParts (item key value : List Char) : Prop :=
  ∃ left right, item = left ++ '=' :: right ∧ '=' ∉ left ∧ Wraps left key ∧ Wraps right value

/-- Whether an item writes a setting. -/
def Writes (item : List Char) (s : Setting) : Prop :=
  ∃ key ∈ s.field.keys, ∃ value, HasParts item key.toList value ∧ WritesValue value s

/-- What is wrong with an item that writes no setting, and how it is worded. -/
inductive Objects (item : List Char) : String → Prop
  | missingValue {key : List Char} : '=' ∉ item → Wraps item key →
      Objects item s!"missing value for '{String.ofList key}'"
  | unknownKey {key value : List Char} : HasParts item key value →
      (∀ f : Field, String.ofList key ∉ f.keys) →
      Objects item s!"unknown parameter '{String.ofList key}'"
  | notPositive {f : Field} {key : String} {value : List Char} : key ∈ f.keys → f ≠ .autoInstall →
      HasParts item key.toList value → (∀ n, ¬WritesCapacity value n) →
      Objects item s!"'{key}' must be a positive integer, got '{String.ofList value}'"
  | notSwitch {value : List Char} : HasParts item Field.autoInstall.key.toList value →
      (∀ b, ¬WritesSwitch value b) →
      Objects item s!"invalid boolean '{String.ofList value}' for '{Field.autoInstall.key}'"

/-! ## Values -/

/-- What is read as a capacity is what is written as one. -/
lemma positive?_eq_some_iff : positive? value = some n ↔ WritesCapacity value n := by
  have hsign : ∀ digits, (∀ c ∈ digits, c.isDigit = true) →
      ((if value.head? = some '+' then value.drop 1 else value) = digits ↔
        value = digits ∨ value = '+' :: digits) := by
    intro digits hdigits
    cases value with
    | nil => simp [eq_comm]
    | cons c more =>
      by_cases hc : c = '+'
      · subst hc
        have hne : '+' :: more ≠ digits := by
          rintro rfl
          exact absurd (hdigits '+' List.mem_cons_self) (by decide)
        simp [hne]
      · simp [hc]
  unfold positive?
  dsimp only
  generalize (if value.head? = some '+' then value.drop 1 else value) = behind at hsign ⊢
  constructor
  · intro h
    split at h
    · contradiction
    · rename_i hdigits
      rw [Bool.or_eq_true, not_or, List.isEmpty_iff, Bool.not_eq_true', Bool.not_eq_false,
        List.all_eq_true] at hdigits
      split at h
      · rename_i hrange
        exact ⟨behind, (hsign behind hdigits.2).1 rfl, hdigits.1, hdigits.2, Option.some.inj h,
          Option.some.inj h ▸ hrange⟩
      · contradiction
  · rintro ⟨digits, hvalue, hne, hdigits, rfl, hrange⟩
    obtain rfl := (hsign digits hdigits).2 hvalue
    have hall : behind.all Char.isDigit = true := List.all_eq_true.2 hdigits
    rw [hall, List.isEmpty_eq_false_iff.2 hne, if_neg (by decide), if_pos hrange]

/-- What is read as a position of a switch is what is written as one. -/
lemma switch?_eq_some_iff : switch? value = some b ↔ WritesSwitch value b := by
  unfold switch? WritesSwitch
  generalize String.ofList (value.map Char.toLower) = word
  constructor
  · intro h
    obtain ⟨before, after, hsplit, -⟩ := List.lookup_eq_some_iff.1 h
    have hmem : (word, b) ∈ switchWords := hsplit ▸ List.mem_append_right _ List.mem_cons_self
    simp only [switchWords, List.mem_cons, Prod.mk.injEq, List.not_mem_nil, or_false] at hmem
    rcases hmem with ⟨rfl, rfl⟩ | ⟨rfl, rfl⟩ | ⟨rfl, rfl⟩ | ⟨rfl, rfl⟩ | ⟨rfl, rfl⟩ | ⟨rfl, rfl⟩ |
      ⟨rfl, rfl⟩ | ⟨rfl, rfl⟩
    all_goals decide
  · intro h
    cases b
    all_goals
      simp only [wordsOf, List.mem_cons, List.not_mem_nil, or_false] at h
      rcases h with rfl | rfl | rfl | rfl
      all_goals decide

/-! ## Items -/

/-- An item is read by its key and its value. -/
lemma ofItem_of_hasParts (h : HasParts item key value) : ofItem item = ofPair key value := by
  obtain ⟨left, right, rfl, hleft, hkey, hvalue⟩ := h
  have hne : ∀ c ∈ left, decide (c ≠ '=') = true := fun c hc =>
    decide_eq_true fun heq => hleft (heq ▸ hc)
  have hstop : decide ('=' ≠ '=') = false := by decide
  unfold ofItem
  rw [List.takeWhile_append_of_pos hne, List.dropWhile_append_of_pos hne,
    List.takeWhile_cons_of_neg (by decide), List.dropWhile_cons_of_neg (by decide), List.append_nil,
    wraps_iff.1 hkey]
  dsimp only
  rw [wraps_iff.1 hvalue]

/-- An item without an equals sign lacks a value. -/
lemma ofItem_of_notMem (h : '=' ∉ item) : ofItem item =
    .error (.invalidConfiguration s!"missing value for '{String.ofList (trim item)}'") := by
  have hne : ∀ c ∈ item, decide (c ≠ '=') = true := fun c hc =>
    decide_eq_true fun heq => h (heq ▸ hc)
  unfold ofItem
  rw [List.takeWhile_eq_self_iff.2 hne, List.dropWhile_eq_nil_iff.2 hne]

/-- Where there is an equals sign there are a key and a value. -/
lemma exists_hasParts (h : '=' ∈ item) : ∃ key value, HasParts item key value := by
  obtain ⟨left, right, hsplit, hleft⟩ := List.eq_append_cons_of_mem h
  exact ⟨trim left, trim right, left, right, hsplit, hleft, wraps_trim left, wraps_trim right⟩

/-- The keys are looked up as those of their fields. -/
lemma lookup_capacityKeys {f : Field} {key : String} (h : key ∈ f.keys) :
    capacityKeys.lookup key = f.make? := by
  cases f with
  | symbolBuckets =>
    simp only [Field.keys, List.mem_cons, List.not_mem_nil, or_false] at h
    rcases h with rfl | rfl
    · rfl
    · rfl
  | programCapacity | stackCapacity | literalCapacity | nestingLimit | autoInstall =>
    obtain rfl := List.mem_singleton.1 h
    rfl

/-- Any other key is not found. -/
lemma lookup_capacityKeys_eq_none {key : String} (h : ∀ f : Field, key ∉ f.keys) :
    capacityKeys.lookup key = none := by
  have hkeys : ∀ pair ∈ capacityKeys, ∃ f : Field, pair.1 ∈ f.keys := by
    unfold capacityKeys
    simp only [List.forall_mem_cons]
    exact ⟨⟨.programCapacity, by decide⟩, ⟨.stackCapacity, by decide⟩, ⟨.symbolBuckets, by decide⟩,
      ⟨.symbolBuckets, by decide⟩, ⟨.literalCapacity, by decide⟩, ⟨.nestingLimit, by decide⟩,
      List.forall_mem_nil _⟩
  refine List.lookup_eq_none_iff.2 fun pair hpair => bne_iff_ne.2 ?_
  rintro rfl
  obtain ⟨f, hf⟩ := hkeys pair hpair
  exact h f hf

/-- Under a key of a capacity any value but a capacity is refused. -/
lemma ofPair_of_capacity {f : Field} {key : String} {make : ℕ → Setting} (h : key ∈ f.keys)
    (hmake : f.make? = some make) (value : List Char) : ofPair key.toList value =
      match positive? value with
      | some n => .ok (make n)
      | none => .error (.invalidConfiguration
          s!"'{key}' must be a positive integer, got '{String.ofList value}'") := by
  unfold ofPair
  rw [String.ofList_toList]
  cases positive? value with
  | none => simp only [lookup_capacityKeys h, hmake]
  | some n => simp only [lookup_capacityKeys h, hmake]

/-- Under the key of the switch any value but a position of it is refused. -/
lemma ofPair_of_switch (value : List Char) : ofPair Field.autoInstall.key.toList value =
    match switch? value with
    | some b => .ok (autoInstall b)
    | none => .error (.invalidConfiguration
        s!"invalid boolean '{String.ofList value}' for '{Field.autoInstall.key}'") := by
  have hkey : capacityKeys.lookup Field.autoInstall.key = none :=
    lookup_capacityKeys (Field.key_mem_keys .autoInstall)
  unfold ofPair
  rw [String.ofList_toList]
  dsimp only
  rw [hkey]
  exact if_pos rfl

/-- What a capacity makes for a field is a setting of this field, which is written like the
capacity. -/
lemma field_of_make? {f : Field} {make : ℕ → Setting} (h : f.make? = some make) (n : ℕ) :
    f = (make n).field ∧ ∀ value, WritesValue value (make n) ↔ WritesCapacity value n := by
  cases f with
  | autoInstall => contradiction
  | programCapacity | stackCapacity | symbolBuckets | literalCapacity | nestingLimit =>
    obtain rfl := Option.some.inj h
    exact ⟨rfl, fun value => Iff.rfl⟩

/-- A setting is a capacity or a position of the switch. -/
lemma cases_of_field (s : Setting) :
    (∃ make n, s = make n ∧ s.field.make? = some make ∧
      ∀ value, WritesValue value s ↔ WritesCapacity value n) ∨
    ∃ b, s = autoInstall b := by
  cases s with
  | autoInstall b => exact .inr ⟨b, rfl⟩
  | programCapacity n | stackCapacity n | symbolBuckets n | literalCapacity n | nestingLimit n =>
    exact .inl ⟨_, n, rfl, rfl, fun value => Iff.rfl⟩

/-- An item is read as the setting that it writes. -/
theorem ofItem_of_writes (h : Writes item s) : ofItem item = .ok s := by
  obtain ⟨key, hkey, value, hparts, hvalue⟩ := h
  rw [ofItem_of_hasParts hparts]
  rcases cases_of_field s with ⟨make, n, hs, hmake, hwrites⟩ | ⟨b, rfl⟩
  · rw [ofPair_of_capacity hkey hmake, positive?_eq_some_iff.2 ((hwrites value).1 hvalue), hs]
  · obtain rfl := List.mem_singleton.1 hkey
    have hb : switch? value = some b := switch?_eq_some_iff.2 hvalue
    have hpair := ofPair_of_switch value
    rw [hb] at hpair
    exact hpair

/-- An item that deserves an objection is refused with it. -/
theorem ofItem_of_objects {message : String} (h : Objects item message) :
    ofItem item = .error (.invalidConfiguration message) := by
  cases h with
  | missingValue hitem hkey => rw [ofItem_of_notMem hitem, wraps_iff.1 hkey]
  | unknownKey hparts hkey =>
    rw [ofItem_of_hasParts hparts, ofPair, lookup_capacityKeys_eq_none hkey, if_neg]
    rintro hswitch
    exact hkey .autoInstall (hswitch ▸ List.mem_cons_self)
  | @notPositive f key value hkey hf hparts hvalue =>
    obtain ⟨make, hmake⟩ := Field.exists_make?_of_ne hf
    rw [ofItem_of_hasParts hparts, ofPair_of_capacity hkey hmake]
    cases hpositive : positive? value with
    | none => rfl
    | some n => exact absurd (positive?_eq_some_iff.1 hpositive) (hvalue n)
  | @notSwitch value hparts hvalue =>
    rw [ofItem_of_hasParts hparts, ofPair_of_switch]
    cases hswitch : switch? value with
    | none => rfl
    | some b => exact absurd (switch?_eq_some_iff.1 hswitch) (hvalue b)

/-- An item writes a setting or deserves an objection. -/
theorem writes_or_objects (item : List Char) : (∃ s, Writes item s) ∨
    ∃ message, Objects item message := by
  -- the cases are the faults in the order in which they are looked for
  by_cases hsign : '=' ∈ item
  · obtain ⟨key, value, hparts⟩ := exists_hasParts hsign
    by_cases hkey : ∃ f : Field, String.ofList key ∈ f.keys
    · obtain ⟨f, hf⟩ := hkey
      have hparts' : HasParts item (String.ofList key).toList value := by
        rwa [String.toList_ofList]
      by_cases hcapacity : f = .autoInstall
      · subst hcapacity
        have hname := List.mem_singleton.1 hf
        rw [hname] at hparts'
        by_cases hvalue : ∃ b, WritesSwitch value b
        · obtain ⟨b, hb⟩ := hvalue
          exact .inl ⟨autoInstall b, _, List.mem_cons_self, value, hparts', hb⟩
        · exact .inr ⟨_, .notSwitch hparts' (not_exists.1 hvalue)⟩
      · by_cases hvalue : ∃ n, WritesCapacity value n
        · obtain ⟨n, hn⟩ := hvalue
          obtain ⟨make, hmake⟩ := Field.exists_make?_of_ne hcapacity
          obtain ⟨hfield, hwrites⟩ := field_of_make? hmake n
          exact .inl ⟨make n, _, hfield ▸ hf, value, hparts', (hwrites value).2 hn⟩
        · exact .inr ⟨_, .notPositive hf hcapacity hparts' (not_exists.1 hvalue)⟩
    · exact .inr ⟨_, .unknownKey hparts (not_exists.1 hkey)⟩
  · exact .inr ⟨_, .missingValue hsign (wraps_trim item)⟩

/-- No item writes a setting and deserves an objection. -/
theorem Objects.not_writes {message : String} (h : Objects item message) (s : Setting) :
    ¬Writes item s := by
  intro hs
  have hread := ofItem_of_objects h
  rw [ofItem_of_writes hs] at hread
  contradiction

/-! ## Items as they are joined -/

/-- A text without white space is all that it wraps. -/
lemma wraps_of_forall_not_isSpace (h : ∀ c ∈ value, ¬isSpace c = true) : Wraps value value :=
  ⟨⟨fun c hc => h c (List.mem_of_mem_head? hc), fun c hc => h c (List.mem_of_getLast? hc)⟩,
    [], [], by simp, List.forall_mem_nil _, List.forall_mem_nil _⟩

/-- White space around a text adds no ampersand. -/
lemma ampersand_notMem_of_wraps {text inner : List Char} (h : Wraps text inner)
    (hinner : '&' ∉ inner) :
    '&' ∉ text := by
  obtain ⟨-, before, after, rfl, hbefore, hafter⟩ := h
  intro hmem
  rcases List.mem_append.1 hmem with hmem | hmem
  · exact absurd (hbefore _ hmem) (by decide)
  · rcases List.mem_append.1 hmem with hmem | hmem
    · exact hinner hmem
    · exact absurd (hafter _ hmem) (by decide)

/-- Values are written without ampersands. -/
lemma ampersand_notMem_of_writesValue (h : WritesValue value s) : '&' ∉ value := by
  rcases cases_of_field s with ⟨make, n, rfl, -, hwrites⟩ | ⟨b, rfl⟩
  · obtain ⟨digits, hvalue, -, hdigits, -⟩ := (hwrites value).1 h
    have hnot : '&' ∉ digits := fun hmem => absurd (hdigits _ hmem) (by decide)
    rcases hvalue with rfl | rfl
    · exact hnot
    · rw [List.mem_cons, not_or]
      exact ⟨by decide, hnot⟩
  · intro hmem
    have hlower : '&' ∈ value.map Char.toLower := List.mem_map.2 ⟨'&', hmem, by decide⟩
    have hwords : ∀ word ∈ wordsOf b, '&' ∉ word.toList := by
      cases b <;> decide
    refine hwords _ h ?_
    rw [String.toList_ofList]
    exact hlower

/-- No separator is inside an item that writes a setting. -/
lemma ampersand_notMem_of_writes (h : Writes item s) : '&' ∉ item := by
  obtain ⟨key, hkey, value, ⟨left, right, rfl, -, hleft, hright⟩, hvalue⟩ := h
  have hnot : '&' ∉ key.toList := by
    intro hmem
    have hall := List.all_eq_true.1 (Field.all_keys hkey) _ hmem
    exact absurd hall (by decide)
  rw [List.mem_append, List.mem_cons, not_or, not_or]
  exact ⟨ampersand_notMem_of_wraps hleft hnot, by decide,
    ampersand_notMem_of_wraps hright (ampersand_notMem_of_writesValue hvalue)⟩

/-! ## The text of a setting -/

/-- Whether a setting is a positive capacity that is not too large, or a position of the switch. -/
def IsInRange : Setting → Prop
  | programCapacity n | stackCapacity n | symbolBuckets n | literalCapacity n | nestingLimit n =>
    0 < n ∧ n ≤ largestCapacity
  | autoInstall _ => True

instance : DecidablePred IsInRange
  | programCapacity n | stackCapacity n | symbolBuckets n | literalCapacity n | nestingLimit n =>
    inferInstanceAs (Decidable (0 < n ∧ n ≤ largestCapacity))
  | autoInstall _ => inferInstanceAs (Decidable True)

/-- The text of the value of a setting. -/
def valueText : Setting → List Char
  | programCapacity n | stackCapacity n | symbolBuckets n | literalCapacity n | nestingLimit n =>
    Nat.toDigits 10 n
  | autoInstall b => if b then "on".toList else "off".toList

/-- The item of a setting. -/
def text (s : Setting) : List Char := s.field.key.toList ++ '=' :: s.valueText

/-- A capacity that is in range is written by its digits. -/
lemma writesCapacity_toDigits (h : 0 < n ∧ n ≤ largestCapacity) :
    WritesCapacity (Nat.toDigits 10 n) n :=
  ⟨Nat.toDigits 10 n, .inl rfl, Nat.toDigits_ne_nil,
    fun _ hc => Nat.isDigit_of_mem_toDigits (by decide) (by decide) hc, digitsValue_toDigits n, h⟩

/-- The value of a setting that is in range is written by its text. -/
lemma writesValue_valueText (h : s.IsInRange) : WritesValue s.valueText s := by
  cases s with
  | autoInstall b =>
    unfold WritesValue WritesSwitch
    cases b <;> decide
  | programCapacity n | stackCapacity n | symbolBuckets n | literalCapacity n | nestingLimit n =>
    exact writesCapacity_toDigits h

/-- A digit is no white space. -/
lemma not_isSpace_of_isDigit {c : Char} (h : c.isDigit = true) : ¬isSpace c = true := by
  have hrange := Char.isDigit_iff_toNat.1 h
  simp only [isSpace]
  grind

/-- The text of a value holds no white space. -/
lemma not_isSpace_of_mem_valueText {c : Char} (h : c ∈ s.valueText) : ¬isSpace c = true := by
  cases s with
  | autoInstall b =>
    have hwords : (autoInstall b).valueText.all (fun c => !isSpace c) = true := by
      cases b <;> decide
    have hc := List.all_eq_true.1 hwords c h
    rw [Bool.not_eq_true'] at hc
    exact ne_true_of_eq_false hc
  | programCapacity n | stackCapacity n | symbolBuckets n | literalCapacity n | nestingLimit n =>
    exact not_isSpace_of_isDigit (Nat.isDigit_of_mem_toDigits (by decide) (by decide) h)

/-- The item of a setting writes it. -/
theorem writes_text (h : s.IsInRange) : Writes s.text s := by
  have hkey := Field.key_mem_keys s.field
  have hall := List.all_eq_true.1 (Field.all_keys hkey)
  refine ⟨s.field.key, hkey, s.valueText, ⟨_, _, rfl, fun hmem => ?_, ?_, ?_⟩,
    writesValue_valueText h⟩
  · exact absurd (hall _ hmem) (by decide)
  · refine wraps_of_forall_not_isSpace fun c hc => ?_
    have hc := hall c hc
    rw [Bool.and_eq_true, Bool.and_eq_true, Bool.not_eq_true'] at hc
    exact ne_true_of_eq_false hc.1.1
  · exact wraps_of_forall_not_isSpace fun c hc => not_isSpace_of_mem_valueText hc

end Setting

namespace Settings

variable {s t : Settings} {f : Field} {item : List Char} {items more : List (List Char)}
  {settings others : List Setting}

/-! ## One change after the other -/

/-- What settings have for a field. -/
def get (s : Settings) : Field → Setting
  | .programCapacity => .programCapacity s.programCapacity
  | .stackCapacity => .stackCapacity s.stackCapacity
  | .symbolBuckets => .symbolBuckets s.symbolBuckets
  | .literalCapacity => .literalCapacity s.literalCapacity
  | .nestingLimit => .nestingLimit s.nestingLimit
  | .autoInstall => .autoInstall s.autoInstall

/-- Settings are what they have for the fields. -/
lemma eq_of_forall_get_eq (h : ∀ f, s.get f = t.get f) : s = t := by
  have hprogram := Setting.programCapacity.inj (h .programCapacity)
  have hstack := Setting.stackCapacity.inj (h .stackCapacity)
  have hsymbols := Setting.symbolBuckets.inj (h .symbolBuckets)
  have hliteral := Setting.literalCapacity.inj (h .literalCapacity)
  have hnesting := Setting.nestingLimit.inj (h .nestingLimit)
  have hauto := Setting.autoInstall.inj (h .autoInstall)
  cases s
  cases t
  congr

/-- A change concerns its own field only. -/
lemma get_apply (s : Settings) (change : Setting) (f : Field) :
    (Setting.apply s change).get f = if change.field = f then change else s.get f := by
  cases change <;> cases f <;> rfl

/-- The last setting for a field. -/
def lastFor (f : Field) (settings : List Setting) : Option Setting :=
  (settings.filter fun s => s.field = f).getLast?

/-- After changes, settings have the last one for a field, and what they had before if there is
none. -/
theorem get_foldl (settings : List Setting) (s : Settings) (f : Field) :
    (settings.foldl Setting.apply s).get f = (lastFor f settings).getD (s.get f) := by
  unfold lastFor
  induction settings generalizing s with
  | nil => rfl
  | cons change settings ih =>
    rw [List.foldl_cons, ih, get_apply]
    by_cases hf : change.field = f
    · rw [if_pos hf, List.filter_cons_of_pos (by simpa using hf), List.getLast?_cons,
        Option.getD_some]
    · rw [if_neg hf, List.filter_cons_of_neg (by simpa using hf)]

/-! ## Lists of items -/

/-- The parameter list of these items. -/
def joined (items : List (List Char)) : String := String.ofList (['&'].intercalate items)

/-- Whether the items of a list write these settings, one after the other.  Blank items write
nothing. -/
inductive Lists : List (List Char) → List Setting → Prop
  | nil : Lists [] []
  | blank {item : List Char} {items : List (List Char)} {settings : List Setting} :
      IsSpaces item → Lists items settings → Lists (item :: items) settings
  | item {item : List Char} {s : Setting} {items : List (List Char)} {settings : List Setting} :
      Setting.Writes item s → Lists items settings → Lists (item :: items) (s :: settings)

/-- Whether every capacity is positive and not too large. -/
def IsInRange (s : Settings) : Prop := ∀ f, (s.get f).IsInRange

/-- The settings for all fields. -/
def toList (s : Settings) : List Setting := Field.all.map s.get

/-- White space holds no ampersand. -/
lemma ampersand_notMem_of_isSpaces (h : IsSpaces item) : '&' ∉ item :=
  fun hmem => absurd (h _ hmem) (by decide)

/-- Items that list settings hold no ampersand, so that they can be told apart. -/
lemma Lists.ampersand_notMem (h : Lists items settings) : ∀ item ∈ items, '&' ∉ item := by
  induction h with
  | nil => exact List.forall_mem_nil _
  | blank hitem _ ih => exact List.forall_mem_cons.2 ⟨ampersand_notMem_of_isSpaces hitem, ih⟩
  | item hitem _ ih => exact List.forall_mem_cons.2 ⟨Setting.ampersand_notMem_of_writes hitem, ih⟩

/-- An item is blank if nothing is left of it without white space. -/
lemma isBlank_eq_true_iff : (trim item).isEmpty = true ↔ IsSpaces item := by
  rw [List.isEmpty_iff, trim_eq_nil_iff]

/-- A parameter list has the items that were joined, less the blank ones. -/
lemma items_joined (h : ∀ item ∈ items, '&' ∉ item) :
    Settings.items (joined items) = items.filter fun item => !(trim item).isEmpty := by
  unfold Settings.items joined
  rw [String.toList_ofList]
  cases items with
  | nil => rfl
  | cons item items => rw [splitOn_intercalate (List.cons_ne_nil item items) h]

/-- The items of a list are read one after the other. -/
lemma Lists.mapM_ofItem (h : Lists items settings) :
    (items.filter fun item => !(trim item).isEmpty).mapM Setting.ofItem = .ok settings := by
  induction h with
  | nil => rfl
  | blank hitem _ ih =>
    rw [List.filter_cons_of_neg, ih]
    rw [isBlank_eq_true_iff.2 hitem]
    decide
  | @item item s items settings hitem _ ih =>
    have hne : ¬IsSpaces item := by
      obtain ⟨key, -, value, ⟨left, right, rfl, -⟩, -⟩ := hitem
      intro hspaces
      exact absurd (hspaces '=' (List.mem_append_right _ List.mem_cons_self)) (by decide)
    rw [List.filter_cons_of_pos, List.mapM_cons, Setting.ofItem_of_writes hitem, ih]
    · rfl
    · rw [Bool.not_eq_true', Bool.eq_false_iff, Ne, isBlank_eq_true_iff]
      exact hne

/-- The settings of a list are those that its items write one after the other. -/
lemma Lists.ofParameters_eq (h : Lists items settings) :
    ofParameters (joined items) = .ok (settings.foldl Setting.apply {}) := by
  unfold ofParameters
  rw [items_joined h.ampersand_notMem, h.mapM_ofItem]
  rfl

/-- The first item that deserves an objection is the error. -/
lemma Lists.ofParameters_append_eq_error {message : String} (h : Lists items settings)
    (hne : ¬IsSpaces item) (hitem : Setting.Objects item message)
    (hjoined : ∀ other ∈ item :: more, '&' ∉ other) :
    ofParameters (joined (items ++ item :: more)) = .error (.invalidConfiguration message) := by
  unfold ofParameters
  rw [items_joined (List.forall_mem_append.2 ⟨h.ampersand_notMem, hjoined⟩), List.filter_append,
    List.filter_cons_of_pos, List.mapM_append, h.mapM_ofItem, List.mapM_cons,
    Setting.ofItem_of_objects hitem]
  · rfl
  · rw [Bool.not_eq_true', Bool.eq_false_iff, Ne, isBlank_eq_true_iff]
    exact hne

/-- A list has a first item that is neither blank nor writes a setting, or else it lists
settings. -/
lemma lists_or_exists_first (items : List (List Char)) :
    (∃ settings, Lists items settings) ∨
      ∃ before settings item more, items = before ++ item :: more ∧ Lists before settings ∧
        ¬IsSpaces item ∧ ∀ s, ¬Setting.Writes item s := by
  -- the first item is looked at before those behind it, so a later bad item does not matter
  induction items with
  | nil => exact .inl ⟨[], .nil⟩
  | cons item items ih =>
    by_cases hblank : IsSpaces item
    · rcases ih with ⟨settings, h⟩ | ⟨before, settings, bad, more, rfl, h, hbad⟩
      · exact .inl ⟨settings, .blank hblank h⟩
      · exact .inr ⟨item :: before, settings, bad, more, rfl, .blank hblank h, hbad⟩
    · by_cases hwrites : ∃ s, Setting.Writes item s
      · obtain ⟨s, hs⟩ := hwrites
        rcases ih with ⟨settings, h⟩ | ⟨before, settings, bad, more, rfl, h, hbad⟩
        · exact .inl ⟨s :: settings, .item hs h⟩
        · exact .inr ⟨item :: before, s :: settings, bad, more, rfl, .item hs h, hbad⟩
      · exact .inr ⟨[], [], item, items, rfl, .nil, hblank, not_exists.1 hwrites⟩

/-- Every item of a list that lists settings is blank or writes one. -/
lemma Lists.isSpaces_or_writes (h : Lists items settings) :
    ∀ item ∈ items, IsSpaces item ∨ ∃ s, Setting.Writes item s := by
  induction h with
  | nil => exact List.forall_mem_nil _
  | blank hitem _ ih => exact List.forall_mem_cons.2 ⟨.inl hitem, ih⟩
  | item hitem _ ih => exact List.forall_mem_cons.2 ⟨.inr ⟨_, hitem⟩, ih⟩

/-- Settings that are in range are listed by their texts. -/
lemma lists_map_text (h : ∀ s ∈ settings, s.IsInRange) :
    Lists (settings.map Setting.text) settings := by
  induction settings with
  | nil => exact .nil
  | cons s settings ih =>
    obtain ⟨hs, hsettings⟩ := List.forall_mem_cons.1 h
    exact .item (Setting.writes_text hs) (ih hsettings)

/-- In the settings for all fields, in any order, there is one for each field. -/
lemma lastFor_of_perm (h : settings.Perm s.toList) (f : Field) :
    lastFor f settings = some (s.get f) := by
  have hone : s.toList.filter (fun change => change.field = f) = [s.get f] := by
    cases f <;> rfl
  have hperm := h.filter fun change => decide (change.field = f)
  rw [hone] at hperm
  unfold lastFor
  rw [hperm.eq_singleton]
  rfl

/-- What settings that are in range consist of is in range, in any order. -/
lemma isInRange_of_perm (hs : s.IsInRange) (h : settings.Perm s.toList) :
    ∀ change ∈ settings, change.IsInRange := by
  intro change hchange
  obtain ⟨f, -, rfl⟩ := List.mem_map.1 (h.mem_iff.1 hchange)
  exact hs f

/-- What parameter lists say.  Items that write settings, in any order and repeated, with white
space and blank items between them, give the defaults with the last value of each field.  So items
may be reordered as long as those of one field keep their order.  The first item that is neither
blank nor writes a setting is the error, with what there is to object to it.  Settings whose
capacities are positive are read back from their items in any order. -/
theorem ofParameters_spec :
    (∀ items settings, Lists items settings →
      ∃ s, ofParameters (joined items) = .ok s ∧
        ∀ f, s.get f = (lastFor f settings).getD (({} : Settings).get f)) ∧
    (∀ items settings others more, Lists items settings → Lists more others →
      (∀ f, settings.filter (fun s => s.field = f) = others.filter fun s => s.field = f) →
      ofParameters (joined items) = ofParameters (joined more)) ∧
    (∀ items : List (List Char), (∀ item ∈ items, '&' ∉ item) →
      (∃ item ∈ items, ¬IsSpaces item ∧ ∀ s, ¬Setting.Writes item s) →
      ∃ before settings item more message, items = before ++ item :: more ∧ Lists before settings ∧
        ¬IsSpaces item ∧ Setting.Objects item message ∧
        ofParameters (joined items) = .error (.invalidConfiguration message)) ∧
    ∀ s : Settings, s.IsInRange → ∀ settings, settings.Perm s.toList →
      Lists (settings.map Setting.text) settings ∧
      ∀ items, Lists items settings → ofParameters (joined items) = .ok s := by
  refine ⟨fun items settings h => ?_, fun items settings others more h hmore hsame => ?_,
    fun items hjoined hbad => ?_, fun s hs settings hperm => ⟨?_, fun items h => ?_⟩⟩
  · exact ⟨_, h.ofParameters_eq, fun f => get_foldl settings {} f⟩
  · rw [h.ofParameters_eq, hmore.ofParameters_eq]
    refine congrArg Except.ok (eq_of_forall_get_eq fun f => ?_)
    rw [get_foldl, get_foldl, lastFor, lastFor, hsame f]
  · obtain ⟨bad, hmem, hne, hnot⟩ := hbad
    rcases lists_or_exists_first items with
      ⟨settings, h⟩ | ⟨before, settings, item, more, rfl, h, hfirst⟩
    · rcases h.isSpaces_or_writes bad hmem with hspaces | ⟨s, hs⟩
      · exact absurd hspaces hne
      · exact absurd hs (hnot s)
    · rcases Setting.writes_or_objects item with ⟨s, hs⟩ | ⟨message, hmessage⟩
      · exact absurd hs (hfirst.2 s)
      · exact ⟨before, settings, item, more, message, rfl, h, hfirst.1, hmessage,
          h.ofParameters_append_eq_error hfirst.1 hmessage (List.forall_mem_append.1 hjoined).2⟩
  · exact lists_map_text (isInRange_of_perm hs hperm)
  · rw [h.ofParameters_eq]
    refine congrArg Except.ok (eq_of_forall_get_eq fun f => ?_)
    rw [get_foldl, lastFor_of_perm hperm, Option.getD_some]

/-- A list with white space, a blank item and both names of a field, whose last value counts; the
items of two fields in either order; a list with a bad item; and settings whose items stand in
reverse order. -/
theorem ofParameters_spec_buckets :
    ofParameters (joined [" buckets = 16 ".toList, " ".toList, "symbol_buckets=+20".toList]) =
      .ok { symbolBuckets := 20 } ∧
    ofParameters (joined ["auto_install=ON".toList, "symbol_buckets=+20".toList]) =
      ofParameters (joined ["symbol_buckets=+20".toList, "auto_install=ON".toList]) ∧
    (∃ message, ofParameters (joined ["buckets=16".toList, "colour".toList]) =
      .error (.invalidConfiguration message)) ∧
    ofParameters
      (joined (({ symbolBuckets := 20, autoInstall := true } : Settings).toList.reverse.map
      Setting.text)) = .ok { symbolBuckets := 20, autoInstall := true } := by
  have hspace : IsSpaces " ".toList := List.all_eq_true.1 (by decide)
  have hsixteen : Setting.Writes " buckets = 16 ".toList (.symbolBuckets 16) :=
    ⟨"buckets", by decide, "16".toList, ⟨" buckets ".toList, " 16 ".toList, by decide, by decide,
      wraps_iff.2 (by decide), wraps_iff.2 (by decide)⟩,
      "16".toList, .inl rfl, by
        decide, List.all_eq_true.1 (by decide), by decide, by decide, by decide⟩
  have htwenty : Setting.Writes "symbol_buckets=+20".toList (.symbolBuckets 20) :=
    ⟨"symbol_buckets", by decide, "+20".toList, ⟨"symbol_buckets".toList, "+20".toList, by decide,
      by decide, wraps_iff.2 (by decide), wraps_iff.2 (by decide)⟩,
      "20".toList, .inr rfl, by
        decide, List.all_eq_true.1 (by decide), by decide, by decide, by decide⟩
  have hon : Setting.Writes "auto_install=ON".toList (.autoInstall true) :=
    ⟨"auto_install",
      by decide, "ON".toList, ⟨"auto_install".toList, "ON".toList, by decide, by decide,
      wraps_iff.2 (by decide), wraps_iff.2 (by decide)⟩, by
        unfold Setting.WritesValue Setting.WritesSwitch
        decide⟩
  obtain ⟨hvalid, hreorder, hinvalid, hback⟩ := ofParameters_spec
  refine ⟨?_, ?_, ?_, ?_⟩
  · obtain ⟨s, hs, hget⟩ := hvalid _ _ (.item hsixteen (.blank hspace (.item htwenty .nil)))
    rw [hs]
    refine congrArg Except.ok (eq_of_forall_get_eq fun f => ?_)
    rw [hget f]
    cases f <;> rfl
  · exact hreorder _ _ _ _ (.item hon (.item htwenty .nil)) (.item htwenty (.item hon .nil))
      (by intro f; cases f <;> decide)
  · have hcolour : ∀ s, ¬Setting.Writes "colour".toList s :=
      Setting.Objects.not_writes (.missingValue (by decide) (wraps_trim _))
    obtain ⟨before, settings, item, more, message, -, -, -, -, herror⟩ :=
      hinvalid ["buckets=16".toList, "colour".toList] (by decide)
        ⟨"colour".toList, by decide, fun h => absurd (h 'c' (by decide)) (by decide), hcolour⟩
    exact ⟨message, herror⟩
  · obtain ⟨hlists, hread⟩ := hback { symbolBuckets := 20, autoInstall := true }
      (by intro f; cases f <;> decide) _ (List.reverse_perm _)
    exact hread _ hlists

end Settings

end Reckon
