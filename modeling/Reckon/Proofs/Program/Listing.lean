import Reckon.Program.Listing
import Reckon.Proofs.Binary64.ShortestText
import Reckon.Proofs.Expr.Cut
import Reckon.Proofs.Symbol.Partition

/-!
# What a listing tells

A listing is read back line by line.  A line ends where the next line feed is, and lines of the same
number differ in their words or in their operands (`Instruction.body_injective`): no two operations
have the same word (`Instruction.ofMnemonic?_mnemonic`), different doubles have different texts, and
a variable has its own name.  Names are written as in expressions, so that they cannot be confused
with the indexes of variables without a name (`IsNaming`).  This holds of the names in a table,
however it came about.  So programs with the same listing are the same
(`Program.code_eq_of_listing_eq`).
-/

namespace Reckon

variable {nameOf : ℕ → Option String}

/-! ## Lines -/

/-- A text is split at the first place of a character. -/
lemma eq_of_append_cons_eq {c : Char} {front front' back back' : List Char} (h : c ∉ front)
    (h' : c ∉ front') (heq : front ++ c :: back = front' ++ c :: back') :
    front = front' ∧ back = back' := by
  have hfront : ∀ {part rest : List Char}, c ∉ part →
      (part ++ c :: rest).takeWhile (· ≠ c) = part := fun hpart =>
    takeWhile_append_eq (fun d hd => decide_eq_true fun hdc => hpart (hdc ▸ hd)) (by simp)
  have htake := congrArg (List.takeWhile (· ≠ c)) heq
  rw [hfront h, hfront h'] at htake
  subst htake
  exact ⟨rfl, List.tail_eq_of_cons_eq (List.append_cancel_left heq)⟩

/-- What is made of lines that each end with a line feed tells what the lines were made of. -/
lemma eq_of_flatten_mapIdx_eq {α : Type} {l l' : List α} {f : ℕ → α → List Char}
    (hline : ∀ n a, '\n' ∉ f n a) (hinj : ∀ n, Function.Injective (f n))
    (heq : (l.mapIdx fun n a => f n a ++ ['\n']).flatten = (l'.mapIdx fun n a =>
      f n a ++ ['\n']).flatten) :
    l = l' := by
  induction l generalizing l' f with
  | nil =>
    cases l' with
    | nil => rfl
    | cons a l' => simp at heq
  | cons a l ih =>
    cases l' with
    | nil => simp at heq
    | cons a' l' =>
      rw [List.mapIdx_cons, List.mapIdx_cons, List.flatten_cons, List.flatten_cons,
        List.append_assoc, List.append_assoc, List.singleton_append, List.singleton_append] at heq
      obtain ⟨hfirst, hrest⟩ := eq_of_append_cons_eq (hline 0 a) (hline 0 a') heq
      rw [hinj 0 hfirst, ih (fun n => hline (n + 1)) (fun n => hinj (n + 1)) hrest]

/-! ## Names -/

/-- Whether names tell variables from each other, and are written as in expressions. -/
structure IsNaming (nameOf : ℕ → Option String) : Prop where
  eq_of_name : ∀ name i j, nameOf i = some name → nameOf j = some name → i = j
  isWritten : ∀ i name, nameOf i = some name → (Token.name name).IsWritten

/-- No names at all are a way of naming. -/
lemma IsNaming.none : IsNaming fun _ => none :=
  ⟨fun _ _ _ h => absurd h (by simp), fun _ _ h => absurd h (by simp)⟩

namespace Instruction

variable {i j : Instruction} {operand : String}

/-- What a line has behind the number. -/
def body (nameOf : ℕ → Option String) (i : Instruction) : List Char :=
  i.mnemonic.toList ++ (i.operandText nameOf).elim [] fun operand => ' ' :: operand.toList

/-- What a line has before the line feed. -/
def content (nameOf : ℕ → Option String) (number : ℕ) (i : Instruction) : List Char :=
  Binary64.padLeft 4 number.repr.toList ++ ([':', ' '] ++ i.body nameOf)

/-- A line is its content and a line feed. -/
lemma toList_line (nameOf : ℕ → Option String) (number : ℕ) (i : Instruction) :
    (i.line nameOf number).toList = i.content nameOf number ++ ['\n'] := by
  unfold line content body
  cases i.operandText nameOf with
  | none => simp
  | some operand => simp

/-- The words of operations are different. -/
lemma ofMnemonic?_mnemonic (h : i.operandText nameOf = none) : ofMnemonic? i.mnemonic = some i := by
  cases i with
  | const x => contradiction
  | load index => contradiction
  | named c => cases c <;> rfl
  | unary f => cases f <;> rfl
  | binary f => cases f <;> rfl
  | choice => rfl

/-- A word is followed by a blank or by the end of the line. -/
lemma notMem_mnemonic (i : Instruction) : ' ' ∉ i.mnemonic.toList ∧ '\n' ∉ i.mnemonic.toList := by
  cases i with
  | const x => exact (by decide : ' ' ∉ "CONST".toList ∧ '\n' ∉ "CONST".toList)
  | load index => exact (by decide : ' ' ∉ "VAR".toList ∧ '\n' ∉ "VAR".toList)
  | named c => cases c <;> exact ⟨by decide, by decide⟩
  | unary f => cases f <;> exact ⟨by decide, by decide⟩
  | binary f => cases f <;> exact ⟨by decide, by decide⟩
  | choice => exact ⟨by decide, by decide⟩

/-- Only numbers and variables are operands. -/
lemma cases_of_operandText (h : i.operandText nameOf = some operand) :
    (∃ x, i = const x ∧ operand = Binary64.text x) ∨
      ∃ index, i = load index ∧ operand = (nameOf index).getD ("#" ++ index.repr) := by
  cases i with
  | const x => exact .inl ⟨x, rfl, (Option.some.inj h).symm⟩
  | load index => exact .inr ⟨index, rfl, (Option.some.inj h).symm⟩
  | named | unary | binary | choice => contradiction

/-- A blank stands before an operand. -/
lemma blank_mem_body_iff : ' ' ∈ i.body nameOf ↔ i.operandText nameOf ≠ none := by
  unfold body
  cases i.operandText nameOf with
  | none =>
    rw [Option.elim_none, List.append_nil]
    exact iff_of_false i.notMem_mnemonic.1 fun h => h rfl
  | some operand =>
    exact iff_of_true (List.mem_append_right _ List.mem_cons_self) (Option.some_ne_none operand)

/-- Variables that are shown in the same way are the same. -/
lemma eq_of_getD_eq (h : IsNaming nameOf) {m n : ℕ}
    (heq : (nameOf m).getD ("#" ++ m.repr) = (nameOf n).getD ("#" ++ n.repr)) : m = n := by
  -- no name begins with the mark of an index without a name
  have hsign : ∀ {k l name}, nameOf k = some name → name ≠ "#" ++ Nat.repr l := by
    rintro k l name hname rfl
    have hsign : '#' ∈ ("#" ++ Nat.repr l).toList := by
      rw [String.toList_append]
      exact List.mem_append_left _ (by decide)
    exact absurd ((h.isWritten k _ hname).isNamePart_of_mem hsign) (by decide)
  cases hm : nameOf m with
  | none =>
    cases hn : nameOf n with
    | none =>
      rw [hm, hn, Option.getD_none, Option.getD_none, String.append_right_inj] at heq
      exact Nat.repr_inj.1 heq
    | some name =>
      rw [hm, hn, Option.getD_none, Option.getD_some] at heq
      exact absurd heq.symm (hsign hn)
  | some name =>
    cases hn : nameOf n with
    | none =>
      rw [hm, hn, Option.getD_none, Option.getD_some] at heq
      exact absurd heq (hsign hm)
    | some other =>
      rw [hm, hn, Option.getD_some, Option.getD_some] at heq
      exact h.eq_of_name name m n hm (heq ▸ hn)

/-- An instruction without an operand is listed by its word alone. -/
lemma body_of_eq_none (h : i.operandText nameOf = none) : i.body nameOf = i.mnemonic.toList := by
  rw [body, h, Option.elim_none, List.append_nil]

/-- What stands behind the number tells the instruction. -/
theorem body_injective (h : IsNaming nameOf) : Function.Injective (body nameOf) := by
  intro i j heq
  -- words have no blank, so a blank tells that there is an operand
  have hblank : i.operandText nameOf ≠ none ↔ j.operandText nameOf ≠ none := by
    rw [← blank_mem_body_iff, ← blank_mem_body_iff, heq]
  cases hi : i.operandText nameOf with
  | none =>
    have hj : j.operandText nameOf = none := not_not.1 fun hj => hblank.2 hj hi
    rw [body_of_eq_none hi, body_of_eq_none hj, String.toList_inj] at heq
    have hword := ofMnemonic?_mnemonic hi
    rw [heq, ofMnemonic?_mnemonic hj] at hword
    exact (Option.some.inj hword).symm
  | some operand =>
    obtain ⟨other, hj⟩ := Option.ne_none_iff_exists'.1
      (hblank.1 (by rw [hi]; exact Option.some_ne_none _))
    rw [body, body, hi, hj, Option.elim_some, Option.elim_some] at heq
    rcases cases_of_operandText hi with ⟨x, rfl, rfl⟩ | ⟨m, rfl, rfl⟩ <;>
      rcases cases_of_operandText hj with ⟨y, rfl, rfl⟩ | ⟨n, rfl, rfl⟩
    · have htext := List.tail_eq_of_cons_eq (List.append_cancel_left heq)
      rw [Binary64.text_injective (String.toList_inj.1 htext)]
    · exact absurd (congrArg List.head? heq) (by simp [mnemonic])
    · exact absurd (congrArg List.head? heq) (by simp [mnemonic])
    · have hname := List.tail_eq_of_cons_eq (List.append_cancel_left heq)
      rw [eq_of_getD_eq h (String.toList_inj.1 hname)]

/-- What stands behind the number stays on the line. -/
lemma newline_notMem_body (h : IsNaming nameOf) (i : Instruction) : '\n' ∉ i.body nameOf := by
  rw [body, List.mem_append, not_or]
  refine ⟨i.notMem_mnemonic.2, ?_⟩
  cases hi : i.operandText nameOf with
  | none => exact List.not_mem_nil
  | some operand =>
    rw [Option.elim_some, List.mem_cons, not_or]
    refine ⟨by decide, ?_⟩
    rcases cases_of_operandText hi with ⟨x, -, rfl⟩ | ⟨index, -, rfl⟩
    · exact Binary64.newline_notMem_text x
    · cases hname : nameOf index with
      | none =>
        rw [Option.getD_none, String.toList_append, List.mem_append, not_or]
        exact ⟨by decide, fun hmem => absurd (Binary64.isDigit_of_mem_repr hmem) (by decide)⟩
      | some name =>
        rw [Option.getD_some]
        exact fun hmem => absurd ((h.isWritten index name hname).isNamePart_of_mem hmem) (by decide)

/-- The content of a line has no line feed. -/
lemma newline_notMem_content (h : IsNaming nameOf) (number : ℕ) (i : Instruction) :
    '\n' ∉ i.content nameOf number := by
  have hnumber : '\n' ∉ Binary64.padLeft 4 number.repr.toList := by
    rw [Binary64.padLeft, List.mem_append, not_or]
    exact ⟨fun hmem => absurd (List.eq_of_mem_replicate hmem) (by decide),
      fun hmem => absurd (Binary64.isDigit_of_mem_repr hmem) (by decide)⟩
  rw [content, List.mem_append, List.mem_append, not_or, not_or]
  exact ⟨hnumber, by decide, newline_notMem_body h i⟩

/-- Lines with the same number and the same content are of the same instruction. -/
lemma content_injective (h : IsNaming nameOf) (number : ℕ) :
    Function.Injective (content nameOf number) := fun _ _ heq =>
  body_injective h (List.append_cancel_left (List.append_cancel_left heq))

end Instruction

namespace Program

/-- A listing is its lines, one behind the other. -/
lemma toList_listing (nameOf : ℕ → Option String) (p : Program) : (p.listing nameOf).toList =
    (p.code.toList.mapIdx fun number i => i.content nameOf number ++ ['\n']).flatten := by
  rw [listing, String.toList_join, List.flatMap_def, List.mapIdx_eq_zipIdx_map,
    List.mapIdx_eq_zipIdx_map, List.map_map]
  simp only [Function.comp_def, Instruction.toList_line]

/-- Programs with the same listing are the same. -/
theorem code_eq_of_listing_eq (h : IsNaming nameOf) {p q : Program}
    (heq : p.listing nameOf = q.listing nameOf) : p.code = q.code := by
  have hlines := congrArg String.toList heq
  rw [toList_listing, toList_listing] at hlines
  exact Array.toList_inj.1 (eq_of_flatten_mapIdx_eq (Instruction.newline_notMem_content h)
    (Instruction.content_injective h) hlines)

end Program

namespace SymbolTable

/-- A table, however it came about, whose names are written as in expressions: programs of any
length with the same listing in its names are the same, and so are programs with the same listing
without names. Whether the indexes of their variables are in the table does not matter.  There is
one value that is not a number. -/
theorem listing_injective (count : ℕ) (requests : List Request)
    (hnames : ∀ index name, (serve respond requests (withBuckets count)).2.name? index = some name →
      (Token.name name).IsWritten) :
    let t := (serve respond requests (withBuckets count)).2
    ∀ p q : Program,
      (p.listing t.name? = q.listing t.name? → p.code = q.code) ∧
      (p.listing (fun _ => none) = q.listing (fun _ => none) → p.code = q.code) := by
  intro t p q
  have hsound : t.IsSound := ((IsParted.withBuckets count).serve requests).toIsSound
  exact ⟨Program.code_eq_of_listing_eq ⟨hsound.eq_of_name?, hnames⟩,
    Program.code_eq_of_listing_eq .none⟩

/-- The listing of a program with two variables, and all programs with this listing. -/
theorem listing_injective_two_variables :
    let t := (serve respond [.install "x", .install "y1"] (withBuckets 1)).2
    let p := Program.ofInstructions [.load 0, .load 1, .binary .add, .named .pi, .binary .mul]
    p.listing t.name? = "0000: VAR x\n0001: VAR y1\n0002: ADD\n0003: PI\n0004: MUL\n" ∧
      ∀ q : Program, q.listing t.name? = p.listing t.name? → q.code = p.code := by
  intro t p
  have hnames : ∀ index name, t.name? index = some name → (Token.name name).IsWritten := by
    intro index name hname
    have hsize : t.size = 2 := by decide +kernel
    have hfirst : t.name? 0 = some "x" := by decide +kernel
    have hsecond : t.name? 1 = some "y1" := by decide +kernel
    have hlt := lt_size_of_name? hname
    obtain rfl | rfl : index = 0 ∨ index = 1 := by omega
    · rw [hfirst, Option.some.injEq] at hname
      subst hname
      exact ⟨'x', [], rfl, by decide, List.forall_mem_nil _⟩
    · rw [hsecond, Option.some.injEq] at hname
      subst hname
      exact ⟨'y', ['1'], rfl, by decide, List.forall_mem_singleton.2 (by decide)⟩
  exact ⟨by decide +kernel, fun q => (listing_injective 1 _ hnames q p).1⟩

end SymbolTable

end Reckon
