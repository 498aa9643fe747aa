import Reckon.Proofs.Expr.Capacity
import Reckon.Proofs.Expr.Closed

/-!
# How much room more capacity takes

A program is emitted twice, with less and with more capacity.  What the larger one folds is wider
only where a named constant, of one unit, has become a number, of nine.  As long as nine units are
left in the smaller program, it folds whatever the larger one folds, and is at least as wide.  So
only the named constants in the last eight units of the smaller program count, and the larger one is
ahead by at most eight units for each of them (`Program.lead`).

That invariant carries an emission that succeeds over to the larger program, if that has room for
the lead (`Expr.exists_emit_of_roomier`).
-/

namespace Reckon

open Outcome Instruction Compilation

/-! ## A single compilation -/

namespace Program

/-- A part of the code is no wider than all of it. -/
lemma totalWidth_le_of_isPrefix {a b : List Instruction} (h : a <+: b) :
    totalWidth a ≤ totalWidth b := by
  obtain ⟨rest, rfl⟩ := h
  rw [totalWidth_append]
  exact Nat.le_add_right _ _

variable {p q : Program} {before code : List Instruction} {values : ℕ → Float} {stackCapacity : ℕ}

/-- A program whose code is part of another one is no wider. -/
lemma IsConsistent.width_le_of_isPrefix (hp : p.IsConsistent) (hq : q.IsConsistent)
    (h : p.code.toList <+: q.code.toList) : p.width ≤ q.width := by
  rw [hp, hq]
  exact totalWidth_le_of_isPrefix h

/-- Folding leaves the nine units of a number, if there were as many. -/
lemma add_nine_le_width_fold (h : p.code.toList = before ++ code)
    (hnine : totalWidth before + 9 ≤ p.width) :
    totalWidth before + 9 ≤ (p.fold values stackCapacity before.length).width := by
  rcases p.fold_cases values stackCapacity before.length with hsame | ⟨x, -, -, -, hfold⟩
  · rw [hsame]
    exact hnine
  · rw [hfold, isConsistent_replaceFrom, toList_replaceFrom h, totalWidth_append]
    exact Nat.le_refl _

end Program

namespace Expr

variable {o : CompileOptions} {e e' : Expr} {w w' w₁ : Workplace} {indexOf : String → ℕ}

/-- Every expression needs room for an instruction at least. -/
lemma one_le_room (e : Expr) : 1 ≤ e.room := by
  induction e with
  | number | constant | var => exact Nat.le_refl 1
  | unary f operand ih => exact ih
  | binary f left right ihleft => exact ihleft.trans (Nat.le_max_left _ _)
  | choice test yes no ihtest => exact ihtest.trans (Nat.le_max_left _ _)

namespace FoldsTo

/-- What is folded needs no more places on the stack. -/
lemma room_le (h : FoldsTo e e') : e'.room ≤ e.room := by
  induction h with
  | refl => exact Nat.le_refl _
  | value => exact one_le_room _
  | unary _ ih => exact ih
  | binary _ _ ihleft ihright =>
    rw [room, room]
    omega
  | choice _ _ _ ihtest ihyes ihno =>
    rw [room, room]
    omega

/-- Folding adds no named constants. -/
lemma namedConstants_le (h : FoldsTo e e') : e'.namedConstants ≤ e.namedConstants := by
  induction h with
  | refl => exact Nat.le_refl _
  | value => exact Nat.zero_le _
  | unary _ ih => exact ih
  | binary _ _ ihleft ihright => exact Nat.add_le_add ihleft ihright
  | choice _ _ _ ihtest ihyes ihno => exact Nat.add_le_add (Nat.add_le_add ihtest ihyes) ihno

/-- The value of an expression without variables is what it is folded to. -/
lemma to_number (h : FoldsTo e e') (hnames : e.names = []) (values : String → Float) :
    FoldsTo e (number (e'.eval values)) := by
  rw [h.eval_eq, eval_of_names_eq_nil hnames values fun _ => 0]
  exact .value hnames

end FoldsTo

/-- Code of less than nine units has a named constant in it. -/
lemma one_le_namedConstants (indexOf : String → ℕ)
    (h : Program.totalWidth (e.code indexOf) < 9) : 1 ≤ e.namedConstants := by
  have hwidth := totalWidth_code indexOf e
  have hnine := nine_le_expandedWidth e
  omega

/-- Compiling an expression keeps the code that was there. -/
lemma isPrefix_of_emit (hw : w.program.IsConsistent) (h : e.emit o w = .ok () w') :
    w.program.code.toList <+: w'.program.code.toList := by
  obtain ⟨emitted, hcode, -⟩ := ((emits_emit o e).ok hw h).exists_code
  exact ⟨emitted, hcode.symm⟩

/-- Nine units that the first part of an operation has taken are taken for good. -/
lemma add_nine_le_width_of_first {p : Program} {values : ℕ → Float} (hw : w.program.IsConsistent)
    (hw₁ : w₁.program.IsConsistent) (hp : p.IsConsistent)
    (hcode : w.program.code.toList <+: w₁.program.code.toList)
    (hcode' : w₁.program.code.toList <+: p.code.toList)
    (hnine : w.program.width + 9 ≤ w₁.program.width) :
    w.program.width + 9 ≤
      (p.fold values o.stackCapacity w.program.code.toList.length).width := by
  obtain ⟨rest, hrest⟩ := hcode.trans hcode'
  have hle := hw₁.width_le_of_isPrefix hp hcode'
  rw [hw] at hnine ⊢
  exact Program.add_nine_le_width_fold hrest.symm (hnine.trans hle)

/-- Where nine units are left, the code of an expression takes as many: also that of a named
constant, since it is folded then. -/
lemma width_add_nine_le_of_emit (hstack : 1 ≤ o.stackCapacity) (hw : w.program.IsValid)
    (hfit : w.program.width + 9 ≤ w.program.capacity) (h : e.emit o w = .ok () w') :
    w.program.width + 9 ≤ w'.program.width := by
  induction e generalizing w w' with
  | number x =>
    obtain ⟨p, hp, rfl⟩ := emit_eq_ok_iff.1 h
    obtain ⟨-, rfl⟩ := Program.emit_eq_ok_iff.1 hp
    exact Nat.le_refl _
  | var name position =>
    obtain ⟨index, w₁, hresolve, hemit⟩ := bind_eq_ok_iff.1 h
    obtain ⟨p, hp, rfl⟩ := emit_eq_ok_iff.1 hemit
    obtain ⟨-, rfl⟩ := Program.emit_eq_ok_iff.1 hp
    rw [(resolved_of_resolve hresolve).1]
    exact Nat.le_refl _
  | constant c =>
    obtain ⟨p, hp, rfl⟩ := exists_of_emit_constant h
    obtain ⟨hconsistent, hcode, hcapacity⟩ := hw.isConsistent.emit hp
    have hwhole : p.code.toList = w.program.code.toList ++ (constant c).code fun _ => 0 := hcode
    have hconst :
      ∃ x, (p.fold w.symbols.value o.stackCapacity w.program.code.toList.length).code.toList
        = w.program.code.toList ++ [.const x] :=
      exists_const_of_room_le hw hfit hcapacity hwhole rfl hstack
    obtain ⟨x, hx⟩ := hconst
    dsimp only
    rw [hconsistent.fold, hx, Program.totalWidth_append, ← hw.isConsistent]
    exact Nat.le_refl _
  | unary f operand ih =>
    obtain ⟨w₁, p, hoperand, hp, rfl⟩ := exists_of_emit_unary h
    have hw₁ := ((moves_emit o operand).of_ok hoperand).isValid hw
    obtain ⟨hconsistent, hcode, -⟩ := hw₁.isConsistent.emit hp
    exact add_nine_le_width_of_first hw.isConsistent hw₁.isConsistent hconsistent
      (isPrefix_of_emit hw.isConsistent hoperand) ⟨_, hcode.symm⟩ (ih hw hfit hoperand)
  | binary f left right ihleft =>
    obtain ⟨w₁, w₂, p, hleft, hright, hp, rfl⟩ := exists_of_emit_binary h
    have hw₁ := ((moves_emit o left).of_ok hleft).isValid hw
    have hw₂ := ((moves_emit o right).of_ok hright).isValid hw₁
    obtain ⟨hconsistent, hcode, -⟩ := hw₂.isConsistent.emit hp
    exact add_nine_le_width_of_first hw.isConsistent hw₁.isConsistent hconsistent
      (isPrefix_of_emit hw.isConsistent hleft)
      ((isPrefix_of_emit hw₁.isConsistent hright).trans ⟨_, hcode.symm⟩) (ihleft hw hfit hleft)
  | choice test yes no ihtest =>
    obtain ⟨w₁, w₂, w₃, p, htest, hyes, hno, hp, rfl⟩ := exists_of_emit_choice h
    have hw₁ := ((moves_emit o test).of_ok htest).isValid hw
    have hw₂ := ((moves_emit o yes).of_ok hyes).isValid hw₁
    have hw₃ := ((moves_emit o no).of_ok hno).isValid hw₂
    obtain ⟨hconsistent, hcode, -⟩ := hw₃.isConsistent.emit hp
    have hrest := (isPrefix_of_emit hw₁.isConsistent hyes).trans
      (isPrefix_of_emit hw₂.isConsistent hno)
    exact add_nine_le_width_of_first hw.isConsistent hw₁.isConsistent hconsistent
      (isPrefix_of_emit hw.isConsistent htest) (hrest.trans ⟨_, hcode.symm⟩) (ihtest hw hfit htest)

end Expr

/-! ## The lead -/

namespace Program

/-- How far a program with more capacity can be ahead of one of this capacity and this width, after
so many named constants: eight units for each of those that stand in the last eight units. -/
def lead (capacity width constants : ℕ) : ℕ := 8 * min constants (width + 8 - capacity)

/-- With more width and more constants the lead does not get smaller. -/
lemma lead_mono {capacity width width' constants constants' : ℕ} (hwidth : width ≤ width')
    (hconstants : constants ≤ constants') :
    lead capacity width constants ≤ lead capacity width' constants' := by
  unfold lead
  omega

/-- There is no lead where a number still fits. -/
lemma lead_eq_zero {capacity width : ℕ} (h : width + 9 ≤ capacity) (constants : ℕ) :
    lead capacity width constants = 0 := by
  unfold lead
  omega

/-- A named constant that stays is eight units narrower than the number that it might be. -/
lemma lead_add_eight_le {capacity width width' constants constants' : ℕ}
    (hfull : capacity < width + 9) (hwidth : width < width') (hconstants : constants < constants') :
    lead capacity width constants + 8 ≤ lead capacity width' constants' := by
  unfold lead
  omega

/-- The lead is at most eight units for each named constant, and for at most eight of them. -/
lemma lead_le {capacity width constants total : ℕ} (hwidth : width ≤ capacity)
    (hconstants : constants ≤ total) : lead capacity width constants ≤ 8 * min total 8 := by
  unfold lead
  omega

/-- Whether a second program, after so many named constants out of a total, is not ahead of a first
one by more than the lead, and has the capacity for any lead to come. -/
structure Roomier (total constants : ℕ) (p q : Program) : Prop where
  isValid : p.IsValid
  isConsistent : q.IsConsistent
  constants_le : constants ≤ total
  capacity_le : p.capacity + 8 * min total 8 ≤ q.capacity
  width_le : q.width ≤ p.width + lead p.capacity p.width constants

/-- Whether two programs continue two others with the code of one expression, of which some parts
are folded in the first and perhaps more in the second. -/
structure Extend (indexOf : String → ℕ) (e : Expr) (p₀ q₀ p q : Program) : Prop where
  capacity_eq : p.capacity = p₀.capacity
  capacity_eq' : q.capacity = q₀.capacity
  exists_code : ∃ e₁ e₂, Expr.FoldsTo e e₁ ∧ Expr.FoldsTo e₁ e₂ ∧
    p.code.toList = p₀.code.toList ++ e₁.code indexOf ∧
    q.code.toList = q₀.code.toList ++ e₂.code indexOf

variable {p p' q q' p₀ q₀ p₁ q₁ p₂ q₂ p₃ q₃ : Program} {i : Instruction}
  {total constants constants' : ℕ} {values : ℕ → Float} {stackCapacity : ℕ}
  {indexOf : String → ℕ} {e operand left right test yes no : Expr}

/-- The code of an expression is folded to its value if the expression mentions no variable, there
is room for it on the stack and there are nine units for a number.  Otherwise it is left alone. -/
lemma fold_code_cases {before : List Instruction} (h : p.code.toList = before ++ e.code indexOf)
    (values : ℕ → Float) (stackCapacity : ℕ) :
    (e.names = [] ∧ e.room ≤ stackCapacity ∧ totalWidth before + 9 ≤ p.capacity ∧
      (p.fold values stackCapacity before.length).code.toList =
        before ++ (Expr.number (e.eval fun name => values (indexOf name))).code indexOf) ∨
    (¬(e.names = [] ∧ e.room ≤ stackCapacity ∧ totalWidth before + 9 ≤ p.capacity) ∧
      p.fold values stackCapacity before.length = p) := by
  have hfrom : p.codeFrom before.length = e.code indexOf := by
    rw [codeFrom_eq_drop, h, List.drop_left]
  by_cases hall : e.names = [] ∧ e.room ≤ stackCapacity ∧ totalWidth before + 9 ≤ p.capacity
  · obtain ⟨hclosed, hstack, hfit⟩ := hall
    exact .inl ⟨hclosed, hstack, hfit, toList_fold_of_run h
      ((Expr.any_readsVariable_code indexOf e).2 hclosed) (Expr.run_code_of_room_le hstack) hfit⟩
  · refine .inr ⟨hall, fold_of_not_isFoldable ?_⟩
    rintro ⟨x, hvariables, hrun, hfit⟩
    rw [hfrom] at hvariables hrun
    rw [h, List.take_left] at hfit
    have hstack : e.room ≤ stackCapacity := by
      by_contra hlt
      rw [Expr.run_code_of_lt_room (Nat.lt_of_not_le hlt)] at hrun
      contradiction
    exact hall ⟨(Expr.any_readsVariable_code indexOf e).1 hvariables, hstack, hfit⟩

/-- A program that was continued by a number is wider by nine units. -/
lemma width_of_fold {x : Float} (hp : p.IsConsistent) (hp' : p'.IsConsistent)
    (hcode : p'.code.toList = p.code.toList ++ (Expr.number x).code indexOf) :
    p'.width = p.width + 9 := by
  rw [hp', hcode, totalWidth_append, ← hp]
  rfl

/-- An instruction that is emitted is appended, within the same capacity. -/
lemma toList_of_emit (h : p.emit i = .ok p') :
    p'.code.toList = p.code.toList ++ [i] ∧ p'.capacity = p.capacity := by
  obtain ⟨-, rfl⟩ := emit_eq_ok_iff.1 h
  exact ⟨Array.toList_push, rfl⟩

namespace Extend

/-- Both programs are continued by an expression of one instruction. -/
lemma leaf (e : Expr) (hcode : e.code indexOf = [i]) (hp : p.emit i = .ok p')
    (hq : q.emit i = .ok q') : Extend indexOf e p q p' q' := by
  refine ⟨(toList_of_emit hp).2, (toList_of_emit hq).2, e, e, .refl e, .refl e, ?_, ?_⟩
  · rw [(toList_of_emit hp).1, hcode]
  · rw [(toList_of_emit hq).1, hcode]

/-- Both programs are continued by an operator with one operand. -/
lemma unary {f : UnaryOp} (h : Extend indexOf operand p₀ q₀ p₁ q₁) (hp : p₁.emit (.unary f) = .ok p)
    (hq : q₁.emit (.unary f) = .ok q) : Extend indexOf (.unary f operand) p₀ q₀ p q := by
  obtain ⟨hpcode, hpcapacity⟩ := toList_of_emit hp
  obtain ⟨hqcode, hqcapacity⟩ := toList_of_emit hq
  obtain ⟨e₁, e₂, hfirst, hsecond, hcode, hcode'⟩ := h.exists_code
  refine ⟨hpcapacity.trans h.capacity_eq, hqcapacity.trans h.capacity_eq', _, _, .unary hfirst,
    .unary hsecond, ?_, ?_⟩
  · rw [hpcode, hcode, List.append_assoc]
    rfl
  · rw [hqcode, hcode', List.append_assoc]
    rfl

/-- Both programs are continued by an operator with two operands. -/
lemma binary {f : BinaryOp} (hleft : Extend indexOf left p₀ q₀ p₁ q₁)
    (hright : Extend indexOf right p₁ q₁ p₂ q₂) (hp : p₂.emit (.binary f) = .ok p)
    (hq : q₂.emit (.binary f) = .ok q) : Extend indexOf (.binary f left right) p₀ q₀ p q := by
  obtain ⟨hpcode, hpcapacity⟩ := toList_of_emit hp
  obtain ⟨hqcode, hqcapacity⟩ := toList_of_emit hq
  obtain ⟨l₁, l₂, hl₁, hl₂, hlcode, hlcode'⟩ := hleft.exists_code
  obtain ⟨r₁, r₂, hr₁, hr₂, hrcode, hrcode'⟩ := hright.exists_code
  refine ⟨hpcapacity.trans (hright.capacity_eq.trans hleft.capacity_eq),
    hqcapacity.trans (hright.capacity_eq'.trans hleft.capacity_eq'), _, _, .binary hl₁ hr₁,
    .binary hl₂ hr₂, ?_, ?_⟩
  · rw [hpcode, hrcode, hlcode, Expr.code]
    simp only [List.append_assoc]
  · rw [hqcode, hrcode', hlcode', Expr.code]
    simp only [List.append_assoc]

/-- Both programs are continued by a choice. -/
lemma choice (htest : Extend indexOf test p₀ q₀ p₁ q₁) (hyes : Extend indexOf yes p₁ q₁ p₂ q₂)
    (hno : Extend indexOf no p₂ q₂ p₃ q₃) (hp : p₃.emit .choice = .ok p)
    (hq : q₃.emit .choice = .ok q) : Extend indexOf (.choice test yes no) p₀ q₀ p q := by
  obtain ⟨hpcode, hpcapacity⟩ := toList_of_emit hp
  obtain ⟨hqcode, hqcapacity⟩ := toList_of_emit hq
  obtain ⟨t₁, t₂, ht₁, ht₂, htcode, htcode'⟩ := htest.exists_code
  obtain ⟨y₁, y₂, hy₁, hy₂, hycode, hycode'⟩ := hyes.exists_code
  obtain ⟨n₁, n₂, hn₁, hn₂, hncode, hncode'⟩ := hno.exists_code
  refine ⟨hpcapacity.trans (hno.capacity_eq.trans (hyes.capacity_eq.trans htest.capacity_eq)),
    hqcapacity.trans (hno.capacity_eq'.trans (hyes.capacity_eq'.trans htest.capacity_eq')), _, _,
    .choice ht₁ hy₁ hn₁, .choice ht₂ hy₂ hn₂, ?_, ?_⟩
  · rw [hpcode, hncode, hycode, htcode, Expr.code]
    simp only [List.append_assoc]
  · rw [hqcode, hncode', hycode', htcode', Expr.code]
    simp only [List.append_assoc]

end Extend

namespace Roomier

/-- What fits in the first program fits in the second. -/
lemma emit (h : Roomier total constants p q) (hp : p.emit i = .ok p') :
    ∃ q', q.emit i = .ok q' ∧ Roomier total constants p' q' := by
  have hvalid := h.isValid.emit hp
  obtain ⟨hfit, rfl⟩ := emit_eq_ok_iff.1 hp
  have hlead : lead p.capacity p.width constants ≤ lead p.capacity (p.width + i.width) constants :=
    lead_mono (Nat.le_add_right _ _) (Nat.le_refl _)
  have hmost := lead_le hfit h.constants_le
  have hwidth := h.width_le
  have hcapacity := h.capacity_le
  have hq : q.emit i = .ok { q with code := q.code.push i, width := q.width + i.width } :=
    emit_eq_ok_iff.2 ⟨by omega, rfl⟩
  refine ⟨_, hq, hvalid, (h.isConsistent.emit hq).1, h.constants_le, hcapacity, ?_⟩
  dsimp only
  omega

/-- There may be more named constants than counted. -/
lemma mono (h : Roomier total constants p q) (hle : constants ≤ constants')
    (htotal : constants' ≤ total) : Roomier total constants' p q :=
  { h with
    constants_le := htotal
    width_le := h.width_le.trans (Nat.add_le_add_left (lead_mono (Nat.le_refl _) hle) _) }

/-- As long as the first program has nine units left, the second one is not wider. -/
lemma width_le_of_fit (h : Roomier total constants p q)
    (hfit : p.width + 9 ≤ p.capacity) : q.width ≤ p.width ∧ q.width + 9 ≤ q.capacity := by
  have hwidth := h.width_le
  have hcapacity := h.capacity_le
  rw [lead_eq_zero hfit] at hwidth
  omega

/-- Where only the second program folds the code of an expression, the first one has taken nine
units for it, or has one more named constant in its last eight units. -/
lemma width_add_nine_le (h₀ : Roomier total constants p₀ q₀) (hp : p.IsValid)
    (hcapacity : p.capacity = p₀.capacity)
    (hcode : p.code.toList = p₀.code.toList ++ e.code indexOf)
    (hconstants : constants + e.namedConstants ≤ constants')
    (hnine : p₀.width + 9 ≤ p₀.capacity → p₀.width + 9 ≤ p.width) :
    q₀.width + 9 ≤ p.width + lead p.capacity p.width constants' := by
  have hwidth := h₀.width_le
  have hle := hp.width_le
  have hsum : p.width = p₀.width + totalWidth (e.code indexOf) := by
    rw [hp.isConsistent, hcode, totalWidth_append, ← h₀.isValid.isConsistent]
  rw [hcapacity] at hle ⊢
  by_cases hfit : p₀.width + 9 ≤ p₀.capacity
  · have hnine := hnine hfit
    rw [lead_eq_zero hfit] at hwidth
    omega
  · have hone := Expr.one_le_namedConstants indexOf (e := e) (by omega)
    have hlength := length_le_totalWidth (e.code indexOf)
    have hroom := (e.room_le indexOf).2
    have hlead : lead p₀.capacity p₀.width constants + 8 ≤ lead p₀.capacity p.width constants' :=
      lead_add_eight_le (Nat.lt_of_not_le hfit) (by omega) (by omega)
    omega

/-- Folding keeps the second program as close to the first as `Roomier` says, and leaves code of the
same expression in both. -/
lemma fold (h₀ : Roomier total constants p₀ q₀)
    (h : Roomier total (constants + e.namedConstants) p q) (hextend : Extend indexOf e p₀ q₀ p q)
    (hnine : 1 ≤ stackCapacity → p₀.width + 9 ≤ p₀.capacity →
      p₀.width + 9 ≤ (p.fold values stackCapacity p₀.code.toList.length).width) :
    Roomier total (constants + e.namedConstants)
        (p.fold values stackCapacity p₀.code.toList.length)
        (q.fold values stackCapacity q₀.code.toList.length) ∧
      Extend indexOf e p₀ q₀ (p.fold values stackCapacity p₀.code.toList.length)
        (q.fold values stackCapacity q₀.code.toList.length) := by
  obtain ⟨e₁, e₂, hfirst, hsecond, hp, hq⟩ := hextend.exists_code
  let value := fun name => values (indexOf name)
  have hsame : e₂.eval value = e₁.eval value := hsecond.eval_eq value
  have hpcapacity := (p.capacity_fold values stackCapacity p₀.code.toList.length)
  have hqcapacity := (q.capacity_fold values stackCapacity q₀.code.toList.length)
  rcases fold_code_cases hp values stackCapacity with
    ⟨hclosed, hstack, hfit, hpcode⟩ | ⟨hnot, hpfold⟩
  · rw [← h₀.isValid.isConsistent, hextend.capacity_eq] at hfit
    obtain ⟨hle, hfit'⟩ := h₀.width_le_of_fit hfit
    rw [h₀.isConsistent, ← hextend.capacity_eq'] at hfit'
    rcases fold_code_cases hq values stackCapacity with ⟨-, -, -, hqcode⟩ | ⟨hnot, -⟩
    · have hpwidth := width_of_fold h₀.isValid.isConsistent h.isValid.isConsistent.fold hpcode
      have hqwidth := width_of_fold h₀.isConsistent h.isConsistent.fold hqcode
      refine ⟨⟨h.isValid.fold, h.isConsistent.fold, h.constants_le, ?_, ?_⟩, ?_⟩
      · rw [hpcapacity, hqcapacity]
        exact h.capacity_le
      · rw [hpwidth, hqwidth]
        omega
      · have hnumber := hfirst.to_number (hfirst.names_eq.symm.trans hclosed) value
        exact ⟨hpcapacity.trans hextend.capacity_eq, hqcapacity.trans hextend.capacity_eq', _, _,
          hnumber, hsame ▸ .refl _, hpcode, hqcode⟩
    · exact absurd ⟨hsecond.names_eq.trans hclosed, hsecond.room_le.trans hstack, hfit'⟩ hnot
  · rw [hpfold] at hnine ⊢
    rcases fold_code_cases hq values stackCapacity with
      ⟨hclosed, hstack, hfit, hqcode⟩ | ⟨-, hqfold⟩
    · have hqwidth := width_of_fold h₀.isConsistent h.isConsistent.fold hqcode
      have hconstants := Nat.add_le_add_left hfirst.namedConstants_le constants
      have hle := h₀.width_add_nine_le h.isValid hextend.capacity_eq hp hconstants
        (hnine (e₂.one_le_room.trans hstack))
      refine ⟨⟨h.isValid, h.isConsistent.fold, h.constants_le, ?_, ?_⟩, ?_⟩
      · rw [hqcapacity]
        exact h.capacity_le
      · rw [hqwidth]
        exact hle
      · have hnumber := hsecond.to_number (hsecond.names_eq.symm.trans hclosed) value
        exact ⟨hextend.capacity_eq, hqcapacity.trans hextend.capacity_eq', _, _, hfirst, hnumber,
          hp, hqcode⟩
    · rw [hqfold]
      exact ⟨h, hextend⟩

end Roomier

end Program

/-! ## What the second program emits -/

namespace Compilation

variable {o : CompileOptions} {name : String} {position index : ℕ} {w w' : Workplace}

/-- Resolving a name has nothing to do with the program. -/
lemma resolve_with_program (h : resolve o name position w = .ok index w') (q : Program) :
    resolve o name position { w with program := q } = .ok index { w' with program := q } := by
  unfold resolve at h ⊢
  dsimp only
  split at h
  · cases h
    rfl
  · split at h
    · rename_i hauto
      rw [if_pos hauto]
      split at h
      · cases h
        rfl
      · cases h
    · cases h

end Compilation

namespace Expr

open Program

variable {o : CompileOptions} {e operand left right test yes no : Expr} {w w' w₁ w₂ w₃ : Workplace}
  {p q : Program} {total constants : ℕ} {indexOf : String → ℕ}

/-- A named constant is compiled if its instruction can be emitted. -/
lemma emit_constant_of_steps {c : Constant} (hp : Program.emit w.program (.named c) = .ok p) :
    (constant c).emit o w = .ok () { w with
      program := p.fold w.symbols.value o.stackCapacity w.program.code.toList.length } :=
  folding_eq_ok_iff.2 ⟨_, emit_eq_ok_iff.2 ⟨p, hp, rfl⟩, rfl⟩

/-- An operator is compiled if its operand is and its instruction can be emitted. -/
lemma emit_unary_of_steps {f : UnaryOp} (h : operand.emit o w = .ok () w₁)
    (hp : Program.emit w₁.program (.unary f) = .ok p) :
    (unary f operand).emit o w = .ok () { w₁ with
      program := p.fold w₁.symbols.value o.stackCapacity w.program.code.toList.length } :=
  folding_eq_ok_iff.2 ⟨_, bind_eq_ok_iff.2 ⟨(), w₁, h, emit_eq_ok_iff.2 ⟨p, hp, rfl⟩⟩, rfl⟩

/-- An operator is compiled if its two operands are and its instruction can be emitted. -/
lemma emit_binary_of_steps {f : BinaryOp} (hleft : left.emit o w = .ok () w₁)
    (hright : right.emit o w₁ = .ok () w₂) (hp : Program.emit w₂.program (.binary f) = .ok p) :
    (binary f left right).emit o w = .ok () { w₂ with
      program := p.fold w₂.symbols.value o.stackCapacity w.program.code.toList.length } :=
  folding_eq_ok_iff.2 ⟨_, bind_eq_ok_iff.2 ⟨(), w₁, hleft, bind_eq_ok_iff.2
    ⟨(), w₂, hright, emit_eq_ok_iff.2 ⟨p, hp, rfl⟩⟩⟩, rfl⟩

/-- A choice is compiled if its three parts are and its instruction can be emitted. -/
lemma emit_choice_of_steps (htest : test.emit o w = .ok () w₁) (hyes : yes.emit o w₁ = .ok () w₂)
    (hno : no.emit o w₂ = .ok () w₃) (hp : Program.emit w₃.program .choice = .ok p) :
    (choice test yes no).emit o w = .ok () { w₃ with
      program := p.fold w₃.symbols.value o.stackCapacity w.program.code.toList.length } :=
  folding_eq_ok_iff.2 ⟨_, bind_eq_ok_iff.2 ⟨(), w₁, htest, bind_eq_ok_iff.2
    ⟨(), w₂, hyes, bind_eq_ok_iff.2 ⟨(), w₃, hno, emit_eq_ok_iff.2 ⟨p, hp, rfl⟩⟩⟩⟩, rfl⟩

/-- What is emitted into the first program can be emitted into the second. -/
theorem exists_emit_of_roomier (h : Roomier total constants w.program q)
    (htotal : constants + e.namedConstants ≤ total) (hemit : e.emit o w = .ok () w')
    (hindex : ∀ name ∈ e.names, w'.symbols.lookup name = some (indexOf name)) :
    ∃ q', e.emit o { w with program := q } = .ok () { w' with program := q' } ∧
      Roomier total (constants + e.namedConstants) w'.program q' ∧
      Extend indexOf e w.program q w'.program q' := by
  induction e generalizing w w' q constants with
  | number x =>
    obtain ⟨p, hp, rfl⟩ := emit_eq_ok_iff.1 hemit
    obtain ⟨q', hq, hroomier⟩ := h.emit hp
    exact ⟨q', emit_eq_ok_iff.2 ⟨q', hq, rfl⟩, hroomier, .leaf _ rfl hp hq⟩
  | var name position =>
    obtain ⟨index, w₁, hresolve, hload⟩ := bind_eq_ok_iff.1 hemit
    obtain ⟨p, hp, rfl⟩ := emit_eq_ok_iff.1 hload
    obtain ⟨hprogram, -, -, hlookup⟩ := resolved_of_resolve hresolve
    have hname := hindex name List.mem_cons_self
    rw [hlookup] at hname
    have hcode : (var name position).code indexOf = [.load index] := by
      rw [code, ← Option.some.inj hname]
    rw [hprogram] at hp
    obtain ⟨q', hq, hroomier⟩ := h.emit hp
    exact ⟨q', bind_eq_ok_iff.2 ⟨index, _, resolve_with_program hresolve q,
      emit_eq_ok_iff.2 ⟨q', hq, rfl⟩⟩, hroomier, .leaf _ hcode hp hq⟩
  | constant c =>
    have hnine := fun hstack hfit => width_add_nine_le_of_emit hstack h.isValid hfit hemit
    obtain ⟨p, hp, rfl⟩ := exists_of_emit_constant hemit
    obtain ⟨q', hq, hroomier⟩ := h.emit hp
    obtain ⟨hroomier, hextend⟩ := h.fold (hroomier.mono (Nat.le_add_right _ _) htotal)
      (.leaf (constant c) rfl hp hq) hnine
    exact ⟨_, emit_constant_of_steps hq, hroomier, hextend⟩
  | unary f operand ih =>
    have hnine := fun hstack hfit => width_add_nine_le_of_emit hstack h.isValid hfit hemit
    obtain ⟨w₁, p, hoperand, hp, rfl⟩ := exists_of_emit_unary hemit
    obtain ⟨q₁, hoperand', hroomier₁, hextend₁⟩ := ih h htotal hoperand hindex
    obtain ⟨q', hq, hroomier'⟩ := hroomier₁.emit hp
    obtain ⟨hroomier, hextend⟩ := h.fold (e := unary f operand) hroomier' (hextend₁.unary hp hq)
      hnine
    have hunary := emit_unary_of_steps hoperand' hq
    exact ⟨_, hunary, hroomier, hextend⟩
  | binary f left right ihleft ihright =>
    have hnine := fun hstack hfit => width_add_nine_le_of_emit hstack h.isValid hfit hemit
    obtain ⟨w₁, w₂, p, hleft, hright, hp, rfl⟩ := exists_of_emit_binary hemit
    have hfirst := (emits_emit o left).ok h.isValid.isConsistent hleft
    have hsecond := (emits_emit o right).ok hfirst.isConsistent hright
    have hnames := List.forall_mem_append.1 hindex
    have hsum : constants + (binary f left right).namedConstants =
        constants + left.namedConstants + right.namedConstants := (Nat.add_assoc _ _ _).symm
    rw [hsum] at htotal
    obtain ⟨q₁, hleft', hroomier₁, hextend₁⟩ := ihleft h (Nat.le_of_add_right_le htotal) hleft
      (hfirst.lookup_eq hsecond.extendsSymbols hnames.1)
    obtain ⟨q₂, hright', hroomier₂, hextend₂⟩ := ihright hroomier₁ htotal hright hnames.2
    obtain ⟨q', hq, hroomier'⟩ := hroomier₂.emit hp
    rw [← hsum] at hroomier'
    obtain ⟨hroomier, hextend⟩ := h.fold hroomier' (hextend₁.binary hextend₂ hp hq) hnine
    have hbinary := emit_binary_of_steps hleft' hright' hq
    exact ⟨_, hbinary, hroomier, hextend⟩
  | choice test yes no ihtest ihyes ihno =>
    have hnine := fun hstack hfit => width_add_nine_le_of_emit hstack h.isValid hfit hemit
    obtain ⟨w₁, w₂, w₃, p, htest, hyes, hno, hp, rfl⟩ := exists_of_emit_choice hemit
    have hfirst := (emits_emit o test).ok h.isValid.isConsistent htest
    have hsecond := (emits_emit o yes).ok hfirst.isConsistent hyes
    have hthird := (emits_emit o no).ok hsecond.isConsistent hno
    have hnames := List.forall_mem_append.1 hindex
    have hnames' := List.forall_mem_append.1 hnames.1
    have hsum : constants + (choice test yes no).namedConstants =
        constants + test.namedConstants + yes.namedConstants + no.namedConstants := by
      rw [namedConstants, Nat.add_assoc, Nat.add_assoc, Nat.add_assoc]
    rw [hsum] at htotal
    have htotal' := Nat.le_of_add_right_le htotal
    obtain ⟨q₁, htest', hroomier₁, hextend₁⟩ := ihtest h (Nat.le_of_add_right_le htotal') htest
      (hfirst.lookup_eq (hthird.extendsSymbols.trans hsecond.extendsSymbols) hnames'.1)
    obtain ⟨q₂, hyes', hroomier₂, hextend₂⟩ := ihyes hroomier₁ htotal' hyes
      (hsecond.lookup_eq hthird.extendsSymbols hnames'.2)
    obtain ⟨q₃, hno', hroomier₃, hextend₃⟩ := ihno hroomier₂ htotal hno hnames.2
    obtain ⟨q', hq, hroomier'⟩ := hroomier₃.emit hp
    rw [← hsum] at hroomier'
    obtain ⟨hroomier, hextend⟩ := h.fold hroomier' (hextend₁.choice hextend₂ hextend₃ hp hq) hnine
    have hchoice := emit_choice_of_steps htest' hyes' hno' hq
    exact ⟨_, hchoice, hroomier, hextend⟩

end Expr

end Reckon
