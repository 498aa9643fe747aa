import Mathlib.Data.List.TakeWhile
import Mathlib.Tactic.Common

/-!
# Trees of binary operators

A sequence of operands with binary operators between them stands for a tree, once every operator has
a level: tighter operators bind tighter, and operators of one level associate to the left
(`IsParse`). There is exactly one such tree (`existsUnique_isParse`).

The tree grows along its right edge: the next operator takes the place of the lowest operator there
that binds at least as tight (`push`).  A shunting yard keeps just this edge, as a stack, and prints
the rest of the tree in postfix order, so that in the end it has printed the whole tree
(`IsParse.postorder_eq`).
-/

namespace Reckon

/-- A tree of binary operators around operands. -/
inductive OperatorTree (α ι : Type)
  | operand (a : α)
  | node (left : OperatorTree α ι) (op : ι) (right : OperatorTree α ι)

namespace OperatorTree

/-- An operand or an operator in a sequence of both. -/
inductive Symbol (α ι : Type)
  | operand (a : α)
  | operator (op : ι)
  deriving DecidableEq

variable {α ι : Type}

/-- The operands from left to right. -/
def operands : OperatorTree α ι → List α
  | operand a => [a]
  | node left _ right => left.operands ++ right.operands

/-- The operators from left to right. -/
def operators : OperatorTree α ι → List ι
  | operand _ => []
  | node left op right => left.operators ++ op :: right.operators

/-- Operands and operators in postfix order. -/
def postorder : OperatorTree α ι → List (Symbol α ι)
  | operand a => [.operand a]
  | node left op right => left.postorder ++ right.postorder ++ [.operator op]

/-- Whether all operators are of level `k` or tighter, and on the left of an operator in its subtree
there are none that are looser, and on the right of it only tighter ones. -/
def HasPrecedence (level : ι → ℕ) : ℕ → OperatorTree α ι → Prop
  | _, operand _ => True
  | k, node left op right =>
    k ≤ level op ∧ left.HasPrecedence level (level op) ∧ right.HasPrecedence level (level op + 1)

/-- Whether a tree is how operands with operators between them are read: tighter levels bind
tighter, and equal levels associate to the left. -/
structure IsParse (level : ι → ℕ) (operands : List α) (operators : List ι)
    (t : OperatorTree α ι) : Prop where
  operands_eq : t.operands = operands
  operators_eq : t.operators = operators
  hasPrecedence : t.HasPrecedence level 0

/-- Whether an operator `top` on the left of `op` gets the operand between them: it does if it binds
at least as tight. -/
def bindsFirst (level : ι → ℕ) (op top : ι) : Bool := level op ≤ level top

/-- What a shunting yard prints when the operators in `stack`, the latest first, wait for their
right operands: a waiting operator is printed before one that binds no tighter, and all are printed
in the end. -/
def shunt (level : ι → ℕ) : List ι → List ι → List α → List (Symbol α ι)
  | stack, op :: ops, a :: more =>
    (stack.takeWhile (bindsFirst level op)).map .operator ++
      .operand a :: shunt level (op :: stack.dropWhile (bindsFirst level op)) ops more
  | stack, _, _ => stack.map .operator

/-- What a shunting yard prints of operands with operators between them. -/
def shuntingYard (level : ι → ℕ) (operands : List α) (operators : List ι) : List (Symbol α ι) :=
  match operands with
  | [] => []
  | a :: more => .operand a :: shunt level [] operators more

variable {level : ι → ℕ} {t u : OperatorTree α ι} {j k : ℕ} {op : ι} {a : α}

/-- A tree has one operand more than it has operators. -/
lemma length_operands (t : OperatorTree α ι) : t.operands.length = t.operators.length + 1 := by
  induction t with
  | operand a => rfl
  | node left op right ihl ihr =>
    rw [operands, operators, List.length_append, List.length_append, List.length_cons, ihl, ihr]
    omega

/-! ## At most one tree -/

/-- No operator of a tree is looser than its precedence. -/
lemma HasPrecedence.le_of_mem (h : t.HasPrecedence level k) (hmem : op ∈ t.operators) :
    k ≤ level op := by
  induction t generalizing k with
  | operand a => exact nomatch hmem
  | node left root right ihl ihr =>
    obtain ⟨hroot, hleft, hright⟩ := h
    rw [operators, List.mem_append, List.mem_cons] at hmem
    rcases hmem with hmem | rfl | hmem
    · exact Nat.le_trans hroot (ihl hleft hmem)
    · exact hroot
    · exact Nat.le_trans hroot (Nat.le_of_succ_le (ihr hright hmem))

/-- The root is the last of the loosest operators, so that the sequence determines it. -/
lemma root_unique {left right left' right' : OperatorTree α ι} {op op' : ι}
    (h : (node left op right).HasPrecedence level k)
    (h' : (node left' op' right').HasPrecedence level j)
    (hoperators : (node left op right).operators = (node left' op' right').operators) :
    left.operators = left'.operators ∧ op = op' ∧ right.operators = right'.operators := by
  rw [operators, operators, List.append_eq_append_iff] at hoperators
  rcases hoperators with ⟨between, hleft, hright⟩ | ⟨between, hleft, hright⟩
  · cases between with
    | nil =>
      obtain ⟨rfl, hrights⟩ := List.cons.inj hright
      exact ⟨(hleft.trans (List.append_nil _)).symm, rfl, hrights⟩
    | cons o between =>
      obtain ⟨rfl, hrights⟩ := List.cons.inj hright
      have hop : op ∈ left'.operators := by
        rw [hleft]
        exact List.mem_append_right _ List.mem_cons_self
      have hop' : op' ∈ right.operators := by
        rw [hrights]
        exact List.mem_append_right _ List.mem_cons_self
      have hle := h'.2.1.le_of_mem hop
      have hlt := h.2.2.le_of_mem hop'
      omega
  · cases between with
    | nil =>
      obtain ⟨rfl, hrights⟩ := List.cons.inj hright
      exact ⟨hleft.trans (List.append_nil _), rfl, hrights.symm⟩
    | cons o between =>
      obtain ⟨rfl, hrights⟩ := List.cons.inj hright
      have hop' : op' ∈ left.operators := by
        rw [hleft]
        exact List.mem_append_right _ List.mem_cons_self
      have hop : op ∈ right'.operators := by
        rw [hrights]
        exact List.mem_append_right _ List.mem_cons_self
      have hle := h.2.1.le_of_mem hop'
      have hlt := h'.2.2.le_of_mem hop
      omega

/-- Operands and operators from left to right determine the tree. -/
lemma HasPrecedence.unique (ht : t.HasPrecedence level k) (hu : u.HasPrecedence level j)
    (hoperands : t.operands = u.operands) (hoperators : t.operators = u.operators) : t = u := by
  induction t generalizing u k j with
  | operand a =>
    cases u with
    | operand b => rw [(List.cons.inj hoperands).1]
    | node left op right =>
      exact absurd hoperators.symm (List.append_ne_nil_of_right_ne_nil _ nofun)
  | node left op right ihl ihr =>
    cases u with
    | operand b => exact absurd hoperators (List.append_ne_nil_of_right_ne_nil _ nofun)
    | node left' op' right' =>
      obtain ⟨hleft, rfl, hright⟩ := root_unique ht hu hoperators
      have hlength : left.operands.length = left'.operands.length := by
        rw [length_operands, length_operands, hleft]
      obtain ⟨hlefts, hrights⟩ := List.append_inj hoperands hlength
      rw [ihl ht.2.1 hu.2.1 hlefts hleft, ihr ht.2.2 hu.2.2 hrights hright]

/-! ## Growing a tree -/

/-- The tree with one more operator and operand at its right end. -/
def push (level : ι → ℕ) (op : ι) (a : α) : OperatorTree α ι → OperatorTree α ι
  | operand b => node (operand b) op (operand a)
  | node left root right =>
    if level op ≤ level root then node (node left root right) op (operand a)
    else node left root (right.push level op a)

/-- The tree with these operators and operands at its right end. -/
def grow (level : ι → ℕ) : OperatorTree α ι → List ι → List α → OperatorTree α ι
  | t, op :: ops, a :: more => grow level (t.push level op a) ops more
  | t, _, _ => t

/-- What is pushed is the last operand. -/
lemma operands_push (level : ι → ℕ) (op : ι) (a : α) (t : OperatorTree α ι) :
    (t.push level op a).operands = t.operands ++ [a] := by
  induction t with
  | operand b => rfl
  | node left root right _ ihr =>
    rw [push]
    split
    · rfl
    · rw [operands, ihr, operands, List.append_assoc]

/-- What is pushed is the last operator. -/
lemma operators_push (level : ι → ℕ) (op : ι) (a : α) (t : OperatorTree α ι) :
    (t.push level op a).operators = t.operators ++ [op] := by
  induction t with
  | operand b => rfl
  | node left root right _ ihr =>
    rw [push]
    split
    · rfl
    · rw [operators, ihr, operators, List.append_assoc, List.cons_append]

/-- A tree keeps its precedence when an operator that is tight enough is pushed. -/
lemma HasPrecedence.push (h : t.HasPrecedence level k) (hop : k ≤ level op) (a : α) :
    (t.push level op a).HasPrecedence level k := by
  induction t generalizing k with
  | operand b => exact ⟨hop, trivial, trivial⟩
  | node left root right _ ihr =>
    obtain ⟨hroot, hleft, hright⟩ := h
    rw [OperatorTree.push]
    split
    · rename_i hle
      exact ⟨hop, ⟨hle, hleft, hright⟩, trivial⟩
    · rename_i hlt
      exact ⟨hroot, hleft, ihr hright (Nat.lt_of_not_le hlt)⟩

/-- A tree that grows parses what is pushed. -/
lemma isParse_grow {ops : List ι} {more : List α} (h : t.HasPrecedence level 0)
    (hlength : more.length = ops.length) :
    (grow level t ops more).IsParse level (t.operands ++ more) (t.operators ++ ops) := by
  induction ops generalizing t more with
  | nil =>
    obtain rfl : more = [] := List.length_eq_zero_iff.1 hlength
    exact ⟨(List.append_nil _).symm, (List.append_nil _).symm, h⟩
  | cons op ops ih =>
    obtain ⟨a, more, rfl⟩ := List.exists_cons_of_length_eq_add_one hlength
    have hgrown := ih (h.push (Nat.zero_le (level op)) a) (Nat.succ.inj hlength)
    rw [operands_push, operators_push, List.append_assoc, List.append_assoc] at hgrown
    exact hgrown

/-- The tree of a sequence is grown from its first operand. -/
lemma isParse_grow_operand (level : ι → ℕ) {operands : List α} {operators : List ι}
    (h : operands.length = operators.length + 1) :
    ∃ a more, operands = a :: more ∧
      (grow level (operand a) operators more).IsParse level operands operators := by
  obtain ⟨a, more, rfl⟩ := List.exists_cons_of_length_eq_add_one h
  have hleaf : (operand a : OperatorTree α ι).HasPrecedence level 0 := trivial
  exact ⟨a, more, rfl, isParse_grow hleaf (Nat.succ.inj h)⟩

/-- Operands and operators have one tree only. -/
lemma IsParse.unique {operands : List α} {operators : List ι}
    (ht : t.IsParse level operands operators)
    (hu : u.IsParse level operands operators) : t = u :=
  ht.hasPrecedence.unique hu.hasPrecedence (ht.operands_eq.trans hu.operands_eq.symm)
    (ht.operators_eq.trans hu.operators_eq.symm)

/-- Operands with operators between them are read as one tree and no other. -/
theorem existsUnique_isParse (level : ι → ℕ) {operands : List α} {operators : List ι}
    (h : operands.length = operators.length + 1) :
    ∃! t : OperatorTree α ι, t.IsParse level operands operators := by
  obtain ⟨a, more, -, hgrown⟩ := isParse_grow_operand level h
  exact ⟨_, hgrown, fun u hu => hu.unique hgrown⟩

/-! ## The shunting yard -/

section Concat

variable {p : ι → Bool} {x : ι} {xs : List ι}

lemma takeWhile_concat (hx : p x = false) : (xs ++ [x]).takeWhile p = xs.takeWhile p := by
  have hnone : [x].takeWhile p = [] := by simp [hx]
  rw [List.takeWhile_append, hnone]
  split
  · rename_i hall
    have hbegins : xs.takeWhile p <+: xs := List.takeWhile_prefix p
    rw [List.append_nil, hbegins.eq_of_length hall]
  · rfl

lemma dropWhile_concat (hx : p x = false) : (xs ++ [x]).dropWhile p = xs.dropWhile p ++ [x] := by
  have hall : [x].dropWhile p = [x] := by simp [hx]
  rw [List.dropWhile_append, hall]
  split
  · rename_i hnone
    rw [List.isEmpty_iff.1 hnone, List.nil_append]
  · rfl

end Concat

/-- The operators along the right edge of a tree, the lowest first. -/
def edge : OperatorTree α ι → List ι
  | operand _ => []
  | node _ op right => right.edge ++ [op]

/-- A tree in postfix order, without the operators along its right edge. -/
def interior : OperatorTree α ι → List (Symbol α ι)
  | operand a => [.operand a]
  | node left _ right => left.postorder ++ right.interior

/-- A tree is printed by its inside and then by the operators along its right edge. -/
lemma postorder_eq_interior_append (t : OperatorTree α ι) :
    t.postorder = t.interior ++ t.edge.map .operator := by
  induction t with
  | operand a => rfl
  | node left op right _ ihr =>
    rw [postorder, interior, edge, ihr, List.map_append, List.append_assoc, List.append_assoc,
      List.append_assoc, List.map_singleton]

/-- The operators along the right edge are operators of the tree. -/
lemma mem_operators_of_mem_edge (h : op ∈ t.edge) : op ∈ t.operators := by
  induction t with
  | operand a => exact nomatch h
  | node left root right _ ihr =>
    rw [operators, List.mem_append, List.mem_cons]
    rcases List.mem_append.1 h with hmem | hmem
    · exact .inr (.inr (ihr hmem))
    · exact .inr (.inl (List.mem_singleton.1 hmem))

/-- Along the right edge the root is the loosest operator. -/
lemma HasPrecedence.root_le_edge {left right : OperatorTree α ι} {root : ι}
    (h : (node left root right).HasPrecedence level k) :
    ∀ top ∈ (node left root right).edge, level root ≤ level top := by
  have htight : (node left root right).HasPrecedence level (level root) := ⟨Nat.le_refl _, h.2⟩
  exact fun top htop => htight.le_of_mem (mem_operators_of_mem_edge htop)

/-- The new operator takes the place of those along the right edge that bind at least as tight, and
these come next in postfix order. -/
lemma edge_push_and_interior_push (h : t.HasPrecedence level k) (op : ι) (a : α) :
    (t.push level op a).edge = op :: t.edge.dropWhile (bindsFirst level op) ∧
    (t.push level op a).interior =
      t.interior ++ (t.edge.takeWhile (bindsFirst level op)).map .operator ++ [.operand a] := by
  induction t generalizing k with
  | operand b => exact ⟨rfl, rfl⟩
  | node left root right _ ihr =>
    rw [push]
    split
    · rename_i hle
      have hall : ∀ top ∈ (node left root right).edge, bindsFirst level op top = true :=
        fun top htop => decide_eq_true (Nat.le_trans hle (h.root_le_edge top htop))
      rw [List.dropWhile_eq_nil_iff.2 hall, List.takeWhile_eq_self_iff.2 hall,
        ← postorder_eq_interior_append]
      exact ⟨rfl, rfl⟩
    · rename_i hlt
      have hstops : bindsFirst level op root = false := decide_eq_false hlt
      obtain ⟨hedge, hinterior⟩ := ihr h.2.2
      constructor
      · rw [edge, hedge, edge, dropWhile_concat hstops, List.cons_append]
      · rw [interior, hinterior, interior, edge, takeWhile_concat hstops, List.append_assoc,
          List.append_assoc, List.append_assoc]

/-- A tree that grows is printed as a stack of operators is shunted. -/
lemma postorder_grow (h : t.HasPrecedence level 0) (ops : List ι) (more : List α) :
    (grow level t ops more).postorder = t.interior ++ shunt level t.edge ops more := by
  induction ops generalizing t more with
  | nil => exact t.postorder_eq_interior_append
  | cons op ops ih =>
    cases more with
    | nil => exact t.postorder_eq_interior_append
    | cons a more =>
      obtain ⟨hedge, hinterior⟩ := edge_push_and_interior_push h op a
      rw [grow, ih (h.push (Nat.zero_le _) a), hedge, hinterior, shunt, List.append_assoc,
        List.append_assoc, List.singleton_append]

/-- The shunting yard prints the tree in postfix order. -/
theorem IsParse.postorder_eq {operands : List α} {operators : List ι}
    (h : t.IsParse level operands operators) :
    t.postorder = shuntingYard level operands operators := by
  have hlength : operands.length = operators.length + 1 := by
    rw [← h.operands_eq, ← h.operators_eq, length_operands]
  obtain ⟨a, more, rfl, hgrown⟩ := isParse_grow_operand level hlength
  have hleaf : (operand a : OperatorTree α ι).HasPrecedence level 0 := trivial
  rw [h.unique hgrown, postorder_grow hleaf]
  rfl

end OperatorTree

end Reckon
