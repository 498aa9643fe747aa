import Reckon.Symbol.Hash
import Reckon.Error

/-!
# The symbol table

Variables have an index each, in the order in which they were installed, and keep it.  Names are
found through buckets: a bucket leads to the newest of the variables whose names hash to it, and
each of these to the one before.  The number of buckets changes how long a search takes and nothing
else.
-/

namespace Reckon

/-- A variable. -/
structure Symbol where
  name : String
  value : Float
  /-- The variable that was the newest in the same bucket before this one. -/
  next : Option Nat

/-- The variables, and the buckets that find them by name. -/
structure SymbolTable where
  /-- The variables by index. -/
  symbols : Array Symbol
  /-- The newest variable in each bucket. -/
  buckets : Array (Option Nat)
  /-- There is a bucket for every name. -/
  buckets_pos : 0 < buckets.size
  /-- A bucket leads to a variable. -/
  lt_of_bucket : ∀ b (h : b < buckets.size) i, buckets[b] = some i → i < symbols.size
  /-- A variable leads to an older one, so the way along a bucket ends. -/
  lt_of_next : ∀ i (h : i < symbols.size) j, symbols[i].next = some j → j < i

namespace SymbolTable

/-- An empty table with the given number of buckets, or with one instead of none. -/
def withBuckets (count : Nat) : SymbolTable where
  symbols := #[]
  buckets := Array.replicate (max count 1) none
  buckets_pos := by
    rw [Array.size_replicate]
    exact Nat.lt_of_lt_of_le Nat.one_pos (Nat.le_max_right count 1)
  lt_of_bucket := by simp
  lt_of_next := by simp

/-- The number of buckets unless told otherwise. -/
def defaultBuckets : Nat := 128

/-- An empty table. -/
def empty : SymbolTable := withBuckets defaultBuckets

/-- The number of variables. -/
def size (t : SymbolTable) : Nat := t.symbols.size

/-- The number of buckets. -/
def bucketCount (t : SymbolTable) : Nat := t.buckets.size

/-- The bucket of a name in this table. -/
def bucketOf (t : SymbolTable) (name : String) : Fin t.buckets.size :=
  ⟨Hash.bucket name t.buckets.size, Hash.bucket_lt name t.buckets_pos⟩

/-- The newest variable in the bucket of a name. -/
def head (t : SymbolTable) (name : String) : Option Nat := t.buckets[t.bucketOf name]

/-- The indexes on the way from one variable to the oldest in its bucket. -/
@[semireducible] def chainFrom (t : SymbolTable) (i : Nat) (h : i < t.symbols.size) : List Nat :=
  match hnext : t.symbols[i].next with
  | none => [i]
  | some j => i :: t.chainFrom j (Nat.lt_trans (t.lt_of_next i h j hnext) h)
termination_by i
decreasing_by exact t.lt_of_next i h j hnext

/-- The indexes in the bucket of a name, the newest first, whether the name is installed or not. -/
def chain (t : SymbolTable) (name : String) : List Nat :=
  match hhead : t.head name with
  | none => []
  | some i => t.chainFrom i (t.lt_of_bucket (t.bucketOf name) (t.bucketOf name).isLt i hhead)

/-- The name of the variable with this index. -/
def name? (t : SymbolTable) (index : Nat) : Option String := t.symbols[index]?.map Symbol.name

/-- The value of the variable with this index; an index without a variable has the value zero. -/
def value (t : SymbolTable) (index : Nat) : Float := (t.symbols[index]?.map Symbol.value).getD 0

/-- The index of a name. -/
def lookup (t : SymbolTable) (name : String) : Option Nat :=
  (t.chain name).find? fun index => t.name? index = some name

/-- The value of a name. -/
def valueOf? (t : SymbolTable) (name : String) : Option Float := (t.lookup name).map t.value

/-- Adds a name that is not in the table yet, with the value zero. -/
def add (t : SymbolTable) (name : String) : SymbolTable where
  symbols := t.symbols.push ⟨name, 0, t.head name⟩
  buckets := t.buckets.set (t.bucketOf name) (some t.size)
  buckets_pos := by simpa using t.buckets_pos
  lt_of_bucket := by
    intro b hb i hi
    rw [Array.size_push]
    rw [Array.getElem_set] at hi
    split at hi
    · exact Option.some.inj hi ▸ Nat.lt_succ_self t.size
    · exact Nat.lt_succ_of_lt (t.lt_of_bucket b (by simpa using hb) i hi)
  lt_of_next := by
    intro i hi j hj
    rw [Array.getElem_push] at hj
    split at hj
    · exact t.lt_of_next i _ j hj
    · rename_i hsize
      exact Nat.lt_of_lt_of_le (t.lt_of_bucket _ (t.bucketOf name).isLt j hj) (Nat.not_lt.1 hsize)

/-- How many variables there can be: indexes are 32-bit numbers. -/
def limit : Nat := 4294967296

/-- The index of a name, which is added if it is new. -/
def install (t : SymbolTable) (name : String) : Except Error (Nat × SymbolTable) :=
  match t.lookup name with
  | some index => .ok (index, t)
  | none => if t.size < limit then .ok (t.size, t.add name) else .error (.symbolAllocation name)

/-- Gives a variable a value; an index without a variable changes nothing. -/
def set (t : SymbolTable) (index : Nat) (x : Float) : SymbolTable where
  symbols := t.symbols.modify index fun s => { s with value := x }
  buckets := t.buckets
  buckets_pos := t.buckets_pos
  lt_of_bucket := by simpa using t.lt_of_bucket
  lt_of_next := by
    intro i hi j hj
    rw [Array.getElem_modify] at hj
    exact t.lt_of_next i (by simpa using hi) j (by split at hj <;> exact hj)

/-- The variables in the order of their indexes. -/
def toList (t : SymbolTable) : List Symbol := t.symbols.toList

end SymbolTable

end Reckon
