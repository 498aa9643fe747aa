import Reckon.Proofs.Symbol.Register

/-!
# The buckets part the variables

Whatever a table has been asked for, its buckets part its variables
(`SymbolTable.chains_after_requests`): the way along a bucket ends, it passes just the variables
whose names hash to the bucket, each once and the newest first, and every variable is passed in one
bucket and in no other.

A walk that follows the links of a bucket, one after another, is compared with the list of what it
passes (`SymbolTable.walk_bucketOf`).  The buckets are counted as numbers here, whether or not there
is a name for each of them; a bucket that leads anywhere has one (`SymbolTable.IsParted`).
-/

namespace Reckon.SymbolTable

variable {t : SymbolTable} {name : String} {index : ℕ}

/-! ## Walks along the links -/

/-- Where a walk along a bucket stands after so many steps, unless it has come to an end.  Only the
arrays are looked at. -/
def walk (t : SymbolTable) (bucket : ℕ) : ℕ → Option ℕ
  | 0 => t.buckets[bucket]?.join
  | steps + 1 => (t.walk bucket steps).bind fun i => t.symbols[i]?.bind Symbol.next

/-- Behind each variable on the way from some variable comes the one it is linked to. -/
lemma getElem?_chainFrom_succ (h : index < t.symbols.size) (steps : ℕ) :
    (t.chainFrom index h)[steps + 1]? =
      (t.chainFrom index h)[steps]?.bind fun i => t.symbols[i]?.bind Symbol.next := by
  induction index using Nat.strongRecOn generalizing steps with
  | ind index ih =>
    have hlink : t.symbols[index]?.bind Symbol.next = t.symbols[index].next := by
      rw [Array.getElem?_eq_getElem h, Option.bind_some]
    rcases hnext : t.symbols[index].next with _ | i
    · rw [chainFrom_of_next_eq_none h hnext]
      cases steps with
      | zero => exact (hlink.trans hnext).symm
      | succ steps => rfl
    · have hi := t.lt_of_next index h i hnext
      rw [chainFrom_of_next_eq_some h hnext (Nat.lt_trans hi h), List.getElem?_cons_succ]
      cases steps with
      | zero =>
        have hfirst : (t.chainFrom i (Nat.lt_trans hi h))[0]? = some i := by
          rw [chainFrom]
          split <;> rfl
        rw [hfirst, List.getElem?_cons_zero, Option.bind_some, hlink, hnext]
      | succ steps => exact ih i hi (Nat.lt_trans hi h) steps

/-- A walk along the bucket of a name passes what is listed for the name, and then it ends. -/
lemma walk_bucketOf (t : SymbolTable) (name : String) (steps : ℕ) :
    t.walk (t.bucketOf name) steps = (t.chain name)[steps]? := by
  have hstart : t.walk (t.bucketOf name) 0 = t.head name := by
    rw [walk, head, Array.getElem?_eq_getElem (t.bucketOf name).isLt]
    rfl
  rcases hhead : t.head name with _ | i
  · rw [chain_of_head_eq_none hhead]
    induction steps with
    | zero => exact hstart.trans hhead
    | succ steps ih =>
      rw [walk, ih]
      rfl
  · have hi := lt_size_of_head hhead
    rw [chain_of_head_eq_some hhead hi]
    induction steps with
    | zero =>
      rw [hstart, hhead, chainFrom]
      split <;> rfl
    | succ steps ih => rw [walk, ih, getElem?_chainFrom_succ]

/-- A chain passes each index at most once on its way down. -/
lemma length_chainFrom_le (h : index < t.symbols.size) :
    (t.chainFrom index h).length ≤ index + 1 := by
  induction index using Nat.strongRecOn with
  | ind index ih =>
    rcases hnext : t.symbols[index].next with _ | i
    · rw [chainFrom_of_next_eq_none h hnext]
      exact Nat.le_add_left 1 index
    · have hi := t.lt_of_next index h i hnext
      rw [chainFrom_of_next_eq_some h hnext (Nat.lt_trans hi h), List.length_cons]
      exact Nat.succ_le_succ (Nat.le_trans (ih i hi (Nat.lt_trans hi h)) hi)

/-- No way along a bucket is longer than the table. -/
lemma length_chain_le (t : SymbolTable) (name : String) : (t.chain name).length ≤ t.size := by
  rcases hhead : t.head name with _ | i
  · rw [chain_of_head_eq_none hhead]
    exact Nat.zero_le t.size
  · rw [chain_of_head_eq_some hhead (lt_size_of_head hhead)]
    exact Nat.le_trans (length_chainFrom_le _) (lt_size_of_head hhead)

/-! ## Requests -/

/-- What a request can do to a table: nothing, add a name that is not there, or set a variable. -/
lemma respond_cases (request : Request) (t : SymbolTable) :
    (respond request t).2 = t ∨
      (∃ name, t.lookup name = none ∧ (respond request t).2 = t.add name) ∨
      ∃ i x, (respond request t).2 = t.set i x := by
  rcases request with name | ⟨i, x⟩ | i | i | name | _ | _
  · rw [respond, install]
    rcases hlookup : t.lookup name with _ | i
    · by_cases hroom : t.size < limit
      · rw [if_pos hroom]
        exact .inr (.inl ⟨name, hlookup, rfl⟩)
      · rw [if_neg hroom]
        exact .inl rfl
    · exact .inl rfl
  · exact .inr (.inr ⟨i, x, rfl⟩)
  all_goals exact .inl rfl

/-- Requests leave the number of buckets as it is. -/
lemma bucketCount_serve (requests : List Request) (t : SymbolTable) :
    (serve respond requests t).2.bucketCount = t.bucketCount := by
  induction requests generalizing t with
  | nil => rfl
  | cons request requests ih =>
    refine (ih _).trans ?_
    obtain hsame | ⟨name, -, hadd⟩ | ⟨i, x, hset⟩ := respond_cases request t
    · exact congrArg bucketCount hsame
    · exact (congrArg bucketCount hadd).trans (bucketCount_add t name)
    · have hcount : (t.set i x).bucketCount = t.bucketCount := rfl
      exact (congrArg bucketCount hset).trans hcount

/-! ## Buckets as numbers -/

/-- Whether the buckets of a table part its variables: they are right for the names, and a bucket
that leads anywhere leads to a name that hashes to it. -/
structure IsParted (t : SymbolTable) : Prop extends t.IsSound where
  exists_name_of_bucket : ∀ bucket i, t.buckets[bucket]?.join = some i →
    ∃ name, t.name? i = some name ∧ Hash.bucket name t.bucketCount = bucket

namespace IsParted

/-- A table without names is parted. -/
lemma withBuckets (count : ℕ) : (SymbolTable.withBuckets count).IsParted := by
  refine ⟨.withBuckets count, fun bucket i hi => ?_⟩
  rw [SymbolTable.withBuckets, Array.getElem?_replicate] at hi
  split at hi <;> contradiction

/-- A name that is added is put in its own bucket. -/
lemma add (h : t.IsParted) (hnone : t.lookup name = none) : (t.add name).IsParted := by
  refine ⟨h.toIsSound.add hnone, fun bucket i hi => ?_⟩
  rw [bucketCount_add]
  have hbuckets : (t.add name).buckets = t.buckets.set (t.bucketOf name) (some t.size) := rfl
  rw [hbuckets, Array.getElem?_set] at hi
  split at hi
  · rename_i hbucket
    obtain rfl : t.size = i := Option.some.inj hi
    exact ⟨name, name?_add_eq_some_iff.2 (.inl ⟨rfl, rfl⟩), hbucket⟩
  · obtain ⟨other, hother, hbucket⟩ := h.exists_name_of_bucket bucket i hi
    exact ⟨other, name?_add_eq_some_iff.2 (.inr hother), hbucket⟩

/-- A value that is set leaves the buckets as they are. -/
lemma set (h : t.IsParted) (i : ℕ) (x : Float) : (t.set i x).IsParted := by
  refine ⟨h.toIsSound.set i x, fun bucket j hj => ?_⟩
  obtain ⟨name, hname, hbucket⟩ := h.exists_name_of_bucket bucket j hj
  exact ⟨name, (name?_set t i x j).trans hname, hbucket⟩

/-- No request disturbs the buckets, not even one that there is no room for. -/
lemma respond (h : t.IsParted) (request : Request) : (respond request t).2.IsParted := by
  obtain hsame | ⟨name, hnone, hadd⟩ | ⟨i, x, hset⟩ := respond_cases request t
  · rw [hsame]
    exact h
  · rw [hadd]
    exact h.add hnone
  · rw [hset]
    exact h.set i x

/-- Requests leave a table parted. -/
lemma serve (h : t.IsParted) (requests : List Request) :
    (serve SymbolTable.respond requests t).2.IsParted := by
  induction requests generalizing t with
  | nil => exact h
  | cons request requests ih => exact ih (h.respond request)

/-- A variable is passed in the bucket of its name and in no other. -/
lemma exists_walk_iff (h : t.IsParted) (hname : t.name? index = some name) (bucket : ℕ) :
    (∃ steps, t.walk bucket steps = some index) ↔ Hash.bucket name t.bucketCount = bucket := by
  have hmem : ∀ other, (∃ steps, t.walk (t.bucketOf other) steps = some index) ↔
      t.SharesBucket name other := by
    intro other
    have hiff := h.mem_chain_iff other index
    rw [List.mem_iff_getElem?, hname] at hiff
    simp only [walk_bucketOf, hiff, Option.some.injEq, exists_eq_left']
  constructor
  · rintro ⟨steps, hwalk⟩
    -- a walk that gets anywhere begins somewhere, so the bucket is that of some name
    rcases hstart : t.buckets[bucket]?.join with _ | i
    · have hended : ∀ steps, t.walk bucket steps = none := by
        intro steps
        induction steps with
        | zero => exact hstart
        | succ steps ih =>
          rw [walk, ih]
          rfl
      rw [hended steps] at hwalk
      contradiction
    · obtain ⟨other, -, rfl⟩ := h.exists_name_of_bucket bucket i hstart
      exact (hmem other).1 ⟨steps, hwalk⟩
  · rintro rfl
    exact (hmem name).2 rfl

end IsParted

/-- A new table is asked for whatever it may be, and has as many buckets as it was given, but at
least one. Then for every name, installed or not, a walk along its bucket passes the variables that
are listed for the name, and ends behind the last of them.  These are the variables whose names
share the bucket, each once and with falling indexes.  And each variable is passed on walks along
exactly one bucket. -/
theorem chains_after_requests (count : ℕ) (requests : List Request) :
    let t := (serve respond requests (withBuckets count)).2
    t.bucketCount = max count 1 ∧
      (∀ name, (∀ steps, t.walk (t.bucketOf name) steps = (t.chain name)[steps]?) ∧
        (t.chain name).length ≤ t.size ∧
        (∀ index, index ∈ t.chain name ↔
          ∃ other, t.name? index = some other ∧ t.SharesBucket other name) ∧
        (t.chain name).Nodup ∧ (t.chain name).Pairwise (· > ·)) ∧
      ∀ index < t.size, ∃! bucket, bucket < t.bucketCount ∧
        ∃ steps, t.walk bucket steps = some index := by
  intro t
  have h : t.IsParted := (IsParted.withBuckets count).serve requests
  refine ⟨?_, fun name => ?_, fun index hindex => ?_⟩
  · rw [bucketCount_serve, withBuckets, bucketCount, Array.size_replicate]
  · have hpairwise := t.pairwise_chain name
    exact ⟨t.walk_bucketOf name, t.length_chain_le name, h.mem_chain_iff name,
      hpairwise.imp fun hlt => Nat.ne_of_gt hlt, hpairwise⟩
  · obtain ⟨name, hname⟩ : ∃ name, t.name? index = some name :=
      ⟨_, congrArg (Option.map Symbol.name) (Array.getElem?_eq_getElem hindex)⟩
    refine ⟨Hash.bucket name t.bucketCount, ⟨(t.bucketOf name).isLt, ?_⟩, ?_⟩
    · exact (h.exists_walk_iff hname _).2 rfl
    · rintro bucket ⟨-, hwalk⟩
      exact ((h.exists_walk_iff hname bucket).1 hwalk).symm

/-- With one bucket all names share it, and the last name to come is passed first. -/
theorem chain_of_only_bucket :
    let requests : List Request := [.install "a", .install "b", .set 1 2, .install "c"]
    let t := (serve respond requests (withBuckets 0)).2
    t.chain "unknown" = [2, 1, 0] ∧
      ∃! bucket, bucket < t.bucketCount ∧ ∃ steps, t.walk bucket steps = some 1 := by
  intro requests t
  exact ⟨by decide +kernel, (chains_after_requests 0 requests).2.2 1 (by decide +kernel)⟩

end Reckon.SymbolTable
