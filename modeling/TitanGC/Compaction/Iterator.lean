import TitanGC.Format.BlobFormat

/-!
# The compaction iterator

`CompactionIterator` of the RocksDB fork: the offload path (`Preprocess`,
`CheckBlobIndex`, `NextFromCache`) and the standard path (`NextFromInput`)
without snapshots, tombstones, merge operands and compaction filter. User keys
are of an arbitrary type; the comparator decides equality on it. Assertions are
compiled out, as in a release build.
-/

namespace TitanGC.Compaction.Iterator

open Lib.ByteCoding List Format.Coding Format.BlobFormat

/-- The value types of `db/dbformat.h` that Titan writes or rejects. -/
inductive ValueType where
  | deletion | value | merge | singleDeletion | blobIndex
  deriving Repr, DecidableEq

structure ParsedInternalKey (K : Type) where
  userKey : K
  sequence : Nat
  type : ValueType
  deriving Repr, DecidableEq

/-- An entry of the input iterator, and `kv_type` of the output queue. -/
structure Kv (K : Type) where
  key : ParsedInternalKey K
  value : Bytes
  deriving Repr, DecidableEq

variable {K : Type}

/-- Read up to `n` varints; a failed read ends the chain of `||` and leaves the
remaining fields zero. -/
def readVarints : Nat → Bytes → List UInt64 × Bytes
  | 0, s => ([], s)
  | n + 1, s =>
    match getVarint64 s with
    | none => ([], s)
    | some (v, s) => (v :: (readVarints n s).1, (readVarints n s).2)

/-- `blob_index_type`: file number, offset, size and index, in this order. -/
def readFields (s : Bytes) : BlobPtr × Bytes :=
  let vs := (readVarints 4 s).1
  (⟨vs.getD 0 0, ⟨vs.getD 1 0, vs.getD 2 0, vs.getD 3 0⟩⟩, (readVarints 4 s).2)

def readTypedFields (s : Bytes) : BlobPtr × Bytes :=
  match getChar s with
  | none => ({}, s)
  | some (type, s) => if type ≠ 1 then ({}, s) else readFields s

def putFields (p : BlobPtr) : Bytes :=
  1 :: (putVarint64 p.fileNumber ++ (putVarint64 p.blobHandle.offset ++
    (putVarint64 p.blobHandle.size ++ putVarint64 p.blobHandle.index)))

/-- `CheckBlobIndex`: `none` is the result `false`. The old location of `cur` is
never looked at, and the result has none. -/
def checkBlobIndex (prev cur : Bytes) : Option Bytes :=
  let prevNew := readTypedFields prev
  if prevNew.2.isEmpty then none
  else
    let prevOld := (readFields prevNew.2).1
    let curNew := (readTypedFields cur).1
    if prevOld.fileNumber = curNew.fileNumber ∧
        prevOld.blobHandle.offset = curNew.blobHandle.offset then some (putFields prevNew.1)
    else some (putFields curNew)

/-- The inner case split of `Preprocess`: what the back of the queue becomes when
the current entry has the same user key. -/
def absorb (back cur : Kv K) : Kv K :=
  match back.key.type with
  | .value => back
  | .blobIndex =>
    if cur.key.type = .value then cur
    else match checkBlobIndex back.value cur.value with
      | some res => { back with value := res }
      | none => back
  | _ => back

/-- The part of the iterator that `NextFromCache` reads and writes. -/
structure CacheIter (K : Type) where
  queue : List (Kv K)
  offset : Nat
  valid : Bool
  current : Option (Kv K)

def nextFromCache (it : CacheIter K) : CacheIter K :=
  match it.queue[it.offset]? with
  | some kv => { it with current := some kv, offset := it.offset + 1 }
  | none => { it with valid := false }

def drainCache : Nat → CacheIter K → List (Kv K)
  | 0, _ => []
  | n + 1, it => if it.valid then it.current.toList ++ drainCache n (nextFromCache it) else []

theorem drainCache_eq_drop (queue : List (Kv K)) (n : Nat) :
    ∀ (i : Nat) (c : Option (Kv K)), queue.length < n + i →
      drainCache n (nextFromCache ⟨queue, i, true, c⟩) = queue.drop i := by
  induction n with
  | zero =>
    intro i c hi
    rw [drainCache, drop_eq_nil_of_le (by omega)]
  | succ n ih =>
    intro i c hi
    by_cases hlt : i < queue.length
    · have hnext : nextFromCache ⟨queue, i, true, c⟩ = ⟨queue, i + 1, true, some queue[i]⟩ := by
        simp [nextFromCache, hlt]
      rw [hnext, drainCache, if_pos rfl, ih (i + 1) _ (by omega)]
      simp
    · have hnext : nextFromCache ⟨queue, i, true, c⟩ = ⟨queue, i, false, c⟩ := by
        simp [nextFromCache, getElem?_eq_none (Nat.le_of_not_lt hlt)]
      rw [hnext, drop_eq_nil_of_le (Nat.le_of_not_lt hlt)]
      simp [drainCache]

section

variable [DecidableEq K]

/-- One turn of the loop of `Preprocess`. The queue is kept back first. -/
def preprocessStep (queue : List (Kv K)) (cur : Kv K) : List (Kv K) :=
  match queue with
  | [] => [cur]
  | back :: done =>
    if cur.key.userKey = back.key.userKey then absorb back cur :: done
    else cur :: back :: done

/-- `Preprocess`: the queue built from the whole input, front first. -/
def preprocess (input : List (Kv K)) : List (Kv K) :=
  (input.foldl preprocessStep []).reverse

/-- `SeekToFirst` with `preprocess_`, then `Next` until invalid. -/
def offloadOutput (input : List (Kv K)) : List (Kv K) :=
  let queue := preprocess input
  drainCache (queue.length + 1) (nextFromCache ⟨queue, 0, true, none⟩)

/-- The loops of `NextFromInput` and `Next` over the input. `current` holds
`current_user_key_` and `current_user_key_snapshot_`. An entry hidden by a newer
one of its key in the same snapshot range is dropped, rule (A). -/
def standardFrom : Option (K × Nat) → List (Kv K) → List (Kv K)
  | _, [] => []
  | current, cur :: rest =>
    let lastSnapshot := match current with
      | some (k, snapshot) => if cur.key.userKey = k then snapshot else 0
      | none => 0
    let snapshot := kMaxSequenceNumber
    if lastSnapshot = snapshot ∨ (0 < lastSnapshot ∧ lastSnapshot < snapshot) then
      standardFrom (some (cur.key.userKey, snapshot)) rest
    else cur :: standardFrom (some (cur.key.userKey, snapshot)) rest

def standardOutput (input : List (Kv K)) : List (Kv K) := standardFrom none input

/-- The queue after `back`, front first: one entry for each run of equal keys. -/
def collapse : Kv K → List (Kv K) → List (Kv K)
  | back, [] => [back]
  | back, cur :: rest =>
    if cur.key.userKey = back.key.userKey then collapse (absorb back cur) rest
    else back :: collapse cur rest

theorem foldl_preprocessStep (input : List (Kv K)) (back : Kv K) (done : List (Kv K)) :
    input.foldl preprocessStep (back :: done) = (collapse back input).reverse ++ done := by
  induction input generalizing back done with
  | nil => rfl
  | cons cur rest ih =>
    rw [foldl_cons, preprocessStep, collapse]
    split
    · rw [ih]
    · rw [ih]
      simp

theorem preprocess_cons (cur : Kv K) (rest : List (Kv K)) :
    preprocess (cur :: rest) = collapse cur rest := by
  simp [preprocess, preprocessStep, foldl_preprocessStep]

/-- The callers of the iterator see exactly the queue. -/
theorem offloadOutput_eq (input : List (Kv K)) : offloadOutput input = preprocess input := by
  simpa [offloadOutput] using
    drainCache_eq_drop (preprocess input) ((preprocess input).length + 1) 0 none (by omega)

/-- An entry of the key emitted last is hidden. -/
theorem standardFrom_same {k : K} {cur : Kv K} (h : cur.key.userKey = k) (rest : List (Kv K)) :
    standardFrom (some (k, kMaxSequenceNumber)) (cur :: rest)
      = standardFrom (some (k, kMaxSequenceNumber)) rest := by
  simp [standardFrom, h]

/-- The first entry of a new key is emitted. -/
theorem standardFrom_new {k : K} {cur : Kv K} (h : cur.key.userKey ≠ k) (rest : List (Kv K)) :
    standardFrom (some (k, kMaxSequenceNumber)) (cur :: rest)
      = cur :: standardFrom (some (cur.key.userKey, kMaxSequenceNumber)) rest := by
  have hk : ¬ (0 = kMaxSequenceNumber) := by decide
  simp [standardFrom, h, hk]

theorem standardOutput_cons (cur : Kv K) (rest : List (Kv K)) :
    standardOutput (cur :: rest)
      = cur :: standardFrom (some (cur.key.userKey, kMaxSequenceNumber)) rest := by
  have hk : ¬ (0 = kMaxSequenceNumber) := by decide
  simp [standardOutput, standardFrom, hk]

end

end TitanGC.Compaction.Iterator
