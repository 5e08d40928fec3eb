import TitanGC.Format.BlobFile
import TitanGC.Offload.Deletes

/-!
# Get and iterators in offload mode

`TitanDBIterator` over `DBIter` and a merging iterator: it takes the newest version
that the snapshot can see, whatever lies below it. `Get` differs only where
`pending_check` looks below a write-back in the active memtable. In every state that
the system reaches the two agree exactly unless a visible write-back there hides an
inline value other than its record, or a tombstone.
-/

namespace TitanGC.Offload.IteratorReads

open Function (update)
open Relation (ReflTransGen)
open Lib.ByteCoding List Format.Coding Format.BlobFormat Format.BlobFile
open Compaction.Iterator (ValueType)
open Storage.BlobFiles
open Reads (BaseResult)
open Tombstones DeleteSystem

/-- An internal key of the sought user key, with its value. -/
abbrev InternalRow := Nat × ValueType × Bytes

/-- The merging iterator yields the versions of all memtables and SSTs, newest first. -/
def mergingIterator (children : List (List InternalRow)) : List InternalRow :=
  children.flatten.mergeSort fun a b => decide (b.1 ≤ a.1)

/-- `DBIter::FindNextUserEntry` on the versions of the sought key, with
`expose_blob_index`. Not found stands for an iterator that is on a later key. -/
def findUserEntry (snapshot : Nat) : List InternalRow → BaseResult
  | [] => .error notFound
  | (sequence, type, value) :: rest =>
    if snapshot < sequence then findUserEntry snapshot rest
    else match type with
      | .value => .ok (value, false)
      | .blobIndex => .ok (value, true)
      | .deletion | .singleDeletion => .error notFound
      | .merge => .error ⟨.invalidArgument, "merge_operator_ must be set."⟩

variable {K : Type}

/-- `BlobStorage::NewPrefetcher` and `BlobFilePrefetcher::Get`, which reads ahead and
then reads as `BlobStorage::Get` does. -/
def prefetcherGet (fs : Files K) (p : BlobPtr) : Except Status Bytes :=
  match fs p.fileNumber with
  | none => .error (corruption ("Missing blob wfile: " ++ toString p.fileNumber.toNat))
  | some _ => storageGet fs p

def getBlobValue (fs : Files K) (value : Bytes) : Except Status Bytes :=
  match decodeInto BlobIndex.decodeFrom value false with
  | .error e => .error e
  | .ok b => prefetcherGet fs b.ptr

/-- `TitanDBIterator::value`, or the status when the iterator is not valid. -/
def iteratorValue (fs : Files K) : BaseResult → Except Status Bytes
  | .error e => .error e
  | .ok (v, false) => .ok v
  | .ok (v, true) => getBlobValue fs v

def internalRows (es : List Versioned) : List InternalRow := es.map fun e => (e.1, e.2.row)

/-- A `TitanDBIterator` at the snapshot after `Seek` to the key. -/
def iterateAt (s : State K) (snapshot : Nat) (k : K) : Except Status Bytes :=
  iteratorValue s.present (findUserEntry snapshot (mergingIterator
    (internalRows (s.mem k) :: ((s.imm.map (· k)).map internalRows ++ [internalRows (s.ssts k)]))))

/-- What a user learns: a value, that the key is absent, or that the read failed. -/
inductive Outcome where
  | value (v : Bytes)
  | absent
  | failed
  deriving Repr, DecidableEq

def outcome : Except Status Bytes → Outcome
  | .ok v => .value v
  | .error e => if e.code = .notFound then .absent else .failed

/-! ## The iterator takes the newest visible version -/

/-- What `DBIter` returns for the version it stops at. -/
def entryResult : Option Stored → BaseResult
  | some (.value v) => .ok (v, false)
  | some (.index b) => .ok (b.encodeTo, true)
  | some .tombstone => .error notFound
  | none => .error notFound

theorem findUserEntry_rows (snapshot : Nat) (es : List Versioned) :
    findUserEntry snapshot (internalRows es) = entryResult (visible snapshot es).head? := by
  induction es with
  | nil => rfl
  | cons e es ih =>
    obtain ⟨n, e⟩ := e
    by_cases hn : n ≤ snapshot
    · have hlt : ¬ snapshot < n := Nat.not_lt.mpr hn
      have hv : (visible snapshot ((n, e) :: es)).head? = some e := by simp [visible, hn]
      rw [hv]
      show (if snapshot < n then findUserEntry snapshot (internalRows es) else _) = _
      rw [if_neg hlt]
      cases e <;> rfl
    · have hlt : snapshot < n := Nat.not_le.mp hn
      have hv : visible snapshot ((n, e) :: es) = visible snapshot es := by simp [visible, hn]
      rw [hv, ← ih]
      show (if snapshot < n then findUserEntry snapshot (internalRows es) else _) = _
      rw [if_pos hlt]

theorem mergingIterator_of_ordered {s : State K} (hs : Ordered s) (k : K) :
    mergingIterator
        (internalRows (s.mem k) :: ((s.imm.map (· k)).map internalRows ++ [internalRows (s.ssts k)]))
      = internalRows (s.history k) := by
  have hflat : (internalRows (s.mem k) ::
      ((s.imm.map (· k)).map internalRows ++ [internalRows (s.ssts k)])).flatten
        = internalRows (s.history k) := by
    have himm : ((s.imm.map (· k)).map internalRows).flatten
        = internalRows (s.imm.map (· k)).flatten := map_flatten.symm
    rw [flatten_cons, flatten_append, himm]
    simp [internalRows, State.history]
  have hsorted : (internalRows (s.history k)).Pairwise
      fun a b => decide (b.1 ≤ a.1) = true := by
    refine pairwise_map.mpr ((hs.newest k).imp ?_)
    intro a b hab
    exact decide_eq_true (Nat.le_of_lt hab)
  rw [mergingIterator, hflat, mergeSort_of_pairwise hsorted]

theorem outcome_storageGet_ne_absent (fs : Files K) (p : BlobPtr) :
    outcome (storageGet fs p) ≠ .absent := by
  unfold storageGet
  split
  · simp [outcome, corruption]
  · split <;> simp [outcome, corruption]

theorem outcome_eq_value_iff {r : Except Status Bytes} {v : Bytes} :
    outcome r = .value v ↔ r = .ok v := by
  cases r with
  | ok w => simp [outcome]
  | error e =>
    simp only [outcome, reduceCtorEq, iff_false]
    split <;> simp

theorem outcome_prefetcherGet (fs : Files K) (p : BlobPtr) :
    outcome (prefetcherGet fs p) = outcome (storageGet fs p) := by
  unfold prefetcherGet
  cases h : fs p.fileNumber with
  | some recs => rfl
  | none => simp [storageGet, h, outcome, corruption]

theorem outcome_iteratorValue (fs : Files K) (e : Option Stored) :
    outcome (iteratorValue fs (entryResult e)) = outcome (follow fs (Stored.found e)) := by
  cases e with
  | none => rfl
  | some e =>
    cases e with
    | value v => rfl
    | tombstone => rfl
    | index b =>
      have hdecode : decodeInto BlobIndex.decodeFrom b.encodeTo false = .ok b.normal := by
        simp [decodeInto]
      simp only [entryResult, iteratorValue, getBlobValue, hdecode, BlobIndex.ptr_normal,
        outcome_prefetcherGet, Stored.found, follow]

theorem outcome_iterateAt {s : State K} (hs : Ordered s) (snapshot : Nat) (k : K) :
    outcome (iterateAt s snapshot k) = outcome (follow s.present (Stored.found
      (visible snapshot (s.mem k)
        ++ visible snapshot ((s.imm.map (· k)).flatten ++ s.ssts k)).head?)) := by
  rw [iterateAt, mergingIterator_of_ordered hs, findUserEntry_rows, outcome_iteratorValue,
    State.history, visible_append]

/-! ## Where the two agree -/

/-- A write-back that the snapshot sees on top of the active memtable lies above
nothing that `pending_check` takes in its place. -/
def IteratorAgrees (s : State K) (snapshot : Nat) (k : K) : Prop :=
  match visible snapshot (s.mem k) with
  | .index b :: .value v :: _ => b.oldFileNumber = 0 ∨ storageGet s.present b.ptr = .ok v
  | .index b :: .tombstone :: _ => b.oldFileNumber = 0
  | _ => True

/-- In every state that the system reaches, at every snapshot and for every key. -/
theorem get_eq_iterator_iff [DecidableEq K] {minBlobSize : Nat} {s : State K}
    (hrun : ReflTransGen (SomeStep minBlobSize) init s) (snapshot : Nat) (k : K) :
    outcome (s.getAt snapshot k) = outcome (iterateAt s snapshot k)
      ↔ IteratorAgrees s snapshot k := by
  rw [getAt_eq, outcome_iterateAt (ordered_of_run hrun), IteratorAgrees]
  generalize visible snapshot ((s.imm.map (· k)).flatten ++ s.ssts k) = older
  cases visible snapshot (s.mem k) with
  | nil => simp [memVisible]
  | cons e rest =>
    cases e with
    | value v => simp [memVisible]
    | tombstone => simp [memVisible]
    | index b =>
      by_cases hb : b.oldFileNumber = 0
      · have hv : memVisible (.index b :: rest) = some (.index b) := by simp [memVisible, hb]
        rw [hv]
        cases rest with
        | nil => simp
        | cons c rest => cases c <;> simp [hb]
      · cases rest with
        | nil => simp [memVisible, hb]
        | cons c rest =>
          cases c with
          | index c => simp [memVisible, hb]
          | value v =>
            have hv : memVisible (.index b :: .value v :: rest) = some (.value v) := by
              simp [memVisible, hb]
            show outcome (follow s.present (Stored.found ((memVisible _).or _)))
              = outcome (storageGet s.present b.ptr) ↔ _
            rw [hv, eq_comm]
            refine outcome_eq_value_iff.trans ?_
            simp [hb]
          | tombstone =>
            have hv : memVisible (.index b :: .tombstone :: rest) = some .tombstone := by
              simp [memVisible, hb]
            show outcome (follow s.present (Stored.found ((memVisible _).or _)))
              = outcome (storageGet s.present b.ptr) ↔ _
            rw [hv]
            simp only [hb, iff_false]
            exact (outcome_storageGet_ne_absent s.present b.ptr).symm

/-! ## One job on one key -/

open LastWrite (moved)
open Deletes (copied run_copied)

theorem run_copied_some : ReflTransGen (SomeStep 1) init copied := by
  refine ReflTransGen.mono ?_ _ _ run_copied
  intro s t h
  obtain ⟨a, h, -⟩ := h
  exact ⟨a, h⟩

/-- Before the write-back both read the record of file 1. -/
theorem get_eq_iterator_copied :
    outcome (copied.getAt 1 0) = outcome (iterateAt copied 1 0) :=
  (get_eq_iterator_iff run_copied_some 1 0).mpr trivial

/-- Key 0 is written again while its record is copied, and the write-back lands above
the new value: `Get` returns the new value, the iterator the old one. -/
theorem iterator_reads_stale :
    ∃ s : State Nat, ReflTransGen (SomeStep 1) init s ∧ s.getAt 3 0 = .ok [2] ∧
      iterateAt s 3 0 = .ok [1, 1] := by
  let again : State Nat := { copied.push 0 (.value [2]) with
    lastOp := update copied.lastOp 0 (some (.put [2])) }
  let back : State Nat := { again.push 0 (.index moved) with
    jobs := update again.jobs 0 (some ⟨[1], .writing 2 []⟩) }
  have hput : SomeStep 1 copied again := ⟨_, .put _ 0 [2]⟩
  have hback : SomeStep 1 again back := ⟨_, .writeBack again 0 [1] 2 0 moved [] rfl⟩
  have hrun : ReflTransGen (SomeStep 1) init back := (run_copied_some.tail hput).tail hback
  refine ⟨back, hrun, ?_, ?_⟩
  · rw [getAt_eq]
    rfl
  · rw [iterateAt, mergingIterator_of_ordered (ordered_of_run hrun), findUserEntry_rows]
    rfl

end TitanGC.Offload.IteratorReads
