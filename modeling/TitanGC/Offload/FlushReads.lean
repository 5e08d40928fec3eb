import TitanGC.Offload.Tombstones

/-!
# Reading a memtable and flushing it

`MemTable::Get` with `pending_check` and `Preprocess` resolve the versions of a
key separately: the read looks at most one version below a write-back and never
compares locations; the flush folds over all versions and lets an inline value
win over every newer index. `FlushAgrees` is the list of shapes on which the two
find the same value or the same record.
-/

namespace TitanGC.Offload.FlushReads

open Format.BlobFormat
open Compaction.Iterator (preprocess)
open Compaction.Merge (loc)
open Reads (BaseResult getImpl)
open Tombstones

/-- `DBImpl::GetImpl` when all versions are in the active memtable. -/
def memtableRead (es : List Versioned) : BaseResult := getImpl (es.map fun e => e.2.row) [] []

/-- The same read when the memtable has been flushed through `Preprocess`. -/
def flushedRead {K : Type} [DecidableEq K] (k : K) (es : List Versioned) : BaseResult :=
  getImpl [] [] ((preprocess (es.map (kv k))).map fun e => (e.key.type, e.value))

/-- No inline value lies below a plain index on top. Below a write-back on top
there is nothing, or an inline value, or an index that the write-back has moved
(or that is at its own location) with no inline value below it. -/
def FlushAgrees : List Versioned → Prop
  | (_, .index p) :: rest =>
    if p.oldFileNumber = 0 then firstValue rest = none
    else match rest with
      | (_, .index c) :: older =>
        firstValue older = none ∧
          ((p.oldFileNumber, p.oldBlobHandle.offset) = loc c.ptr ∨ c.ptr = p.ptr)
      | (_, .tombstone) :: _ => False
      | _ => True
  | _ => True

theorem found_memtableRead (es : List Versioned) :
    found (memtableRead es) = Stored.found (memVisible (es.map (·.2))) := by
  have h := getImpl_stored (es.map (·.2)) [] []
  rw [List.map_map] at h
  rw [memtableRead]
  exact h.trans (by simp)

theorem found_flushedRead {K : Type} [DecidableEq K] (k : K) (es : List Versioned) :
    found (flushedRead k es) = Stored.found ((merge es).map (·.2)) := by
  have hrows : ((merge es).toList.map (kv k)).map (fun e => (e.key.type, e.value))
      = ((merge es).map (·.2)).toList.map Stored.row := by
    cases merge es <;> rfl
  have h := getImpl_stored [] [] ((merge es).map (·.2)).toList
  rw [flushedRead, preprocess_kv, hrows]
  refine h.trans ?_
  cases merge es <;> rfl

/-- Folding over what lies below a plain index finds the index again exactly if
there is no inline value. -/
theorem found_below_plain {p : BlobIndex} (hp : p.oldFileNumber = 0) (n : Nat)
    (es : List Versioned) (q : BlobPtr) :
    Except.ok (Found.record q) = Stored.found (some (es.foldl absorb (n, .index p)).2)
      ↔ firstValue es = none ∧ p.ptr = q := by
  rw [foldl_absorb_plain hp]
  cases firstValue es with
  | none => simp [Stored.found, eq_comm]
  | some mv => simp [Stored.found]

theorem notFound_below_plain {p : BlobIndex} (hp : p.oldFileNumber = 0) (n : Nat)
    (es : List Versioned) :
    Stored.found (some (es.foldl absorb (n, .index p)).2) ≠ .error notFound := by
  rw [foldl_absorb_plain hp]
  cases firstValue es <;> simp [Stored.found]

theorem settled_eq_iff (p c : BlobIndex) :
    settled p c = p.ptr ↔
      (p.oldFileNumber, p.oldBlobHandle.offset) = loc c.ptr ∨ c.ptr = p.ptr := by
  unfold settled
  split <;> simp_all

/-- For every list of versions of one key, newest first, reading the memtable and
reading what the flush of it keeps find the same exactly on these shapes. -/
theorem memtable_read_eq_flushed_iff {K : Type} [DecidableEq K] (k : K) (es : List Versioned) :
    found (memtableRead es) = found (flushedRead k es) ↔ FlushAgrees es := by
  rw [found_memtableRead, found_flushedRead]
  cases es with
  | nil => simp [FlushAgrees, memVisible, merge]
  | cons e rest =>
    obtain ⟨n, e⟩ := e
    simp only [merge, Option.map_some]
    cases e with
    | value v => simp [foldl_absorb_value, FlushAgrees, memVisible]
    | tombstone => simp [foldl_absorb_tombstone, FlushAgrees, memVisible]
    | index p =>
      by_cases hp : p.oldFileNumber = 0
      · have hv : memVisible ((n, Stored.index p) :: rest |>.map (·.2)) = some (.index p) := by
          simp [memVisible, hp]
        rw [hv]
        refine (found_below_plain hp n rest p.ptr).trans ?_
        simp [FlushAgrees, hp]
      · cases rest with
        | nil => simp [FlushAgrees, memVisible, hp]
        | cons c older =>
          obtain ⟨m, c⟩ := c
          rw [List.foldl_cons]
          cases c with
          | value v =>
            have habs : absorb (n, .index p) (m, .value v) = (m, .value v) := rfl
            simp [habs, foldl_absorb_value, FlushAgrees, memVisible, hp]
          | index c =>
            have hv : memVisible ((n, Stored.index p) :: (m, .index c) :: older
                |>.map (·.2)) = some (.index p) := by
              simp [memVisible, hp]
            rw [hv, absorb_writeBack_index hp]
            refine (found_below_plain rfl n older p.ptr).trans ?_
            rw [BlobPtr.ptr_plain, settled_eq_iff]
            simp [FlushAgrees, hp]
          | tombstone =>
            have hv : memVisible ((n, Stored.index p) :: (m, .tombstone) :: older
                |>.map (·.2)) = some .tombstone := by
              simp [memVisible, hp]
            rw [hv, absorb_writeBack_tombstone hp]
            have hne := notFound_below_plain (p := BlobPtr.plain {}) rfl n older
            simp only [FlushAgrees, hp, ↓reduceIte, iff_false]
            exact fun h => hne h.symm

def movedIndex : BlobIndex := ⟨2, ⟨12, 14, 0⟩, 1, ⟨12, 14, 0⟩⟩

/-- The key was deleted and its record written back above the tombstone: the
memtable reads NotFound, its flush leaves an index of file 0. -/
theorem flush_revives_tombstone :
    found (memtableRead [(3, .index movedIndex), (2, .tombstone)]) = .error notFound ∧
      found (flushedRead 0 [(3, .index movedIndex), (2, .tombstone)]) = .ok (.record {}) := by
  constructor
  · rw [found_memtableRead]
    rfl
  · rw [found_flushedRead]
    rfl

end TitanGC.Offload.FlushReads
