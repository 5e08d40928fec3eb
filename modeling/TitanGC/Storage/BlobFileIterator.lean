import TitanGC.Lib.Draining
import TitanGC.Storage.BlobFileBuilder

/-!
# Iterating over blob files

`BlobFileIterator`, on a file whose reads may fail, and `BlobFileMergeIterator`, which
merges several of them. Prefetching does not change what is read and is left out.
-/

namespace TitanGC.Storage.Iterator

open Lib.ByteCoding Lib.Memory Lib.Draining List Format.Coding Format.BlobFormat Format.BlobFile
open Storage.Builder

/-- `Read` of an open file: at most so many bytes from an offset, or a failure. -/
abbrev RandomAccessFile := Nat → Nat → Except Status Bytes

def RandomAccessFile.ofBytes (file : Bytes) : RandomAccessFile :=
  fun offset n => .ok ((file.drop offset).take n)

def sub64 (a b : Nat) : Nat := (a + 2 ^ 64 - b) % 2 ^ 64

/-- What an iterator finds outside its file: the compression library, with a dictionary
that is empty if there is none; `InitUncompressionDict`; and memory it does not write. -/
structure Env where
  compression : Bytes → Compression
  initUncompressionDict : BlobFileFooter → RandomAccessFile → Except Status Bytes
  beyond : Mem
  uninitialized : Bool

structure BlobFileIterator where
  file : RandomAccessFile
  fileNumber : UInt64
  fileSize : Nat
  fileEntries : Nat := 2 ^ 64 - 1
  bitmap : BitMap
  init : Bool := false
  endOfBlobRecord : Nat := 0
  status : Option Status := none
  valid : Bool := false
  uncompressionDict : Bytes := []
  iterateOffset : Nat := 0
  iterateIndex : Nat := 0
  curBlobRecord : BlobRecord := ⟨[], []⟩
  curRecordOffset : Nat := 0
  curRecordSize : Nat := 0
  headerSize : Nat := 0
  curRecordIndex : Nat := 0

def kBlockTrailerSize : Nat := 5

namespace BlobFileIterator

/-- The handle of the meta index, which a footer that does not decode may still have. -/
def metaIndexHandle (footer : Bytes) : BlockHandle :=
  match BlockHandle.decodeFrom footer with
  | .ok (handle, _) => handle
  | .error _ => {}

/-- The status `Init` keeps of a footer: `SeekToFirst` resets it. -/
def footerStatus (footer : Bytes) : Option Status :=
  match BlobFileFooter.decodeFrom footer with
  | .ok _ => none
  | .error e => some e

def recordsEnd (fileSize : Nat) (handle : BlockHandle) : Nat :=
  let endOfBlobRecord := sub64 fileSize kBlobFooterSize
  if handle = ({} : BlockHandle) then endOfBlobRecord
  else sub64 endOfBlobRecord (handle.size.toNat + kBlockTrailerSize)

/-- The last part of `Init`, with the footer read. -/
def initRecords (env : Env) (it : BlobFileIterator) (header : BlobFileHeader) (footer : Bytes) :
    Bool × BlobFileIterator :=
  let handle := metaIndexHandle footer
  let endOfBlobRecord := recordsEnd it.fileSize handle
  let it := { it with status := footerStatus footer, endOfBlobRecord, headerSize := header.size }
  if header.flags &&& kHasUncompressionDictionary ≠ 0 then
    match env.initUncompressionDict ⟨handle⟩ it.file with
    | .error e => (false, { it with status := some e })
    | .ok dict => (true, { it with
        status := none
        uncompressionDict := dict
        endOfBlobRecord := sub64 endOfBlobRecord (dict.length + kBlockTrailerSize)
        init := true })
  else (true, { it with init := true })

def doInit (env : Env) (it : BlobFileIterator) : Bool × BlobFileIterator :=
  match it.file 0 12 with
  | .error e => (false, { it with status := some e })
  | .ok slice =>
    match decodeInto BlobFileHeader.decodeFrom slice true with
    | .error e => (false, { it with status := some e })
    | .ok header =>
      match it.file (sub64 it.fileSize kBlobFooterSize) kBlobFooterSize with
      | .error e => (false, { it with status := some e, headerSize := header.size })
      | .ok footer => it.initRecords env header footer

/-- The record at an offset, with its size: what `GetBlobRecord` reads and decodes. -/
def readRecord (env : Env) (it : BlobFileIterator) (offset : Nat) : Except Status (BlobRecord × Nat) :=
  match it.file offset kRecordHeaderSize with
  | .error e => .error e
  | .ok header =>
    match decodeHeader header with
    | .error e => .error e
    | .ok (decoder, _) =>
      match it.file (offset + kRecordHeaderSize) decoder.recordSize.toNat with
      | .error e => .error e
      | .ok slice =>
        match decoder.decodeRecord (env.compression it.uncompressionDict) env.beyond slice with
        | .error e => .error e
        | .ok record => .ok (record, kRecordHeaderSize + decoder.recordSize.toNat)

def getBlobRecord (env : Env) (it : BlobFileIterator) : BlobFileIterator :=
  match it.readRecord env it.iterateOffset with
  | .error e => { it with status := some e }
  | .ok (record, size) => { it with
      status := none
      curBlobRecord := record
      curRecordOffset := it.iterateOffset
      curRecordSize := size
      curRecordIndex := it.iterateIndex
      iterateIndex := it.iterateIndex + 1
      iterateOffset := it.iterateOffset + size
      valid := true }

def prefetchAndGet (env : Env) (it : BlobFileIterator) : BlobFileIterator :=
  if it.endOfBlobRecord ≤ it.iterateOffset ∨ it.fileEntries ≤ it.iterateIndex then
    { it with valid := false }
  else it.getBlobRecord env

/-- Where `SeekToFirst` starts; the index of the record is not reset. -/
def rewind (it : BlobFileIterator) : BlobFileIterator :=
  { it with status := none, iterateOffset := it.headerSize }

def seekToFirst (env : Env) (it : BlobFileIterator) : BlobFileIterator :=
  if it.init then it.rewind.prefetchAndGet env
  else
    let (ok, it) := it.doInit env
    if ok then it.rewind.prefetchAndGet env else it

def next (env : Env) (it : BlobFileIterator) : BlobFileIterator := it.prefetchAndGet env

def isValid (it : BlobFileIterator) : Bool := it.valid && it.status.isNone

def getBlobIndex (it : BlobFileIterator) : BlobIndex where
  fileNumber := it.fileNumber
  blobHandle := ⟨UInt64.ofNat it.curRecordOffset, UInt64.ofNat it.curRecordSize,
    UInt64.ofNat it.curRecordIndex⟩

/-- A bit out of range leaves the result uninitialized. -/
def validateByBitMap (env : Env) (it : BlobFileIterator) : Bool :=
  match it.bitmap.getBit it.curRecordIndex with
  | .ok bit => !bit
  | .error _ => env.uninitialized

end BlobFileIterator

/-- What a caller reads off a valid iterator. -/
structure Entry where
  record : BlobRecord
  index : BlobIndex
  validByBitMap : Bool

def BlobFileIterator.entry (env : Env) (it : BlobFileIterator) : Entry :=
  ⟨it.curBlobRecord, it.getBlobIndex, it.validateByBitMap env⟩

/-- The iterator as a source of entries. -/
def BlobFileIterator.source (env : Env) : Source BlobFileIterator Entry where
  item it := if it.isValid then some (it.entry env) else none
  next it := it.next env

/-! ## The merge -/

/-- The comparator of the heap: the key of one iterator is greater than that of another. -/
def KeyAfter (compare : Bytes → Bytes → Ordering) (a b : BlobFileIterator) : Prop :=
  compare a.curBlobRecord.key b.curBlobRecord.key = .gt

structure BlobFileMergeIterator where
  status : Option Status := none
  blobFileIterators : List BlobFileIterator
  minHeap : List BlobFileIterator := []
  current : Option BlobFileIterator := none

variable {mi : BlobFileMergeIterator} {m : Merging BlobFileIterator} {its : List BlobFileIterator}
    {ls : List (List Entry)}

namespace BlobFileMergeIterator

variable {compare : Bytes → Bytes → Ordering} (env : Env)
  (heap : PriorityQueue BlobFileIterator (KeyAfter compare))

def push (it : BlobFileIterator) (minHeap : List BlobFileIterator) : List BlobFileIterator :=
  if it.isValid then it :: minHeap else minHeap

def seekToFirst (mi : BlobFileMergeIterator) : BlobFileMergeIterator :=
  let its := mi.blobFileIterators.map (·.seekToFirst env)
  let minHeap := its.foldr push mi.minHeap
  match heap.pop minHeap with
  | none => { mi with
      blobFileIterators := its
      minHeap := []
      status := some ⟨.aborted, "No iterator is valid"⟩ }
  | some (it, rest) => { mi with blobFileIterators := its, minHeap := rest, current := some it }

/-- An iterator that has failed is not pushed again. -/
def next (mi : BlobFileMergeIterator) : BlobFileMergeIterator :=
  match mi.current with
  | none => mi
  | some it =>
    match heap.pop (push (it.next env) mi.minHeap) with
    | none => { mi with current := none, minHeap := [] }
    | some (it, rest) => { mi with current := some it, minHeap := rest }

/-- `status()`: the failure of the current iterator comes first. -/
def getStatus (mi : BlobFileMergeIterator) : Option Status :=
  (mi.current.bind (·.status)).or mi.status

def item (mi : BlobFileMergeIterator) : Option Entry :=
  match mi.current with
  | none => none
  | some it => if mi.getStatus.isNone ∧ it.isValid then some (it.entry env) else none

def source : Source BlobFileMergeIterator Entry where
  item mi := mi.item env
  next mi := mi.next env heap

/-! ## Draining the merge -/

structure Shows (mi : BlobFileMergeIterator) (m : Merging BlobFileIterator) : Prop where
  current : mi.current = m.current
  minHeap : mi.minHeap = m.queue
  status : mi.status = none

theorem source_item_isSome (it : BlobFileIterator) :
    ((BlobFileIterator.source env).item it).isSome = it.isValid := by
  unfold BlobFileIterator.source
  dsimp only
  cases it.isValid <;> rfl

variable {env} in
theorem Shows.item_eq (h : Shows mi m) :
    mi.item env = (Merging.source (BlobFileIterator.source env) heap).item m := by
  simp only [item, getStatus, Merging.source, h.current, h.status]
  cases m.current with
  | none => rfl
  | some it =>
    cases hstatus : it.status <;>
      simp [BlobFileIterator.source, BlobFileIterator.isValid, hstatus]

variable {env heap} in
theorem Shows.next (h : Shows mi m) :
    Shows (mi.next env heap) (m.advance (BlobFileIterator.source env) heap) := by
  rw [BlobFileMergeIterator.next, Merging.advance, h.current]
  cases hcurrent : m.current with
  | none => exact ⟨by rw [h.current, hcurrent], h.minHeap, h.status⟩
  | some it =>
    have hstep : (BlobFileIterator.source env).next it = it.next env := rfl
    dsimp only
    rw [source_item_isSome, hstep, push, ← h.minHeap, Merging.select]
    cases heap.pop (if (it.next env).isValid then it.next env :: mi.minHeap else mi.minHeap) with
    | none => exact ⟨rfl, rfl, h.status⟩
    | some popped => exact ⟨rfl, rfl, h.status⟩

/-- The iterators that are valid after `SeekToFirst` wait in the heap. -/
theorem foldr_push_waiting (h : List.Forall₂ (BlobFileIterator.source env).Yields its ls) :
    (BlobFileIterator.source env).Waiting (its.foldr push []) (ls.filter (!·.isEmpty)) := by
  induction h with
  | nil => exact .nil
  | cons hhead _ ih =>
    have hjoin := hhead.join ih
    rwa [source_item_isSome, ← filter_append] at hjoin

/-- The merge yields what its iterators yield. If that is nothing it has failed instead. -/
theorem seekToFirst_yields
    (h : List.Forall₂ (fun it => (BlobFileIterator.source env).Yields (it.seekToFirst env)) its ls) :
    ∃ l, Merged (BlobFileIterator.source env) (KeyAfter compare) ls l ∧
      (source env heap).Yields (seekToFirst env heap { blobFileIterators := its }) l ∧
      ((seekToFirst env heap { blobFileIterators := its }).status =
        if l = [] then some ⟨.aborted, "No iterator is valid"⟩ else none) := by
  have hwaits := foldr_push_waiting env (forall₂_map_left_iff.mpr h)
  obtain ⟨l, hmerged, hyields⟩ := Merging.select_yields heap hwaits
  have hall : Merged (BlobFileIterator.source env) (KeyAfter compare) (ls ++ []) l :=
    Merged.of_filter (by rwa [append_nil])
  rw [append_nil] at hall
  refine ⟨l, hall, ?_⟩
  rw [Merging.select] at hyields
  rw [seekToFirst]
  dsimp only
  cases hpop : heap.pop ((its.map (·.seekToFirst env)).foldr push []) with
  | none =>
    rw [hpop] at hyields
    cases hyields with
    | done _ => exact ⟨.done rfl, rfl⟩
    | more hitem _ => exact absurd hitem (by simp [Merging.source])
  | some popped =>
    rw [hpop] at hyields
    refine ⟨hyields.of_simulation (R := Shows) (Shows.item_eq heap) Shows.next ⟨rfl, rfl, rfl⟩, ?_⟩
    -- what was popped is valid, so there is a first entry
    have hne : l ≠ [] := by
      rintro rfl
      have hlen := hmerged.perm.length_eq
      generalize ls.filter (!·.isEmpty) = ls' at hwaits hlen
      cases hqueue : (its.map (·.seekToFirst env)).foldr push [] with
      | nil => rw [hqueue, heap.pop_nil] at hpop; cases hpop
      | cons it rest =>
        rw [hqueue] at hwaits
        cases hwaits with
        | cons hhead _ =>
          rw [flatten_cons, length_append, length_nil] at hlen
          exact hhead.2 (length_eq_zero_iff.mp (by omega))
    rw [if_neg hne]

end BlobFileMergeIterator

end TitanGC.Storage.Iterator
