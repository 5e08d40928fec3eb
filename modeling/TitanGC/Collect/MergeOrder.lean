import TitanGC.Collect.ReadAll

/-!
# The order of the merge

Over files that are opened and read without a failure, each sorted by its keys, the merge
iterator yields every record once and in the order of the keys. Records of one file stay
in the order of the file, also where their keys are equal.
-/

namespace TitanGC.Collect.MergeOrder

open Lib.ByteCoding Lib.Draining List Storage.Iterator Run FaultyInputs ReadAll

section

variable {env : Env} {compare : Bytes → Bytes → Ordering}

def KeyLE (compare : Bytes → Bytes → Ordering) (x y : Entry) : Prop :=
  (compare x.record.key y.record.key).isLE

/-- A file that is opened and read without a failure, its records sorted by their keys. -/
structure IntactFile (env : Env) (compare : Bytes → Bytes → Ordering) extends Input env where
  reader : RandomAccessFile
  isOpened : file.opened = .ok reader
  complete : toInput.ReadsCompletely
  sorted : toInput.entries.Pairwise (KeyLE compare)

def IntactFile.iterator (f : IntactFile env compare) : BlobFileIterator := f.file.iterator f.reader

theorem IntactFile.yields (f : IntactFile env compare) :
    (BlobFileIterator.source env).Yields (f.iterator.seekToFirst env) f.entries := by
  have hyields := f.seekToFirst_yields f.isOpened
  rwa [f.entries_of_length_eq ((f.yields_eq_iff f.isOpened).mpr (.inr f.complete))] at hyields

/-- What the heap compares are the keys of the current entries. -/
theorem keyLE_of_not_after {s t : BlobFileIterator} {x y : Entry}
    (hs : (BlobFileIterator.source env).item s = some x)
    (ht : (BlobFileIterator.source env).item t = some y) (h : ¬ KeyAfter compare s t) :
    KeyLE compare x y := by
  have hrecord : ∀ {it : BlobFileIterator} {x : Entry},
      (BlobFileIterator.source env).item it = some x → x.record = it.curBlobRecord := by
    intro it x hit
    unfold BlobFileIterator.source at hit
    dsimp only at hit
    split at hit
    · cases hit
      rfl
    · cases hit
  rw [KeyLE, hrecord hs, hrecord ht]
  exact Ordering.isLE_iff_ne_gt.mpr h

/-- For every list of such files that have a record among them, the merge iterator yields
until it is invalid every entry of every file once, with the index and the bit that its
file has for it, in the order of the keys and of each file. -/
theorem merge_iterator_merges [Std.TransCmp compare]
    (heap : PriorityQueue BlobFileIterator (KeyAfter compare)) (files : List (IntactFile env compare))
    (hrecords : files.flatMap (·.entries) ≠ []) :
    (BlobFileMergeIterator.seekToFirst env heap
        { blobFileIterators := files.map IntactFile.iterator }).status = none ∧
      ∃ l, (BlobFileMergeIterator.source env heap).Yields (BlobFileMergeIterator.seekToFirst env heap
        { blobFileIterators := files.map IntactFile.iterator }) l ∧
      l.Perm (files.flatMap (·.entries)) ∧ (∀ f ∈ files, f.entries.Sublist l) ∧
      l.Pairwise (KeyLE compare) := by
  have hyield : List.Forall₂ (fun it => (BlobFileIterator.source env).Yields (it.seekToFirst env))
      (files.map IntactFile.iterator) (files.map (·.entries)) := by
    rw [forall₂_map_left_iff, forall₂_map_right_iff, forall₂_same]
    exact fun f _ => f.yields
  obtain ⟨l, hmerged, hyields, hstatus⟩ := BlobFileMergeIterator.seekToFirst_yields env heap hyield
  have hperm : l.Perm (files.flatMap (·.entries)) := hmerged.perm
  have hne : l ≠ [] := fun hnil => hrecords (nil_perm.mp (hnil ▸ hperm))
  refine ⟨hstatus.trans (if_neg hne), l, hyields, hperm, forall_mem_map.mp hmerged.sublist, ?_⟩
  exact hmerged.sorted (KeyLE compare) (fun _ _ _ => Std.TransCmp.isLE_trans)
    (fun _ _ _ _ => keyLE_of_not_after) (forall_mem_map.mpr fun f _ => f.sorted)

end

/-! ## Files that the builder wrote -/

open Format.BlobFile Storage.Builder Storage.IntactFiles

theorem laid_reads {stored : RecordReader} {finish offset : Nat} {rs : List (BlobRecord × Nat)}
    (h : Laid stored finish offset rs) {position : Nat} (hmem : position ∈ offsetsFrom offset rs) :
    position < finish ∧ ∃ x, stored position = .ok x := by
  induction h with
  | nil => exact absurd hmem not_mem_nil
  | @cons offset size r rs hread hsize hrest ih =>
    rcases mem_cons.mp hmem with rfl | hmem
    · have hle := hrest.le
      rw [kRecordHeaderSize] at hsize
      exact ⟨by omega, _, hread⟩
    · exact ih hmem

/-- An uncompressed file of the builder whose reads succeed is read completely. -/
theorem plainInput_complete (env : Env) {f : GcFile} (hf : Fits f.file) :
    (plainInput env f hf fun _ _ => none).ReadsCompletely := by
  refine ⟨_, _, rfl, doInit_of_reads env hf rfl rfl (ofBytes_footer f.file), fun offset hoffset => ?_⟩
  obtain ⟨hlt, x, hx⟩ := laid_reads (plainContents env f hf).laid hoffset
  exact ⟨hlt, x, hx⟩

/-- A heap that sorts its iterators. -/
def sortingHeap (compare : Bytes → Bytes → Ordering) [Std.TransCmp compare] :
    PriorityQueue BlobFileIterator (KeyAfter compare) :=
  (PriorityQueue.sorting (fun a b => (compare a.curBlobRecord.key b.curBlobRecord.key).isLE)
    (fun _ _ _ => Std.TransCmp.isLE_trans) fun a b => by
      have hswap : compare b.curBlobRecord.key a.curBlobRecord.key =
        (compare a.curBlobRecord.key b.curBlobRecord.key).swap := Std.OrientedCmp.eq_swap
      rw [hswap]
      cases compare a.curBlobRecord.key b.curBlobRecord.key <;> rfl).congr
    fun a b hafter => by
      change compare _ _ = _ at hafter
      rw [hafter]
      rfl

def twoRecords : IntactFile plainEnv (compareOn List.length) where
  toInput := plainInput plainEnv twoRecordFile twoRecordFile_fits fun _ _ => none
  reader := failing (fun _ _ => none) (.ofBytes twoRecordFile.file.image)
  isOpened := rfl
  complete := plainInput_complete plainEnv twoRecordFile_fits
  sorted := pairwise_pair.mpr rfl

theorem merge_iterator_merges_twoRecords :
    ∃ l, (BlobFileMergeIterator.source plainEnv (sortingHeap (compareOn List.length))).Yields
      (BlobFileMergeIterator.seekToFirst plainEnv (sortingHeap (compareOn List.length))
        { blobFileIterators := [twoRecords, twoRecords].map IntactFile.iterator }) l ∧
      l.Pairwise (KeyLE (compareOn List.length)) := by
  obtain ⟨-, l, hyields, -, -, hsorted⟩ :=
    merge_iterator_merges (sortingHeap (compareOn List.length)) [twoRecords, twoRecords] (cons_ne_nil _ _)
  exact ⟨l, hyields, hsorted⟩

end TitanGC.Collect.MergeOrder
