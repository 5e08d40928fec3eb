import TitanGC.Kernel.Readback
import TitanGC.Scheduling.Picker
import TitanGC.Storage.Placement
import TitanGC.Table.Handles

/-!
# The driver of the device

`run_gc_kernel` of `hadware_gc_driver.cc`: the transfer of the input files to the device,
the sizes of the output buffers, and what `DoRunGCOnHardware` makes of the tuples it gets.
Every size is rounded to whole MiB, the transfer goes in chunks of 128 MiB, and the tuples
are 32 bits wide; the kernel checks none of it.
-/

namespace TitanGC.Kernel.Driver

open Lib Lib.ByteCoding Lib.Memory List Format.Coding Format.BlobFormat Format.BlobFile
open Storage.Builder hiding BlobFileBuilder
open Storage.Writer Storage.Placement
open Format.InternalKey (appendInternalKey kTypeValue)
open Table.Builder (TitanTableBuilder TableOptions)
open Table.Handles (separateOptions footerFails start)
open Scheduling.Picker (pickBlobGC)
open FileFormat GcKernel Readback

/-- To the next MiB, also from a multiple of it. -/
@[irreducible] def roundUp (size : Nat) : Nat := ((size >>> 20) + 1) <<< 20

theorem roundUp_eq (size : Nat) : roundUp size = (size / 2 ^ 20 + 1) * 2 ^ 20 := by
  have hmib := Nat.shiftRight_eq_div_pow size 20
  unfold roundUp
  exact (Nat.shiftLeft_eq _ 20).trans (congrArg (fun mib => (mib + 1) * 2 ^ 20) hmib)

/-! ## Loading the input files -/

@[irreducible] def bufSize : Nat := 128 * 1024 * 1024

theorem bufSize_eq : bufSize = 2 ^ 27 := by
  unfold bufSize
  norm_num

/-- `pread`, which returns less than it is asked for at the end of the file only. -/
def pread (file : Bytes) (count offset : Nat) : Bytes := (file.drop offset).take count

/-- The chunks of a file that are to go; `none` is the exit after a read of no bytes. -/
def readChunks (file : Bytes) : Nat → Nat → Nat → Mem → Option Mem
  | 0, _, _, m => some m
  | n + 1, p2pPtr, readOffset, m =>
    let data := pread file bufSize readOffset
    if data.length = 0 then none
    else readChunks file n (p2pPtr + bufSize) (readOffset + data.length) (write m p2pPtr data)

/-- The loop over the chunks of a file; their number is that of the rounded size. -/
@[irreducible] def readFile (file : Bytes) (inputOffset : Nat) (m : Mem) : Option Mem :=
  readChunks file (roundUp file.length / bufSize + 1) inputOffset 0 m

/-- The loop over the files: the rounded size is what the kernel gets as data length. -/
def loadFiles : List Bytes → Nat → Mem → Option Mem
  | [], _, m => some m
  | file :: files, inputOffset, m =>
    (readFile file inputOffset m).bind (loadFiles files (inputOffset + roundUp file.length))

/-- Each file stands whole where the kernel looks for it. -/
def InPlace (m : Mem) : Nat → List Bytes → Prop
  | _, [] => True
  | inputOffset, file :: files => HasAt m inputOffset file ∧
      InPlace m (inputOffset + roundUp file.length) files

/-- The last chunk is there, and the rounded size does not ask for another. -/
def Chunked (size : Nat) : Prop := 0 < size % bufSize ∧ size % bufSize < 127 * 2 ^ 20

instance (size : Nat) : Decidable (Chunked size) := inferInstanceAs (Decidable (_ ∧ _))

/-- All reads but the last are full, so the chunks are one write. -/
theorem readChunks_eq (file : Bytes) (n p2pPtr : Nat) {readOffset : Nat} (hle : readOffset ≤ file.length)
    (m : Mem) :
    readChunks file n p2pPtr readOffset m =
      if n * bufSize < file.length - readOffset + bufSize then
        some (write m p2pPtr ((file.drop readOffset).take (n * bufSize)))
      else none := by
  induction n generalizing p2pPtr readOffset m with
  | zero => simp [readChunks, bufSize_eq, write]
  | succ n ih =>
    have hlen : (pread file bufSize readOffset).length = min bufSize (file.length - readOffset) := by
      rw [pread, length_take, length_drop]
    have hbuf := bufSize_eq
    rw [readChunks]
    by_cases hend : file.length = readOffset
    · rw [if_pos (by omega), if_neg (by rw [Nat.succ_mul]; omega)]
    rw [if_neg (by omega), ih _ (by omega)]
    by_cases hfull : bufSize ≤ file.length - readOffset
    · have hbytes : (file.drop readOffset).take ((n + 1) * bufSize) = pread file bufSize readOffset ++
          (file.drop (readOffset + bufSize)).take (n * bufSize) := by
        rw [pread, ← drop_drop, Nat.succ_mul, Nat.add_comm, take_add]
      rw [hlen, min_eq_left hfull, hbytes, write_append, hlen, min_eq_left hfull]
      exact if_congr (by rw [Nat.succ_mul]; omega) rfl rfl
    · rw [hlen, min_eq_right (by omega)]
      cases n with
      | zero => rw [if_pos (by omega), if_pos (by omega), Nat.zero_mul, take_zero, write, Nat.zero_add,
          Nat.one_mul, pread]
      | succ n => rw [if_neg (by rw [Nat.succ_mul]; omega),
          if_neg (by rw [Nat.succ_mul, Nat.succ_mul]; omega)]

theorem readFile_eq (file : Bytes) (inputOffset : Nat) (m : Mem) :
    readFile file inputOffset m = if Chunked file.length then some (write m inputOffset file) else none := by
  have hround := roundUp_eq file.length
  have hbuf := bufSize_eq
  have htake : (file.drop 0).take ((roundUp file.length / bufSize + 1) * bufSize) = file := by
    rw [drop_zero]
    exact take_of_length_le (by rw [hbuf]; omega)
  rw [readFile, readChunks_eq file _ inputOffset (Nat.zero_le _), htake]
  refine if_congr ?_ rfl rfl
  rw [Chunked, hbuf]
  omega

theorem loadFiles_cons (file : Bytes) (files : List Bytes) (inputOffset : Nat) (m : Mem) :
    loadFiles (file :: files) inputOffset m =
      if Chunked file.length then loadFiles files (inputOffset + roundUp file.length)
        (write m inputOffset file)
      else none := by
  by_cases h : Chunked file.length
  · rw [loadFiles, readFile_eq, if_pos h, if_pos h, Option.bind_some]
  · rw [loadFiles, readFile_eq, if_neg h, if_neg h, Option.bind_none]

/-- What stands before the files is left alone. -/
theorem loadFiles_before {files : List Bytes} {inputOffset : Nat} {m m' : Mem}
    (h : loadFiles files inputOffset m = some m') : ∀ i < inputOffset, m' i = m i := by
  induction files generalizing inputOffset m with
  | nil =>
    intro i _
    rw [← Option.some.inj h]
  | cons file files ih =>
    intro i hi
    rw [loadFiles_cons] at h
    split at h
    · rw [ih h i (by omega), write_of_lt hi]
    · cases h

/-- The transfer ends, with all files in place, if and only if the size of every file is
neither a multiple of a chunk nor within a MiB below one. -/
theorem files_loaded_iff (files : List Bytes) (inputOffset : Nat) (m : Mem) :
    (∃ m', loadFiles files inputOffset m = some m' ∧ InPlace m' inputOffset files) ↔
      ∀ file ∈ files, Chunked file.length := by
  induction files generalizing inputOffset m with
  | nil => exact ⟨fun _ file h => absurd h not_mem_nil, fun _ => ⟨m, rfl, trivial⟩⟩
  | cons file files ih =>
    have hround := roundUp_eq file.length
    rw [loadFiles_cons, forall_mem_cons,
      ← ih (inputOffset + roundUp file.length) (write m inputOffset file)]
    split
    · rename_i hchunked
      rw [and_iff_right hchunked]
      refine exists_congr fun m' => and_congr_right fun h => and_iff_right ?_
      -- the files behind do not touch this one
      refine Eq.trans (slice_congr fun i _ hi => loadFiles_before h i (by omega)) ?_
      exact hasAt_write m inputOffset file
    · rename_i hchunked
      exact ⟨fun h => absurd h.choose_spec.1 (Option.some_ne_none _).symm, fun h => absurd h.1 hchunked⟩

theorem whole_chunk_not_loaded : loadFiles [replicate bufSize 0] 0 (fun _ => 0) = none := by
  have hnot : ¬ Chunked (replicate bufSize (0 : UInt8)).length := by
    rw [length_replicate, Chunked, Nat.mod_self]
    exact fun h => absurd h.1 (Nat.lt_irrefl 0)
  rw [loadFiles_cons, if_neg hnot]

/-- Built files that are in place are found by the kernel, if it is given their rounded sizes
and the bitmaps one after the other. -/
theorem InPlace.loaded {fs : List DeviceInput} {datas bitmaps : Mem} {inputOffset inputBitmap : Nat}
    (h : InPlace datas inputOffset (fs.map (·.file.image)))
    (hlength : ∀ f ∈ fs, f.dataLength = roundUp f.file.image.length)
    (hbitmaps : HasAt bitmaps inputBitmap (fs.flatMap (·.bitmap.bits))) :
    Loaded datas bitmaps inputOffset inputBitmap fs := by
  induction fs generalizing inputOffset inputBitmap with
  | nil => trivial
  | cons f fs ih =>
    obtain ⟨hfirst, hrest⟩ := hasAt_append.mp (flatMap_cons ▸ hbitmaps)
    refine ⟨h.1, hfirst, ih ?_ (fun g hg => hlength g (mem_cons_of_mem _ hg)) hrest⟩
    rw [hlength f mem_cons_self]
    exact h.2

/-! ## The output buffers -/

/-- A pass that the kernel returns from, whatever stands in its memory. -/
structure KernelRun where
  crc : Checksum
  inputs : List KernelInput
  datas : Mem
  bitmaps : Mem
  data : Mem
  key : Mem
  out : KernelOutput
  agrees : crc.Agrees
  kernel : gcKernel crc inputs datas bitmaps data key = some out

namespace KernelRun

variable (run : KernelRun)

def kept : List Survivor := (readFiles run.datas run.bitmaps run.inputs 0 0 0).getD []

theorem reads : readFiles run.datas run.bitmaps run.inputs 0 0 0 = some run.kept ∧
    run.out = finished run.crc ((started run.data run.key).rewrite run.kept) := by
  obtain ⟨xs, hreads, hout⟩ := Option.map_eq_some_iff.mp ((gcKernel_eq run.agrees ..).symm.trans run.kernel)
  rw [kept, hreads]
  exact ⟨rfl, hout.symm⟩

theorem bounded : Bounded (run.inputs.map (·.entries)).sum run.kept := readFiles_bounded run.reads.1

variable {run} in
/-- Of files whose records are whole the survivors are kept. -/
theorem kept_eq {fs : List StoredFile} (hfits : ∀ f ∈ fs, ∀ r ∈ f.records, r.Fits)
    (hinputs : run.inputs = fs.map StoredFile.args) (hstored : Stored run.datas run.bitmaps 0 0 fs) :
    run.kept = keptFrom 0 fs :=
  ((readFiles_iff hfits hstored 0 _).mp (hinputs ▸ run.reads.1)).2

end KernelRun

def storedRun (fs : List StoredFile) (datas bitmaps : Mem) (hstored : Stored datas bitmaps 0 0 fs)
    (hstaged : ∀ f ∈ fs, ∀ r ∈ f.records, Staged r) : KernelRun where
  crc := Crc32c.extend
  inputs := fs.map StoredFile.args
  datas := datas
  bitmaps := bitmaps
  data := fun _ => 0
  key := fun _ => 0
  out := finished Crc32c.extend ((started (fun _ => 0) fun _ => 0).rewrite (keptFrom 0 fs))
  agrees := fun _ => rfl
  kernel := by
    have hreads := (readFiles_iff (fun f hf r hr => (hstaged f hf r hr).fits) hstored 0 _).mpr
      ⟨allStaged_keptFrom hstaged 0, rfl⟩
    rw [gcKernel_eq fun _ => rfl, hreads, Option.map_some]

theorem tuplesFrom_length {xs : List Survivor} (hstaged : AllStaged xs) (newOffset : Nat) :
    (tuplesFrom newOffset xs).length = (xs.map (·.record.key.length)).sum + 17 * xs.length := by
  induction xs generalizing newOffset with
  | nil => rfl
  | cons x xs ih =>
    have hkey := (hstaged x mem_cons_self).key
    have hnat := UInt32.toNat_ofNat_of_lt' (hstaged x mem_cons_self).fits.key
    have hvarint : (putVarint32 (UInt32.ofNat x.record.key.length)).length = 1 := by
      rw [MAX_KEY_LENGTH] at hkey
      rw [putVarint32, hnat, encodeVarint, if_pos (by omega), length_singleton]
    rw [tuplesFrom, length_append, Survivor.tuple, keyTuple_length, hvarint,
      ih fun y hy => hstaged y (mem_cons_of_mem x hy), map_cons, sum_cons, length_cons]
    omega

namespace KernelRun

variable (run : KernelRun)

theorem keySize : run.out.keySize = (run.kept.map (·.record.key.length)).sum + 17 * run.kept.length := by
  rw [run.reads.2]
  exact (Nat.zero_add _).trans (tuplesFrom_length run.bounded.staged _)

theorem dataSize : run.out.dataSize =
    footerOffset (kBlobMaxHeaderSize + (entries (run.kept.map (·.record))).length) + kBlobFooterSize := by
  rw [run.reads.2, finished, encodeFooter_eq run.agrees]
  rfl

end KernelRun

/-- A file that another pass has written: padded to a page. -/
def padded : StoredFile where
  header := {}
  records := [⟨[1], [2]⟩]
  size := 4096
  bitmap := ⟨1, [0], oneBit_size⟩
  dataLength := 1048576
  accepted := ⟨.inr rfl, UInt32.zero_and⟩
  covers := le_rfl
  footer := by decide

theorem padded_stored : Stored (ofBytes (({} : BlobFileHeader).encodeTo ++ entries [⟨[1], [2]⟩]))
    (ofBytes [0]) 0 0 [padded] := ⟨hasAt_ofBytes _, hasAt_ofBytes _, trivial⟩

theorem padded_staged : ∀ f ∈ [padded], ∀ r ∈ f.records, Staged r :=
  forall_mem_singleton.mpr (forall_mem_singleton.mpr ⟨by decide, by decide⟩)

def paddedRun : KernelRun := storedRun [padded] _ _ padded_stored padded_staged

theorem paddedRun_kept : paddedRun.kept = [⟨0, ⟨[1], [2]⟩, ⟨12, 13, 0⟩⟩] :=
  KernelRun.kept_eq (fun f hf r hr => (padded_staged f hf r hr).fits) rfl padded_stored

/-- A file as the builder writes it, all records of which are kept. -/
def keepAll (file : PlainFile) : StoredFile where
  header := file.header
  records := file.records
  size := file.image.length
  bitmap := ⟨file.records.length, replicate ((file.records.length >>> 3) + 1) 0, length_replicate⟩
  dataLength := roundUp file.image.length
  accepted := ⟨file.valid, UInt32.zero_and⟩
  covers := le_rfl
  footer := file.image_length.ge

theorem keepAll_size (file : PlainFile) : (keepAll file).size = file.image.length := rfl

theorem keepAll_bit (file : PlainFile) (k : Nat) : (keepAll file).bitmap.bit k = false := by
  have hbyte : ∀ n, (replicate n (0 : UInt8)).getD (k >>> 3) 0 = 0 := fun n => by
    rw [getD_eq_getElem?_getD, getElem?_replicate]
    split <;> rfl
  rw [BitMap.bit, keepAll, hbyte]
  simp [bitIn]

theorem keepAll_stored (file : PlainFile) :
    Stored (ofBytes file.image) (ofBytes (keepAll file).bitmap.bits) 0 0 [keepAll file] := by
  have himage : HasAt (ofBytes file.image) 0
      (file.header.encodeTo ++ entries file.records ++ ({} : BlobFileFooter).encodeTo) := by
    rw [← file.image_eq]
    exact hasAt_ofBytes _
  exact ⟨(hasAt_append.mp himage).1, hasAt_ofBytes _, trivial⟩

def keepAllRun {file : PlainFile} (hstaged : ∀ r ∈ file.records, Staged r) : KernelRun :=
  storedRun [keepAll file] _ _ (keepAll_stored file) (forall_mem_singleton.mpr hstaged)

theorem kept_keepAll {file : PlainFile} (hstaged : ∀ r ∈ file.records, Staged r) :
    (keepAllRun hstaged).kept.map (·.record) = file.records := by
  have hkept : (keepAllRun hstaged).kept = keptFrom 0 [keepAll file] :=
    KernelRun.kept_eq (forall_mem_singleton.mpr fun r hr => (hstaged r hr).fits) rfl (keepAll_stored file)
  rw [hkept, keptFrom, keptFrom, append_nil]
  exact survivorsFrom_of_clear 0 _ 0 _ fun k _ _ => keepAll_bit file k

theorem keepAllRun_length {file : PlainFile} (hstaged : ∀ r ∈ file.records, Staged r) :
    (keepAllRun hstaged).kept.length = file.records.length :=
  (length_map _).symm.trans (congrArg List.length (kept_keepAll hstaged))

def longKeys : PlainFile := ⟨kVersion1, replicate 12946 ⟨replicate 64 0, []⟩, kVersion1_valid⟩

theorem longKeys_staged : ∀ r ∈ longKeys.records, Staged r := by
  intro r hr
  rw [eq_of_mem_replicate hr]
  exact ⟨by decide, by decide⟩

/-- The size of the output buffer is that of the input buffer. -/
def outputFileSize (fs : List StoredFile) : Nat := (fs.map fun f => roundUp f.size).sum

theorem outputFileSize_singleton (f : StoredFile) : outputFileSize [f] = roundUp f.size := sum_singleton

/-- The one file is of the old version, nothing of it is dropped, and it ends within four
bytes below a MiB, with next to nothing between its entries and its footer: the header of the
output file is longer. -/
def Crowded (fs : List StoredFile) : Prop :=
  ∃ f, fs = [f] ∧ f.header.version = kVersion1 ∧ (∀ k < f.records.length, f.bitmap.bit k = false) ∧
    2 ^ 20 + (f.size - (8 + (entries f.records).length + kBlobFooterSize)) ≤ f.size % 2 ^ 20 + 3

theorem le_outputFileSize (fs : List StoredFile) (i : Nat) :
    (entries ((keptFrom i fs).map (·.record))).length + 41 * fs.length ≤ outputFileSize fs ∧
      outputFileSize fs % 4096 = 0 := by
  induction fs generalizing i with
  | nil => exact ⟨le_rfl, rfl⟩
  | cons f fs ih =>
    have hrest := ih (i + 1)
    have hround := roundUp_eq f.size
    have hfooter := f.footer
    have hkept := entries_survivorsFrom_le f.bitmap.bit i f.header.size 0 f.records
    have hheader : 8 ≤ f.header.size := by
      unfold BlobFileHeader.size
      split <;> omega
    rw [kBlobFooterSize] at hfooter
    rw [keptFrom, map_append, entries_append, length_append, outputFileSize, map_cons, sum_cons,
      ← outputFileSize, length_cons]
    omega

theorem data_buffer_suffices_iff {fs : List StoredFile} (hfs : fs ≠ [])
    (hfits : ∀ f ∈ fs, ∀ r ∈ f.records, r.Fits)
    (run : KernelRun) (hinputs : run.inputs = fs.map StoredFile.args)
    (hstored : Stored run.datas run.bitmaps 0 0 fs) :
    run.out.dataSize ≤ outputFileSize fs ↔ ¬ Crowded fs := by
  obtain ⟨hle, hmod⟩ := le_outputFileSize fs 0
  have hpage : run.out.dataSize ≤ outputFileSize fs ↔
      44 + (entries ((keptFrom 0 fs).map (·.record))).length ≤ outputFileSize fs := by
    rw [run.dataSize, KernelRun.kept_eq hfits hinputs hstored, footerOffset, kBlobMaxHeaderSize,
      kBlobFooterSize]
    split <;> omega
  rw [hpage]
  cases fs with
  | nil => exact absurd rfl hfs
  | cons f rest =>
    cases rest with
    | cons g rest =>
      -- what two files have besides their records is more than the output file has
      have hnot : ¬ Crowded (f :: g :: rest) := fun h => by simp [Crowded] at h
      rw [length_cons, length_cons] at hle
      exact iff_of_true (by omega) hnot
    | nil =>
      have hcrowded : Crowded [f] ↔ f.header.version = kVersion1 ∧
          (∀ k < f.records.length, f.bitmap.bit k = false) ∧
          2 ^ 20 + (f.size - (8 + (entries f.records).length + kBlobFooterSize)) ≤ f.size % 2 ^ 20 + 3 := by
        simp [Crowded]
      have hround := roundUp_eq f.size
      have hfooter := f.footer
      rw [hcrowded, outputFileSize_singleton, keptFrom, keptFrom, append_nil]
      rw [BlobFileHeader.size, kBlobFooterSize] at hfooter
      rw [kBlobFooterSize]
      by_cases hclear : ∀ k < f.records.length, f.bitmap.bit k = false
      · rw [survivorsFrom_of_clear 0 _ 0 _ fun k _ hk => hclear k (by omega)]
        rcases f.accepted.version with hv | hv
        · rw [if_pos hv] at hfooter
          rw [and_iff_right hv, and_iff_right hclear]
          omega
        · rw [hv, if_neg (by decide)] at hfooter
          rw [hv]
          exact iff_of_true (by omega) fun h => absurd h.1 (by decide)
      · obtain ⟨k, hk, hset⟩ := by simpa using hclear
        have hdropped := entries_survivorsFrom_of_set hset 0 f.header.size 0 f.records
          (Nat.zero_le k) (by omega)
        rw [kRecordHeaderSize] at hdropped
        exact iff_of_true (by split at hfooter <;> omega) fun h => hclear h.2.1

theorem data_buffer_suffices_padded : paddedRun.out.dataSize ≤ outputFileSize [padded] := by
  refine (data_buffer_suffices_iff (cons_ne_nil _ _) (fun f hf r hr => (padded_staged f hf r hr).fits)
    paddedRun rfl padded_stored).mpr ?_
  rintro ⟨f, hf, hversion, -⟩
  obtain rfl := (singleton_inj.mp hf).symm
  exact absurd hversion (by decide)

theorem version1_image_length {f : PlainFile} (hf : f.version = kVersion1) :
    f.image.length = 40 + (entries f.records).length := by
  rw [PlainFile.image_length, PlainFile.header, BlobFileHeader.size, if_pos hf, kBlobFooterSize]
  omega

theorem entries_replicate_length (n : Nat) (r : BlobRecord) :
    (entries (replicate n r)).length = n * (plainEntry r).length := by
  rw [entries, length_flatMap, map_replicate, sum_replicate, smul_eq_mul]

def zeros (n : Nat) : BlobRecord := ⟨[], replicate n 0⟩

theorem zeros_length {n : Nat} (hle : 128 ≤ n) (hlt : n < 16384) : (plainEntry (zeros n)).length =
    n + 12 := by
  have hnat : (UInt32.ofNat n).toNat = n := UInt32.toNat_ofNat_of_lt' (by unfold UInt32.size; omega)
  have hvarint : (putVarint32 (UInt32.ofNat n)).length = 2 := by
    rw [putVarint32, hnat, encodeVarint, if_neg (by omega), encodeVarint, if_pos (by omega)]
    rfl
  rw [plainEntry_length, BlobRecord.encodeTo, zeros, putLengthPrefixedSlice, putLengthPrefixedSlice,
    length_append, length_append, length_append, length_replicate, hvarint, kRecordHeaderSize]
  have hempty : (putVarint32 (UInt32.ofNat ([] : Bytes).length)).length = 1 := rfl
  rw [hempty, length_nil]
  omega

theorem zeros_staged {n : Nat} (hle : n ≤ 8192) : Staged (zeros n) :=
  ⟨Nat.zero_le _, by rw [zeros, length_replicate]; exact hle⟩

/-- One byte short of a MiB. -/
def crowdedFile : PlainFile := ⟨kVersion1, replicate 127 (zeros 8180) ++ [zeros 8139], kVersion1_valid⟩

theorem crowdedFile_staged : ∀ r ∈ crowdedFile.records, Staged r := by
  intro r hr
  rcases mem_append.mp hr with hr | hr
  · rw [eq_of_mem_replicate hr]
    exact zeros_staged (by omega)
  · rw [mem_singleton.mp hr]
    exact zeros_staged (by omega)

theorem crowdedFile_entries : (entries crowdedFile.records).length = 2 ^ 20 - 41 := by
  rw [crowdedFile, entries_append, length_append, entries_replicate_length, entries_cons, entries_nil,
    append_nil, zeros_length (by omega) (by omega), zeros_length (by omega) (by omega)]
  norm_num

theorem data_buffer_overrun :
    outputFileSize [keepAll crowdedFile] < (keepAllRun crowdedFile_staged).out.dataSize := by
  have himage : crowdedFile.image.length = 2 ^ 20 - 1 := by
    rw [version1_image_length rfl, crowdedFile_entries]
    norm_num
  rw [KernelRun.dataSize, kept_keepAll, crowdedFile_entries, outputFileSize_singleton, roundUp_eq,
    keepAll_size,
    himage]
  decide

/-! ## Records that the kernel cannot stage -/

/-- The options of a column family: those of its tables, and what else `ValidateOptions` reads. -/
structure CFOptions where
  table : TableOptions
  levelCompactionDynamicLevelBytes : Bool

def oneFile : CFOptions := ⟨{ separateOptions with blobFileTargetSize := 1000 }, false⟩

def oneRecord : BlobFileBuilder × List BlobRecordContext :=
  (BlobFileBuilder.new oneFile.table.builder { outcome := fun _ => none } kVersion2).add oneFile.table.builder
    ⟨[1], [2]⟩ { key := [1] }

/-- What `DoRunGCOnHardware` makes of the tuple with number `i`. -/
def writeBackIndex (outputNumber : UInt64) (inputs : List UInt64) (i : Nat) (k : OutputKey) : BlobIndex where
  fileNumber := outputNumber
  blobHandle := ⟨k.newOffset.toUInt64, k.size.toUInt64, UInt64.ofNat i⟩
  oldFileNumber := inputs.getD k.originalFile.toNat 0
  oldBlobHandle := ⟨k.originalOffset.toUInt64, k.size.toUInt64, 0⟩

/-- Where the kernel has put the survivor with number `i`. -/
def newOffset (xs : List Survivor) (i : Nat) : Nat :=
  kBlobMaxHeaderSize + (entries ((xs.take i).map (·.record))).length

/-- The offsets and the size are those the kernel has used. -/
structure Exact (xs : List Survivor) (i : Nat) (x : Survivor) (b : BlobIndex) : Prop where
  offset : b.blobHandle.offset.toNat = newOffset xs i
  oldOffset : b.oldBlobHandle.offset = x.handle.offset
  size : b.blobHandle.size = x.handle.size
  oldSize : b.oldBlobHandle.size = x.handle.size

theorem getElem?_outputKeysFrom (offset : Nat) (xs : List Survivor) (i : Nat) :
    (outputKeysFrom offset xs)[i]? = xs[i]?.map fun x =>
      ⟨x.record.key, UInt32.ofNat (offset + (entries ((xs.take i).map (·.record))).length),
        UInt32.ofNat x.input, UInt32.ofNat x.handle.offset.toNat, UInt32.ofNat x.handle.size.toNat⟩ := by
  induction xs generalizing offset i with
  | nil => rfl
  | cons x xs ih =>
    cases i with
    | zero => rfl
    | succ i =>
      rw [outputKeysFrom, getElem?_cons_succ, ih, getElem?_cons_succ, take_succ_cons,
        map_cons, entries_cons, length_append, Nat.add_assoc]

theorem toUInt64_ofNat_eq (n : Nat) : (UInt32.ofNat n).toUInt64.toNat = n ↔ n < 2 ^ 32 := by
  rw [UInt32.toNat_toUInt64, UInt32.toNat_ofNat']
  exact Nat.mod_eq_iff_lt (by decide)

/-- A number of 64 bits comes back if it fits 32. -/
theorem toUInt64_ofNat_toNat (w : UInt64) : (UInt32.ofNat w.toNat).toUInt64 = w ↔ w.toNat < 2 ^ 32 := by
  rw [← UInt64.toNat_inj]
  exact toUInt64_ofNat_eq w.toNat

/-- The tuples are those of the kept records. -/
theorem KernelRun.outputKeys (run : KernelRun) :
    getOutputKeys run.out.key run.out.rewriteKeyNum 0 =
      some (outputKeysFrom kBlobMaxHeaderSize run.kept) := by
  have hnum : run.out.rewriteKeyNum = run.kept.length := by
    rw [run.reads.2]
    exact Nat.zero_add _
  rw [hnum, run.reads.2]
  exact getOutputKeys_tuplesFrom (fun x hx => (run.bounded.staged x hx).fits.key) (hasAt_write run.key 0 _)

theorem KernelRun.reported_offset (run : KernelRun) (outputNumber : UInt64) (inputs : List UInt64) {i : Nat}
    (hi : i < run.kept.length) :
    ∃ ks k, getOutputKeys run.out.key run.out.rewriteKeyNum 0 = some ks ∧ ks[i]? = some k ∧
      ((writeBackIndex outputNumber inputs i k).blobHandle.offset.toNat = newOffset run.kept i ↔
        newOffset run.kept i < 2 ^ 32) := by
  have hk := getElem?_outputKeysFrom kBlobMaxHeaderSize run.kept i
  rw [getElem?_eq_getElem hi, Option.map_some] at hk
  exact ⟨_, _, run.outputKeys, hk, toUInt64_ofNat_eq (newOffset run.kept i)⟩

/-- The indexes are exact if and only if every record that is kept starts below 4 GiB, in
its input and in the output. -/
theorem reported_exact_iff (run : KernelRun) (outputNumber : UInt64) (inputs : List UInt64) :
    ∃ ks, getOutputKeys run.out.key run.out.rewriteKeyNum 0 = some ks ∧
      ((∀ i x, run.kept[i]? = some x →
        ∃ k, ks[i]? = some k ∧ Exact run.kept i x (writeBackIndex outputNumber inputs i k)) ↔
      ∀ i x, run.kept[i]? = some x → newOffset run.kept i < 2 ^ 32 ∧ x.handle.offset.toNat < 2 ^ 32) := by
  refine ⟨_, run.outputKeys, forall_congr' fun i => forall_congr' fun x => imp_congr_right fun hx => ?_⟩
  have hsize := (toUInt64_ofNat_toNat x.handle.size).mpr (run.bounded.size x (mem_of_getElem? hx))
  rw [getElem?_outputKeysFrom, hx, Option.map_some]
  constructor
  · rintro ⟨k, hk, hexact⟩
    cases hk
    exact ⟨(toUInt64_ofNat_eq _).mp hexact.offset, (toUInt64_ofNat_toNat _).mp hexact.oldOffset⟩
  · intro h
    exact ⟨_, rfl, (toUInt64_ofNat_eq _).mpr h.1, (toUInt64_ofNat_toNat _).mpr h.2, hsize, hsize⟩

theorem reported_exact_padded : ∃ ks,
    getOutputKeys paddedRun.out.key paddedRun.out.rewriteKeyNum 0 = some ks ∧
    ∀ i x, paddedRun.kept[i]? = some x →
      ∃ k, ks[i]? = some k ∧ Exact paddedRun.kept i x (writeBackIndex 9 [7] i k) := by
  obtain ⟨ks, hks, hiff⟩ := reported_exact_iff paddedRun 9 [7]
  refine ⟨ks, hks, hiff.mpr fun i x hx => ?_⟩
  rw [paddedRun_kept] at hx ⊢
  cases i with
  | zero =>
    cases hx
    decide
  | succ i => cases hx

def hugeFile : PlainFile := ⟨kVersion1, replicate 600000 (zeros 8192), kVersion1_valid⟩

theorem hugeFile_records : hugeFile.records = replicate 600000 (zeros 8192) := rfl

theorem hugeFile_staged : ∀ r ∈ hugeFile.records, Staged r := by
  intro r hr
  rw [eq_of_mem_replicate hr]
  exact zeros_staged le_rfl

def hugeRun : KernelRun := keepAllRun hugeFile_staged

theorem newOffset_hugeFile : newOffset hugeRun.kept 599999 = 4922391808 := by
  have htake : (hugeRun.kept.take 599999).map (·.record) = replicate 599999 (zeros 8192) := by
    rw [map_take, hugeRun, kept_keepAll, hugeFile_records, take_replicate, min_eq_left (by omega)]
  rw [newOffset, htake, entries_replicate_length, zeros_length (by omega) (by omega), kBlobMaxHeaderSize]

/-- A batch of 1 GiB is not full before the file is picked, and the last of its records does
not get the offset it has. -/
theorem offset_truncated :
    hugeFile.image.length = 4922400040 ∧
    pickBlobGC (R := Nat) ⟨1, 8388608, 1073741824, 134217728, fun _ => 1⟩
      ⟨fun n => if n = 7 then some ⟨{ fileNumber := 7, fileSize := 4922400040 }, 0, .normal⟩ else none, []⟩
      [⟨7, 1⟩] = .ok (some ⟨[7], false⟩) ∧
    ∃ (ks : List OutputKey) (k : OutputKey),
      getOutputKeys hugeRun.out.key hugeRun.out.rewriteKeyNum 0 = some ks ∧ ks[599999]? = some k ∧
      (writeBackIndex 9 [7] 599999 k).blobHandle.offset.toNat ≠ newOffset hugeRun.kept 599999 := by
  have hlen := keepAllRun_length hugeFile_staged
  rw [hugeFile_records, length_replicate] at hlen
  obtain ⟨ks, k, hks, hk, hiff⟩ :=
    hugeRun.reported_offset 9 [7] (show 599999 < _ by rw [hugeRun, hlen]; norm_num)
  refine ⟨?_, rfl, ks, k, hks, hk, ?_⟩
  · rw [version1_image_length rfl, hugeFile_records, entries_replicate_length,
      zeros_length (by omega) (by omega)]
  · exact fun h => absurd (hiff.mp h) (by rw [newOffset_hugeFile]; norm_num)

end TitanGC.Kernel.Driver
