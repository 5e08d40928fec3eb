import TitanGC.Kernel.Readback
import TitanGC.Storage.FormatAgreement

/-!
# Collecting the kernel's output again

The file that the kernel writes becomes an input of a later collection, which iterates
over it without knowing how many entries it has. Between the last entry and the footer
lies what the buffer held up to the end of a page, and the iterator takes these bytes
for an entry: it yields the records of the file and ends with status OK exactly if there
is no padding.
-/

namespace TitanGC.Kernel.Recollection

open Lib Lib.ByteCoding Lib.Memory List Format.Coding Format.BlobFormat Format.BlobFile
open Storage.Builder Storage.Iterator Storage.Placement Storage.Reader Storage.FormatAgreement
open Storage.IntactFiles (sub64_of_le)
open Coding FileFormat GcKernel Readback

/-! ## What the kernel writes, whatever it reads -/

variable {crc : Checksum} {datas bitmaps : Mem}

/-- The file of an output: a header, the entries of records, what lay in the buffer up to
the end of a page, and a footer. -/
structure Holds (out : KernelOutput) (rs : List BlobRecord) : Prop where
  count : out.rewriteKeyNum = rs.length
  staged : ∀ r ∈ rs, Staged r
  file : ∃ gap padding, KernelOutput.file out = ({} : BlobFileHeader).encodeTo ++ entries rs ++
      (gap ++ sealFooter (({} : BlockHandle).encodeTo ++ padding)) ∧
    (({} : BlockHandle).encodeTo ++ padding).length = kBlobFooterSize - 12 ∧
    gap.length = footerOffset (kBlobMaxHeaderSize + (entries rs).length) -
      (kBlobMaxHeaderSize + (entries rs).length)

/-- The records that have been appended are those of the file. -/
theorem holds_finished (hcrc : crc.Agrees) {xs : List Survivor} (hstaged : AllStaged xs)
    (data key : Mem) : Holds (finished crc ((started data key).rewrite xs)) (xs.map (·.record)) := by
  obtain ⟨hfile, hpadding⟩ := slice_encodeFooter hcrc (p := (started data key).rewrite xs) rfl rfl
  refine ⟨?_, forall_mem_map.mpr hstaged, _, _, hfile, hpadding, ?_⟩
  · rw [length_map]
    exact Nat.zero_add _
  · rw [slice_length]
    rfl

/-- Whatever the inputs are, the kernel writes such a file. -/
theorem gcKernel_holds (hcrc : crc.Agrees) {inputs : List KernelInput} {data key : Mem} {out : KernelOutput}
    (hout : gcKernel crc inputs datas bitmaps data key = some out) : ∃ rs, Holds out rs := by
  rw [gcKernel_eq hcrc] at hout
  obtain ⟨xs, hreads, rfl⟩ := Option.map_eq_some_iff.mp hout
  exact ⟨_, holds_finished hcrc (readFiles_bounded hreads).staged data key⟩

/-! ## Iterating over it -/

section

variable {out : KernelOutput} {rs : List BlobRecord}

theorem encoded_none (rs : List BlobRecord) : encoded .none rs = entries rs := by
  induction rs with
  | nil => rfl
  | cons r rs ih => rw [encoded_cons, entries_cons, ih, encodeRecord_none]

theorem header_eq : ({} : BlobFileHeader) = headerOf (rawOptions 0) kVersion2 := rfl

/-- An initialised iterator over the file; the end of the records is where the footer starts. -/
def opened (out : KernelOutput) (rs : List BlobRecord) (fileNumber : UInt64) (bitmap : BitMap) :
    BlobFileIterator :=
  { openIterator (KernelOutput.file out) fileNumber bitmap with
    status := none
    endOfBlobRecord := footerOffset (kBlobMaxHeaderSize + (entries rs).length)
    headerSize := 12
    init := true }

variable (env : Env) (fileNumber : UInt64) (bitmap : BitMap)

theorem Holds.file_length (h : Holds out rs) :
    (KernelOutput.file out).length =
      footerOffset (kBlobMaxHeaderSize + (entries rs).length) + kBlobFooterSize := by
  obtain ⟨gap, padding, hfile, hpadding, hgap⟩ := h.file
  have hle := le_footerOffset (kBlobMaxHeaderSize + (entries rs).length)
  have hheader : ({} : BlobFileHeader).encodeTo.length = kBlobMaxHeaderSize := by decide
  rw [hfile, length_append, length_append, length_append, hheader, hgap,
    sealFooter_length hpadding]
  omega

theorem Holds.doInit_eq (h : Holds out rs) (hsize : (KernelOutput.file out).length < 2 ^ 64) :
    (openIterator (KernelOutput.file out) fileNumber bitmap).doInit env =
      (true, opened out rs fileNumber bitmap) := by
  have hlen := h.file_length
  obtain ⟨gap, padding, hfile, hpadding, hgap⟩ := h.file
  rw [header_eq, ← append_assoc, append_assoc (headerOf _ _).encodeTo] at hfile
  have hend : BlobFileIterator.recordsEnd (KernelOutput.file out).length {} =
      footerOffset (kBlobMaxHeaderSize + (entries rs).length) := by
    rw [BlobFileIterator.recordsEnd, if_pos rfl, sub64_of_le (by rw [hlen]; exact Nat.le_add_left ..) hsize,
      hlen, Nat.add_sub_cancel]
  have hflag : ¬ ((headerOf (rawOptions 0) kVersion2).flags &&& kHasUncompressionDictionary ≠ 0) :=
    mt headerOf_flag.mp (Nat.lt_irrefl 0)
  rw [doInit_of_parts hfile rfl rfl (sealFooter_length hpadding) hsize]
  simp only [BlobFileIterator.initRecords, metaIndexHandle_sealFooter, footerStatus_sealFooter hpadding,
    if_neg hflag, headerOf_size]
  rw [show (openIterator (KernelOutput.file out) fileNumber bitmap).fileSize = (KernelOutput.file out).length
    from rfl, hend]
  rfl

/-- The iterator stands before the entries of the records. -/
theorem Holds.at (h : Holds out rs) (hsize : (KernelOutput.file out).length < 2 ^ 64) :
    At (opened out rs fileNumber bitmap).rewind env .none rs where
  status := rfl
  reads before r after hsplit := by
    obtain ⟨gap, padding, hfile, -, -⟩ := h.file
    have hr := h.staged r (by rw [hsplit]; exact mem_append_right _ mem_cons_self)
    have hbytes : ({} : BlobFileHeader).encodeTo ++ encoded .none before ++ encodeRecord .none r ++
        (entries after ++ (gap ++ sealFooter (({} : BlockHandle).encodeTo ++ padding))) =
        KernelOutput.file out := by
      rw [hfile, hsplit, entries_append, entries_cons, encoded_none, encodeRecord_none]
      simp only [append_assoc]
    have hread := readRecord_at env (opened out rs fileNumber bitmap).rewind .none rfl hbytes (by
      rw [encodeRecord_none]
      exact decodeEntry_plainEntry hr.fits (hr.encodeTo_lt.trans (by decide)) _ _)
      (hr.encodeTo_lt.trans (by decide))
    rw [length_append] at hread
    exact hread
  room := by
    rw [encoded_none]
    exact le_footerOffset _
  count := by
    have hcount := length_le_entries rs
    have hle := le_footerOffset (kBlobMaxHeaderSize + (entries rs).length)
    have hlen := h.file_length
    change 0 + rs.length ≤ 2 ^ 64 - 1
    omega

/-- Draining the iterator that a collection builds for the file gives the records, with their
indexes, and leaves it with status OK. -/
def Recollected (out : KernelOutput) (rs : List BlobRecord) : Prop :=
  ∃ l t, (BlobFileIterator.source env).Drains
      ((openIterator (KernelOutput.file out) fileNumber bitmap).seekToFirst env) l t ∧
    t.status = none ∧ l.map Entry.record = rs ∧
    l.map (fun e => e.index.blobHandle.index) = (List.range out.rewriteKeyNum).map UInt64.ofNat

variable (h : Holds out rs) (hsize : (KernelOutput.file out).length < 2 ^ 64)

include h hsize

theorem Holds.seekToFirst_eq :
    (openIterator (KernelOutput.file out) fileNumber bitmap).seekToFirst env =
      (opened out rs fileNumber bitmap).rewind.prefetchAndGet env := by
  have hfresh : (openIterator (KernelOutput.file out) fileNumber bitmap).init = false := rfl
  simp only [BlobFileIterator.seekToFirst, hfresh, h.doInit_eq env fileNumber bitmap hsize,
    Bool.false_eq_true,
    ↓reduceIte]

/-- Without padding the iterator ends behind the last entry. -/
theorem Holds.recollected
    (hfull : footerOffset (kBlobMaxHeaderSize + (entries rs).length) =
      kBlobMaxHeaderSize + (entries rs).length) :
    Recollected env fileNumber bitmap out rs := by
  obtain ⟨l, t, hwalked⟩ := (h.at env fileNumber bitmap hsize).walk
  have hindexes := congrArg (List.map fun i : BlobIndex => i.blobHandle.index) hwalked.indexes
  rw [map_map, map_map] at hindexes
  refine ⟨l, { t with valid := false }, ?_, hwalked.status, hwalked.records, ?_⟩
  · rw [h.seekToFirst_eq env fileNumber bitmap hsize]
    refine hwalked.drains_of_end ?_
    rw [encoded_none]
    exact hfull
  · have hhandles := handles_index .none 12 0 rs
    rw [← range_eq_range', ← h.count] at hhandles
    exact hindexes.trans hhandles

/-- In the padding the iterator fails or finds one more record. -/
theorem Holds.not_recollected
    (hpadded : kBlobMaxHeaderSize + (entries rs).length < footerOffset
      (kBlobMaxHeaderSize + (entries rs).length)) :
    ¬ Recollected env fileNumber bitmap out rs := by
  rintro ⟨l', u, hdrains, hstatus, hrecords, -⟩
  obtain ⟨l, t, hwalked⟩ := (h.at env fileNumber bitmap hsize).walk
  rw [h.seekToFirst_eq env fileNumber bitmap hsize] at hdrains
  obtain ⟨rest, hrest, htail⟩ := hwalked.leads.of_drains hdrains
  have hnil : rest = [] := by
    have hlength := congrArg List.length (hrecords.trans hwalked.records.symm)
    rw [hrest, length_map, length_map, length_append] at hlength
    exact length_eq_zero_iff.mp (by omega)
  have hmore : ¬ (t.endOfBlobRecord ≤ t.iterateOffset ∨ t.fileEntries ≤ t.iterateIndex) := by
    have hcount := length_le_entries rs
    have hlen := h.file_length
    have hoffset := hwalked.offset
    rw [encoded_none] at hoffset
    have hstart : (opened out rs fileNumber bitmap).rewind.iterateOffset = kBlobMaxHeaderSize := rfl
    have hfinish : t.endOfBlobRecord = footerOffset (kBlobMaxHeaderSize + (entries rs).length) :=
      hwalked.finish
    have hindex : t.iterateIndex = 0 + rs.length := hwalked.index
    have hentries : t.fileEntries = 2 ^ 64 - 1 := hwalked.fileEntries
    omega
  rw [BlobFileIterator.prefetchAndGet, if_neg hmore, BlobFileIterator.getBlobRecord] at htail
  subst hnil
  cases hread : t.readRecord env t.iterateOffset with
  | error e =>
    rw [hread] at htail
    cases htail with
    | done _ => cases hstatus
  | ok read =>
    rw [hread] at htail
    cases htail with
    | done hitem => cases hitem

end

/-- There is no padding exactly if header, entries and footer fill whole pages. -/
theorem footerOffset_eq_iff (offset : Nat) :
    footerOffset offset = offset ↔ 4096 ∣ offset + kBlobFooterSize := by
  rw [footerOffset]
  split <;> omega

/-- For every output of the kernel, whatever its inputs and the buffers held: a later
collection yields the records of the file, and ends with status OK, exactly if header, entries
and footer fill whole pages. -/
theorem recollected_iff (hcrc : crc.Agrees) {inputs : List KernelInput} {data key : Mem} {out : KernelOutput}
    (hout : gcKernel crc inputs datas bitmaps data key = some out) (hsize : out.dataSize < 2 ^ 64)
    (env : Env) (fileNumber : UInt64) (bitmap : BitMap) :
    (∃ rs, Holds out rs) ∧ ∀ rs, Holds out rs → (Recollected env fileNumber bitmap out rs ↔
      4096 ∣ kBlobMaxHeaderSize + (entries rs).length + kBlobFooterSize) := by
  have hbound : (KernelOutput.file out).length < 2 ^ 64 := by rwa [KernelOutput.file, slice_length]
  refine ⟨gcKernel_holds hcrc hout, fun rs hholds => ?_⟩
  rw [← footerOffset_eq_iff]
  constructor
  · intro hrecollected
    by_contra hne
    have hlt := lt_of_le_of_ne (le_footerOffset (kBlobMaxHeaderSize + (entries rs).length)) (Ne.symm hne)
    exact hholds.not_recollected env fileNumber bitmap hbound hlt hrecollected
  · exact hholds.recollected env fileNumber bitmap hbound

/-- With intact inputs the records are those that survive. -/
theorem holds_survivors (hcrc : crc.Agrees) {fs : List DeviceInput}
    (hstaged : ∀ f ∈ fs, ∀ r ∈ f.file.records, Staged r) (hload : Loaded datas bitmaps 0 0 fs)
    (data key : Mem) :
    ∃ out, gcKernel crc (fs.map DeviceInput.args) datas bitmaps data key = some out ∧
      Holds out ((survivors (fs.map (·.toGcInput)) 0).map (·.record)) :=
  ⟨_, gcKernel_loaded hcrc hstaged hload data key, holds_finished hcrc (allStaged_survivors hstaged) data key⟩

theorem valueAgrees : Checksum.Agrees (fun _ bs => Crc32c.value bs) := fun _ => rfl

theorem oneRecord_covered : [(⟨[1], replicate 4039 0⟩ : BlobRecord)].length ≤ 1 := le_rfl

/-- A file of one record, which fills a page of the output with header and footer. -/
def fullPage : DeviceInput where
  file := ⟨kVersion1, [⟨[1], replicate 4039 0⟩], kVersion1_valid⟩
  bitmap := ⟨1, [0], oneBit_size⟩
  covers := oneRecord_covered
  dataLength := 2 ^ 20

theorem Holds.dataSize_eq {rs : List BlobRecord} (h : Holds out rs) :
    out.dataSize = footerOffset (kBlobMaxHeaderSize + (entries rs).length) + kBlobFooterSize := by
  have hlen := h.file_length
  rwa [KernelOutput.file, slice_length] at hlen

theorem recollected_fullPage :
    ∃ out, gcKernel (fun _ bs => Crc32c.value bs) [fullPage.args] (ofBytes fullPage.file.image)
        (ofBytes fullPage.bitmap.bits) (fun _ => 0xff) (fun _ => 0xff) = some out ∧
      ∀ env fileNumber bitmap,
        Recollected env fileNumber bitmap out [⟨[1], replicate 4039 0⟩] := by
  have hstaged : ∀ f ∈ [fullPage], ∀ r ∈ f.file.records, Staged r := by
    intro f hf r hr
    obtain rfl := mem_singleton.mp hf
    obtain rfl := mem_singleton.mp hr
    exact ⟨by decide, by rw [length_replicate]; decide⟩
  have hload : Loaded (ofBytes fullPage.file.image) (ofBytes fullPage.bitmap.bits) 0 0 [fullPage] :=
    ⟨hasAt_ofBytes _, hasAt_ofBytes _, trivial⟩
  obtain ⟨out, hout, hholds⟩ := holds_survivors valueAgrees hstaged hload (fun _ => 0xff) (fun _ => 0xff)
  have hsurvivors : (survivors ([fullPage].map (·.toGcInput)) 0).map (·.record) =
      [⟨[1], replicate 4039 0⟩] := rfl
  rw [hsurvivors] at hholds
  have hlength : (entries [⟨[1], replicate 4039 0⟩]).length = 4052 := by
    rw [entries_cons, entries_nil, append_nil, plainEntry_length, BlobRecord.encodeTo,
      putLengthPrefixedSlice, putLengthPrefixedSlice]
    simp only [length_append, length_replicate]
    rfl
  have hsize : out.dataSize < 2 ^ 64 := by
    rw [hholds.dataSize_eq, hlength]
    decide
  refine ⟨out, hout, fun env fileNumber bitmap => ?_⟩
  obtain ⟨-, hiff⟩ := recollected_iff valueAgrees hout hsize env fileNumber bitmap
  refine (hiff _ hholds).mpr ?_
  rw [hlength]
  decide

/-- The padding is not a record: on a file with one record of a few bytes the iterator does
not end with status OK after it. -/
theorem padding_taken_for_record :
    ∃ out, gcKernel (fun _ bs => Crc32c.value bs) [twoRecords.args] (ofBytes twoRecords.file.image)
        (ofBytes twoRecords.bitmap.bits) (fun _ => 0) (fun _ => 0) = some out ∧
      out.rewriteKeyNum = 1 ∧
      ∀ env fileNumber bitmap, ¬ Recollected env fileNumber bitmap out [⟨[3], [4, 5]⟩] := by
  have hstaged : ∀ f ∈ [twoRecords], ∀ r ∈ f.file.records, Staged r := by
    intro f hf r hr
    obtain rfl := mem_singleton.mp hf
    rcases mem_cons.mp hr with rfl | hr
    · exact ⟨by decide, by decide⟩
    · obtain rfl := mem_singleton.mp hr
      exact ⟨by decide, by decide⟩
  have hload : Loaded (ofBytes twoRecords.file.image) (ofBytes twoRecords.bitmap.bits) 0 0 [twoRecords] :=
    ⟨hasAt_ofBytes _, hasAt_ofBytes _, trivial⟩
  obtain ⟨out, hout, hholds⟩ := holds_survivors valueAgrees hstaged hload (fun _ => 0) (fun _ => 0)
  have hsurvivors : (survivors ([twoRecords].map (·.toGcInput)) 0).map (·.record) = [⟨[3], [4, 5]⟩] := rfl
  rw [hsurvivors] at hholds
  have hlength : (entries [⟨[3], [4, 5]⟩]).length = 14 := by decide
  refine ⟨out, hout, hholds.count, fun env fileNumber bitmap => ?_⟩
  refine hholds.not_recollected env fileNumber bitmap ?_ ?_
  · rw [hholds.file_length, hlength]
    decide
  · rw [hlength]
    decide

end TitanGC.Kernel.Recollection
