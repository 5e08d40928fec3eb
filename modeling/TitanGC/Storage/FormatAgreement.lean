import TitanGC.Storage.BlobFileReader
import TitanGC.Storage.IntactFiles

/-!
# Builder, reader and iterator on one file

A list of records is added to a builder and the file is finished. The iterator walks
over the entries, whose sizes it reads from their headers, up to an end that it counts
backwards from the footer; the reader takes the handles that the builder gave out. All
three see the same records exactly if every length fits the 32 bits it is written in.
-/

namespace TitanGC.Storage.FormatAgreement

open Lib.ByteCoding Lib.Memory List Format.Coding Format.BlobFormat Format.BlobFile
open Storage.Builder (BitMap)
open Iterator Writer Placement Storage.Reader
open IntactFiles (sub64_of_le)
open BlobFileIterator

/-! ## Walking over entries -/

variable (c : Compression)

theorem encodeRecord_length (r : BlobRecord) :
    (encodeRecord c r).length = kRecordHeaderSize + (c.compress r.encodeTo).1.length := by
  rw [encodeRecord, encodeSlice, length_append, entryHeader_length]

theorem length_le_encoded (rs : List BlobRecord) : rs.length ≤ (encoded c rs).length := by
  induction rs with
  | nil => exact Nat.zero_le _
  | cons r rs ih =>
    rw [encoded_cons, length_append, length_cons, encodeRecord_length, kRecordHeaderSize]
    omega

/-- The entry that stands at an offset is read if its lengths fit. -/
theorem readRecord_at (env : Env) (it : BlobFileIterator) (c : Compression) {bytes before after : Bytes}
    {r : BlobRecord} (hfile : it.file = .ofBytes bytes)
    (hbytes : before ++ encodeRecord c r ++ after = bytes)
    (hdecode : decodeEntry (env.compression it.uncompressionDict) env.beyond (encodeRecord c r) = .ok r)
    (hstored : (c.compress r.encodeTo).1.length < 2 ^ 32) :
    it.readRecord env before.length = .ok (r, (encodeRecord c r).length) := by
  have hheader := entryHeader_length (c.compress r.encodeTo).1 (c.compress r.encodeTo).2
  have hentry : encodeRecord c r = entryHeader (c.compress r.encodeTo).1 (c.compress r.encodeTo).2 ++
      (c.compress r.encodeTo).1 := rfl
  have hhead : it.file before.length kRecordHeaderSize =
      .ok (entryHeader (c.compress r.encodeTo).1 (c.compress r.encodeTo).2) := by
    rw [hfile]
    refine read_at before _ ((c.compress r.encodeTo).1 ++ after) ?_ rfl hheader.symm
    rw [← hbytes, hentry]
    simp only [append_assoc]
  have hbody : it.file (before.length + kRecordHeaderSize) (c.compress r.encodeTo).1.length =
      .ok (c.compress r.encodeTo).1 := by
    rw [hfile]
    refine read_at (before ++ entryHeader (c.compress r.encodeTo).1 (c.compress r.encodeTo).2) _
      after ?_ ?_ rfl
    · rw [← hbytes, hentry]
      simp only [append_assoc]
    · rw [length_append, hheader]
  have hheaderDecode := decodeHeader_entryHeader (c.compress r.encodeTo).1 (c.compress r.encodeTo).2 []
  rw [append_nil] at hheaderDecode
  have hsize : (UInt32.ofNat (c.compress r.encodeTo).1.length).toNat = (c.compress r.encodeTo).1.length :=
    UInt32.toNat_ofNat_of_lt' hstored
  rw [decodeEntry, encodeRecord, encodeSlice, decodeHeader_entryHeader] at hdecode
  simp only [readRecord, hhead, hheaderDecode, hsize, hbody, hdecode, encodeRecord_length]

/-- An iterator that stands at an offset, before any of the entries from there on. -/
structure At (it : BlobFileIterator) (env : Env) (c : Compression) (rs : List BlobRecord) : Prop where
  status : it.status = none
  reads : ∀ before r after, rs = before ++ r :: after →
    it.readRecord env (it.iterateOffset + (encoded c before).length) = .ok (r, (encodeRecord c r).length)
  room : it.iterateOffset + (encoded c rs).length ≤ it.endOfBlobRecord
  count : it.iterateIndex + rs.length ≤ it.fileEntries

/-- The iterator has yielded entries for the records and stands behind them. -/
structure Walked (env : Env) (c : Compression) (it : BlobFileIterator) (rs : List BlobRecord)
    (l : List Entry) (t : BlobFileIterator) : Prop where
  status : t.status = none
  file : t.file = it.file
  dict : t.uncompressionDict = it.uncompressionDict
  finish : t.endOfBlobRecord = it.endOfBlobRecord
  fileEntries : t.fileEntries = it.fileEntries
  offset : t.iterateOffset = it.iterateOffset + (encoded c rs).length
  index : t.iterateIndex = it.iterateIndex + rs.length
  records : l.map Entry.record = rs
  indexes : l.map Entry.index =
    (handles c it.iterateOffset it.iterateIndex rs).map fun h =>
      { fileNumber := it.fileNumber, blobHandle := h }
  leads : (BlobFileIterator.source env).Leads (it.prefetchAndGet env) l (t.prefetchAndGet env)

def advanced (it : BlobFileIterator) (c : Compression) (r : BlobRecord) : BlobFileIterator :=
  { it with
    status := none
    curBlobRecord := r
    curRecordOffset := it.iterateOffset
    curRecordSize := (encodeRecord c r).length
    curRecordIndex := it.iterateIndex
    iterateIndex := it.iterateIndex + 1
    iterateOffset := it.iterateOffset + (encodeRecord c r).length
    valid := true }

section

variable {env : Env} {c : Compression} {it : BlobFileIterator} {r : BlobRecord} {rs : List BlobRecord}

theorem At.prefetchAndGet_cons (h : At it env c (r :: rs)) : it.prefetchAndGet env = advanced it c r := by
  have hroom := h.room
  have hcount := h.count
  have hread := h.reads [] r rs rfl
  rw [encoded_cons, length_append, encodeRecord_length, kRecordHeaderSize] at hroom
  rw [length_cons] at hcount
  rw [encoded_nil, length_nil, Nat.add_zero] at hread
  rw [prefetchAndGet, if_neg (by omega), getBlobRecord, hread]
  rfl

theorem At.tail (h : At it env c (r :: rs)) : At (advanced it c r) env c rs where
  status := rfl
  reads before r' after hsplit := by
    have hread := h.reads (r :: before) r' after (by rw [hsplit]; rfl)
    rw [encoded_cons, length_append, ← Nat.add_assoc] at hread
    exact hread
  room := by
    have hroom := h.room
    rw [encoded_cons, length_append, ← Nat.add_assoc] at hroom
    exact hroom
  count := by
    have hcount := h.count
    rw [length_cons, Nat.add_comm rs.length, ← Nat.add_assoc] at hcount
    exact hcount

theorem source_item_advanced (it : BlobFileIterator) (r : BlobRecord) :
    (BlobFileIterator.source env).item (advanced it c r) = some ((advanced it c r).entry env) := rfl

/-- The iterator walks over the entries it stands before. -/
theorem At.walk (h : At it env c rs) : ∃ l t, Walked env c it rs l t := by
  induction rs generalizing it with
  | nil =>
    refine ⟨[], it, h.status, rfl, rfl, rfl, rfl, ?_, ?_, rfl, rfl, .refl⟩
    · rw [encoded_nil, length_nil, Nat.add_zero]
    · rw [length_nil, Nat.add_zero]
  | cons r rs ih =>
    obtain ⟨l, t, hwalked⟩ := ih h.tail
    refine ⟨(advanced it c r).entry env :: l, t, hwalked.status, hwalked.file, hwalked.dict,
      hwalked.finish, hwalked.fileEntries, ?_, ?_, ?_, ?_, ?_⟩
    · rw [hwalked.offset, encoded_cons, length_append, ← Nat.add_assoc]
      rfl
    · rw [hwalked.index, length_cons, Nat.add_comm rs.length, ← Nat.add_assoc]
      rfl
    · rw [map_cons, hwalked.records]
      rfl
    · rw [map_cons, hwalked.indexes]
      rfl
    · rw [h.prefetchAndGet_cons]
      exact .step (source_item_advanced it r) hwalked.leads

/-- With nothing behind the entries the iterator ends there. -/
theorem Walked.drains_of_end {l : List Entry} {t : BlobFileIterator} (h : Walked env c it rs l t)
    (hend : it.endOfBlobRecord = it.iterateOffset + (encoded c rs).length) :
    (BlobFileIterator.source env).Drains (it.prefetchAndGet env) l { t with valid := false } := by
  have hstop : t.prefetchAndGet env = { t with valid := false } := by
    rw [prefetchAndGet, if_pos (.inl (by rw [h.finish, h.offset, hend]))]
  have hleads := h.leads
  rw [hstop] at hleads
  have hdrains := hleads.drains (.done rfl)
  rwa [append_nil] at hdrains

end

/-! ## The iterator on a finished file -/

def iteratorEnv (env : ReaderEnv) (uninitialized : Bool) : Env where
  compression := env.compression
  initUncompressionDict := initUncompressionDict env
  beyond := env.beyond
  uninitialized := uninitialized

def openIterator (bytes : Bytes) (fileNumber : UInt64) (bitmap : BitMap) : BlobFileIterator where
  file := .ofBytes bytes
  fileNumber := fileNumber
  fileSize := bytes.length
  bitmap := bitmap

/-- Whatever pads the handle. -/
theorem metaIndexHandle_sealFooter (h : BlockHandle) (padding : Bytes) :
    metaIndexHandle (sealFooter (h.encodeTo ++ padding)) = h := by
  rw [metaIndexHandle, sealFooter]
  simp only [append_assoc, BlockHandle.decodeFrom_encodeTo]

theorem footerStatus_sealFooter {h : BlockHandle} {padding : Bytes}
    (hlen : (h.encodeTo ++ padding).length = kBlobFooterSize - 12) :
    footerStatus (sealFooter (h.encodeTo ++ padding)) = none := by
  have hdecode := BlobFileFooter.decodeFrom_sealFooter h hlen []
  rw [append_nil] at hdecode
  rw [footerStatus, hdecode]

variable (f : BlobFileFooter)

theorem metaIndexHandle_footer : metaIndexHandle f.encodeTo = f.metaIndexHandle := by
  rw [(padded_footer f).1]
  exact metaIndexHandle_sealFooter ..

theorem footerStatus_footer : footerStatus f.encodeTo = none := by
  obtain ⟨heq, hlen⟩ := padded_footer f
  rw [heq]
  exact footerStatus_sealFooter hlen

section

variable {o : BuilderOptions} {e : Env} {it : BlobFileIterator} {bytes body footer : Bytes}

/-- `Init` finds the header in front and the footer at the end. -/
theorem doInit_of_parts (hbytes : bytes = (headerOf o kVersion2).encodeTo ++ body ++ footer)
    (hfile : it.file = .ofBytes bytes) (hsize : it.fileSize = bytes.length)
      (hlen : footer.length = kBlobFooterSize) (hbound : it.fileSize < 2 ^ 64) :
    it.doInit e = it.initRecords e (headerOf o kVersion2) footer := by
  rw [hbytes, length_append, hlen] at hsize
  rw [hbytes] at hfile
  have hheader : it.file 0 12 = .ok (headerOf o kVersion2).encodeTo := by
    rw [hfile, append_assoc]
    exact read_headerOf _
  have hfooter : it.file (sub64 it.fileSize kBlobFooterSize) kBlobFooterSize = .ok footer := by
    rw [sub64_of_le (by rw [hsize]; exact Nat.le_add_left ..) hbound, hfile]
    refine read_at ((headerOf o kVersion2).encodeTo ++ body) _ [] (append_nil _) ?_ hlen.symm
    rw [hsize, Nat.add_sub_cancel]
  simp only [doInit, hheader, decodeInto_headerOf, hfooter]

theorem headerOf_size : (headerOf o kVersion2).size = 12 := by
  rw [BlobFileHeader.size, headerOf]
  rfl

end

theorem blockTrailer_length (block : Bytes) : (BlobFileBuilder.blockTrailer block).length = 5 := by
  rw [BlobFileBuilder.blockTrailer, length_cons, putFixed32_length]

variable {o : BuilderOptions} {dict : Bytes} {rs : List BlobRecord} (w : WithDictionary o dict rs)

/-- The length of a file with a dictionary. -/
theorem length_of_dictionary :
    (image o dict rs).length = 12 + (encoded (o.compression dict) rs).length + (dict.length + 5) +
      (w.index.length + 5) + 32 := by
  rw [w.image_eq]
  simp only [length_append, headerOf_length, blockTrailer_length, footer_encodeTo_length,
    kBlobFooterSize, Nat.add_assoc]

/-- The length of a file without one. -/
theorem length_of_plain (hdict : ¬ o.maxDictBytes > 0) (dict : Bytes) (rs : List BlobRecord) :
    (image o dict rs).length = 12 + (encoded (o.compression dict) rs).length + kBlobFooterSize := by
  rw [image_of_plain hdict]
  simp only [length_append, headerOf_length, footer_encodeTo_length]

/-- The end of the records is counted back over footer, meta index and dictionary. -/
theorem recordsEnd_of_dictionary (hsize : (image o dict rs).length < 2 ^ 64) :
    sub64 (recordsEnd (image o dict rs).length w.footer.metaIndexHandle)
      (dict.length + kBlockTrailerSize) = 12 + (encoded (o.compression dict) rs).length := by
  have hlen := length_of_dictionary w
  have hindex : w.footer.metaIndexHandle.size.toNat = w.index.length := by
    rw [w.handle]
    exact toNat_ofNat_of_le hsize (by rw [hlen]; omega)
  have hnull : w.footer.metaIndexHandle ≠ ({} : BlockHandle) := by
    intro hnone
    have hoffset := congrArg (fun h => h.offset.toNat) (w.handle.symm.trans hnone)
    simp only [length_append, headerOf_length, blockTrailer_length] at hoffset
    rw [toNat_ofNat_of_le hsize (by rw [hlen]; omega)] at hoffset
    have hzero : (0 : UInt64).toNat = 0 := rfl
    omega
  rw [recordsEnd, if_neg hnull, hindex]
  generalize (image o dict rs).length = size at hlen hsize
  generalize (encoded (o.compression dict) rs).length = records at hlen
  have hindexEnd : sub64 size kBlobFooterSize = 12 + records + (dict.length + 5) + (w.index.length + 5) := by
    rw [kBlobFooterSize, sub64_of_le (by omega) hsize, hlen, Nat.add_sub_cancel]
  have hdictEnd : sub64 (12 + records + (dict.length + 5) + (w.index.length + 5)) (w.index.length + 5) =
      12 + records + (dict.length + 5) := by
    rw [sub64_of_le (by omega) (by omega), Nat.add_sub_cancel]
  rw [hindexEnd, kBlockTrailerSize, hdictEnd, sub64_of_le (by omega) (by omega), Nat.add_sub_cancel]

/-- `Init` finds the dictionary and where the records end. -/
theorem doInit_image {env : ReaderEnv} (hsame : SameLibraries o env)
    (hplain : o.maxDictBytes = 0 → dict = []) (hsize : (image o dict rs).length < 2 ^ 64)
    (uninitialized : Bool) {it : BlobFileIterator} (hfile : it.file = .ofBytes (image o dict rs))
    (hfileSize : it.fileSize = (image o dict rs).length) (hfresh : it.uncompressionDict = []) :
    it.doInit (iteratorEnv env uninitialized) = (true, { it with
      status := none
      endOfBlobRecord := 12 + (encoded (o.compression dict) rs).length
      headerSize := 12
      uncompressionDict := dict
      init := true }) := by
  have hbound : it.fileSize < 2 ^ 64 := by rw [hfileSize]; exact hsize
  by_cases hdict : o.maxDictBytes > 0
  · have w := withDictionary hdict dict rs
    have hread : (iteratorEnv env uninitialized).initUncompressionDict ⟨w.footer.metaIndexHandle⟩ it.file =
        .ok dict := by
      rw [hfile]
      exact initUncompressionDict_image hsame hdict w hsize
    rw [doInit_of_parts w.image_eq hfile hfileSize (footer_encodeTo_length _) hbound]
    simp only [initRecords, metaIndexHandle_footer, headerOf_flag.mpr hdict, not_false_eq_true,
      ↓reduceIte, ne_eq, hread, hfileSize, recordsEnd_of_dictionary w hsize, headerOf_size]
  · have hend : recordsEnd (image o dict rs).length {} =
        12 + (encoded (o.compression dict) rs).length := by
      have hlen := length_of_plain hdict dict rs
      rw [recordsEnd, if_pos rfl, sub64_of_le (by omega) hsize, hlen, Nat.add_sub_cancel]
    have hnone : it.uncompressionDict = dict := hfresh.trans (hplain (by omega)).symm
    rw [doInit_of_parts (image_of_plain hdict dict rs) hfile hfileSize (footer_encodeTo_length _) hbound]
    simp only [initRecords, metaIndexHandle_footer, footerStatus_footer,
      if_neg (mt headerOf_flag.mp hdict), hfileSize, hend, headerOf_size, hnone]

/-! ## A file of records -/

structure Added where
  record : BlobRecord
  ctx : BlobRecordContext
  hasValue : ctx.hasValue = false

def addAll (o : BuilderOptions) : BlobFileBuilder → List Added → BlobFileBuilder × List BlobRecordContext
  | b, [] => (b, [])
  | b, x :: xs =>
    let (b, out) := b.add o x.record x.ctx
    let (b, out') := addAll o b xs
    (b, out ++ out')

def build (o : BuilderOptions) (file : WritableFile) (xs : List Added) :
    BlobFileBuilder × List BlobRecordContext :=
  let (b, out) := addAll o (.new o file kVersion2) xs
  let (b, out') := b.finish o
  (b, out ++ out')

def Added.item (x : Added) : Item := ⟨x.ctx, some x.record, x.hasValue⟩

theorem records_items (xs : List Added) : records (xs.map Added.item) = xs.map Added.record := by
  induction xs with
  | nil => rfl
  | cons x xs ih =>
    rw [map_cons, map_cons, ← ih]
    rfl

/-- What is handed out and what waits is what was added. -/
theorem addAll_builds {b : BlobFileBuilder} {out : List BlobRecordContext}
    {handed waiting : List Item} (h : Builds o b out handed waiting) (xs : List Added) :
    ∃ handed' waiting', handed' ++ waiting' = handed ++ waiting ++ xs.map Added.item ∧
      Builds o (addAll o b xs).1 (out ++ (addAll o b xs).2) handed' waiting' := by
  induction xs generalizing b out handed waiting with
  | nil =>
    refine ⟨handed, waiting, (append_nil _).symm, ?_⟩
    rw [addAll, append_nil]
    exact h
  | cons x xs ih =>
    obtain ⟨new, rest, hsplit, hadd⟩ := h.add x.record x.hasValue
    obtain ⟨handed', waiting', hall, hbuilds⟩ := ih hadd
    refine ⟨handed', waiting', ?_, ?_⟩
    · rw [hall, append_assoc handed new rest, ← hsplit, map_cons]
      simp only [Added.item, append_assoc, singleton_append]
    · rw [append_assoc] at hbuilds
      exact hbuilds

/-- Without a failure the file is finished, and every context has come out. -/
theorem build_finished {file : WritableFile} (hquiet : Quiet file) (hempty : file.bytes = [])
    (hzstd : 0 < o.maxDictBytes → o.zstdTooOld = false) (xs : List Added) :
    Finished o (build o file xs).1 (build o file xs).2 (xs.map Added.item) := by
  obtain ⟨handed, waiting, hall, hbuilds⟩ := addAll_builds (new_builds hquiet hempty hzstd) xs
  rw [nil_append, nil_append] at hall
  have hfinish := hbuilds.finish
  rw [hall] at hfinish
  exact hfinish

variable {xs : List Added}

theorem build_bytes {file : WritableFile}
    (h : Finished o (build o file xs).1 (build o file xs).2 (xs.map Added.item)) :
    (build o file xs).1.file.bytes = image o (build o file xs).1.compressionDict (xs.map Added.record) := by
  rw [h.bytes, h.version, records_items, image]

theorem place_handles (offset index : Nat) (xs : List Added) :
    (place c offset index (xs.map Added.item)).map (fun ctx => ctx.newBlobIndex.blobHandle) =
      handles c offset index (xs.map Added.record) := by
  induction xs generalizing offset index with
  | nil => rfl
  | cons x xs ih =>
    rw [map_cons, map_cons, handles, ← ih]
    rfl

theorem build_handles {file : WritableFile}
    (h : Finished o (build o file xs).1 (build o file xs).2 (xs.map Added.item)) :
    (build o file xs).2.map (fun ctx => ctx.newBlobIndex.blobHandle) =
      handles (o.compression (build o file xs).1.compressionDict) 12 0 (xs.map Added.record) := by
  rw [h.out_eq, h.version, headerOf_length, place_handles]

/-! ## Agreement -/

/-- Iterating over a file ends with status OK and has yielded the records, each at the handle
that the builder gave out; and the reader finds each record at its handle. -/
structure Agrees (env : ReaderEnv) (uninitialized : Bool) (fileNumber : UInt64) (bitmap : BitMap)
    (bytes : Bytes) (contexts : List BlobRecordContext) (rs : List BlobRecord) : Prop where
  iterates : ∃ l t, (BlobFileIterator.source (iteratorEnv env uninitialized)).Drains
      ((openIterator bytes fileNumber bitmap).seekToFirst (iteratorEnv env uninitialized)) l t ∧
    t.status = none ∧ l.map Entry.record = rs ∧
    l.map (fun e => e.index.blobHandle) = contexts.map fun ctx => ctx.newBlobIndex.blobHandle
  indexes : contexts.map (fun ctx => ctx.newBlobIndex.blobHandle.index) =
    (List.range rs.length).map UInt64.ofNat
  reads : List.Forall₂ (fun ctx r => getRecord env bytes ctx.newBlobIndex.blobHandle = .ok r) contexts rs

/-- The lengths of key, value and stored record fit the 32 bits they are written in. -/
def Storable (c : Compression) (r : BlobRecord) : Prop :=
  r.Fits ∧ (c.compress r.encodeTo).1.length < 2 ^ 32

theorem handles_index (offset index : Nat) (rs : List BlobRecord) :
    (handles c offset index rs).map BlobHandle.index = (List.range' index rs.length).map UInt64.ofNat := by
  induction rs generalizing offset index with
  | nil => rfl
  | cons r rs ih =>
    rw [handles, map_cons, ih, length_cons, range'_succ, map_cons]

/-- Each handle is that of the record at its place. -/
theorem handles_split (offset index : Nat) (rs : List BlobRecord) :
    List.Forall₂ (fun h r => ∃ before after, rs = before ++ r :: after ∧
      h = ⟨UInt64.ofNat (offset + (encoded c before).length), UInt64.ofNat (encodeRecord c r).length,
        UInt64.ofNat (index + before.length)⟩) (handles c offset index rs) rs := by
  induction rs generalizing offset index with
  | nil => exact .nil
  | cons r rs ih =>
    refine .cons ⟨[], rs, rfl, rfl⟩ ((ih _ _).imp fun h r' hsplit => ?_)
    obtain ⟨before, after, rfl, rfl⟩ := hsplit
    refine ⟨r :: before, after, rfl, ?_⟩
    rw [encoded_cons, length_append, length_cons, Nat.add_assoc, Nat.add_assoc,
      Nat.add_comm 1]

theorem forall₂_right_iff {α β : Type} {P : β → Prop} {l : List α} {l' : List β}
    (hlen : l.length = l'.length) : List.Forall₂ (fun _ b => P b) l l' ↔ ∀ b ∈ l', P b := by
  induction l generalizing l' with
  | nil =>
    obtain rfl := eq_nil_of_length_eq_zero hlen.symm
    exact ⟨fun _ b hb => absurd hb not_mem_nil, fun _ => .nil⟩
  | cons a l ih =>
    cases l' with
    | nil => cases hlen
    | cons b l' =>
      rw [forall₂_cons, forall_mem_cons, ih (Nat.succ.inj hlen)]

section

variable {o : BuilderOptions} {env : ReaderEnv} {dict : Bytes} {rs : List BlobRecord}

section

variable (hsame : SameLibraries o env) (hlossless : (o.compression dict).Lossless)
include hsame hlossless

/-- The reader finds the records exactly if they can be stored. -/
theorem reads_iff (hplain : o.maxDictBytes = 0 → dict = [])
    (hsize : (image o dict rs).length < 2 ^ 64) :
    List.Forall₂ (fun h r => getRecord env (image o dict rs) h = .ok r)
      (handles (o.compression dict) 12 0 rs) rs ↔ ∀ r ∈ rs, Storable (o.compression dict) r := by
  have hsplit := handles_split (o.compression dict) 12 0 rs
  have hread : ∀ h r, (∃ before after, rs = before ++ r :: after ∧
      h = ⟨UInt64.ofNat (12 + (encoded (o.compression dict) before).length),
        UInt64.ofNat (encodeRecord (o.compression dict) r).length, UInt64.ofNat (0 + before.length)⟩) →
      (getRecord env (image o dict rs) h = .ok r ↔ Storable (o.compression dict) r) := by
    rintro h r ⟨before, after, hrs, rfl⟩
    have hget := getRecord_image hsame hplain hrs hsize (UInt64.ofNat (0 + before.length))
    rw [headerOf_length] at hget
    rw [hget]
    exact decodeEntry_encodeRecord_iff hlossless r env.beyond
  rw [← forall₂_right_iff hsplit.length_eq]
  constructor
  · exact fun h => hsplit.mp (fun h r hs hr => (hread h r hs).mp hr) h
  · exact fun h => hsplit.mp (fun h r hs hr => (hread h r hs).mpr hr) h

/-- An initialised iterator over a finished file. -/
def ready (o : BuilderOptions) (dict : Bytes) (rs : List BlobRecord) (fileNumber : UInt64)
    (bitmap : BitMap) : BlobFileIterator :=
  { openIterator (image o dict rs) fileNumber bitmap with
    status := none
    endOfBlobRecord := 12 + (encoded (o.compression dict) rs).length
    headerSize := 12
    uncompressionDict := dict
    init := true }

theorem ready_at (hsize : (image o dict rs).length < 2 ^ 64)
    (hstorable : ∀ r ∈ rs, Storable (o.compression dict) r) (uninitialized : Bool)
    (fileNumber : UInt64) (bitmap : BitMap) :
    At (ready o dict rs fileNumber bitmap).rewind (iteratorEnv env uninitialized)
      (o.compression dict) rs where
  status := rfl
  reads before r after hsplit := by
    obtain ⟨rest, himage⟩ := image_at (o := o) dict hsplit
    have hstored := hstorable r (by rw [hsplit]; exact mem_append_right _ mem_cons_self)
    have hread := readRecord_at (iteratorEnv env uninitialized)
      (ready o dict rs fileNumber bitmap).rewind (o.compression dict) rfl himage (by
        change decodeEntry (env.compression dict) env.beyond _ = _
        rw [hsame.compression]
        exact (decodeEntry_encodeRecord_iff hlossless r env.beyond).mpr hstored) hstored.2
    rw [length_append, headerOf_length] at hread
    exact hread
  room := le_refl _
  count := by
    have hcount := length_le_encoded (o.compression dict) rs
    have hlen : (encoded (o.compression dict) rs).length ≤ (image o dict rs).length := by
      rw [image, length_append, length_append]
      exact (Nat.le_add_left _ _).trans (Nat.le_add_right _ _)
    change 0 + rs.length ≤ 2 ^ 64 - 1
    omega

/-- The iterator yields the records if they can be stored. -/
theorem iterates_of_storable (hplain : o.maxDictBytes = 0 → dict = [])
    (hsize : (image o dict rs).length < 2 ^ 64)
    (hstorable : ∀ r ∈ rs, Storable (o.compression dict) r) (uninitialized : Bool)
    (fileNumber : UInt64) (bitmap : BitMap) :
    ∃ l t, (BlobFileIterator.source (iteratorEnv env uninitialized)).Drains
        ((openIterator (image o dict rs) fileNumber bitmap).seekToFirst (iteratorEnv env uninitialized)) l t ∧
      t.status = none ∧ l.map Entry.record = rs ∧
      l.map (fun e => e.index.blobHandle) = handles (o.compression dict) 12 0 rs := by
  have hinit : (openIterator (image o dict rs) fileNumber bitmap).doInit (iteratorEnv env uninitialized) =
      (true, ready o dict rs fileNumber bitmap) :=
    doInit_image hsame hplain hsize uninitialized rfl rfl rfl
  have hseek : (openIterator (image o dict rs) fileNumber bitmap).seekToFirst
    (iteratorEnv env uninitialized) =
      (ready o dict rs fileNumber bitmap).rewind.prefetchAndGet (iteratorEnv env uninitialized) := by
    have hfresh : (openIterator (image o dict rs) fileNumber bitmap).init = false := rfl
    simp only [BlobFileIterator.seekToFirst, hfresh, hinit, Bool.false_eq_true, ↓reduceIte]
  obtain ⟨l, t, hwalked⟩ :=
    (ready_at hsame hlossless hsize hstorable uninitialized fileNumber bitmap).walk
  have hindexes := congrArg (List.map BlobIndex.blobHandle) hwalked.indexes
  rw [map_map, map_map] at hindexes
  refine ⟨l, { t with valid := false }, ?_, hwalked.status, hwalked.records, hindexes.trans (map_id _)⟩
  rw [hseek]
  exact hwalked.drains_of_end rfl

end

end

section

variable {o : BuilderOptions} {env : ReaderEnv} (hsame : SameLibraries o env)
  (hlossless : ∀ dict, (o.compression dict).Lossless) {file : WritableFile} (hquiet : Quiet file)
  (hempty : file.bytes = []) (hzstd : 0 < o.maxDictBytes → o.zstdTooOld = false) (xs : List Added)
  (hsize : (build o file xs).1.file.bytes.length < 2 ^ 64)

include hsame hlossless hquiet hempty hzstd hsize

/-- The reader finds the records at the handles that came out exactly if they can be stored. -/
theorem build_reads_iff :
    List.Forall₂ (fun ctx r =>
      getRecord env (build o file xs).1.file.bytes ctx.newBlobIndex.blobHandle = .ok r)
        (build o file xs).2 (xs.map Added.record) ↔
      ∀ x ∈ xs, Storable (o.compression (build o file xs).1.compressionDict) x.record := by
  have hfinished := build_finished hquiet hempty hzstd xs
  rw [build_bytes hfinished] at hsize ⊢
  have hreads := reads_iff hsame (hlossless _) hfinished.plainDict hsize
  rw [← build_handles hfinished, forall₂_map_left_iff, forall_mem_map] at hreads
  exact hreads

/-- The file is smaller than a 64-bit size can say. Where no append fails, builder, iterator
and reader agree exactly if every record can be stored. -/
theorem format_agrees_iff (uninitialized : Bool) (fileNumber : UInt64) (bitmap : BitMap) :
    Agrees env uninitialized fileNumber bitmap (build o file xs).1.file.bytes (build o file xs).2
        (xs.map Added.record) ↔
      ∀ x ∈ xs, Storable (o.compression (build o file xs).1.compressionDict) x.record := by
  have hreads := build_reads_iff hsame hlossless hquiet hempty hzstd xs hsize
  have hfinished := build_finished hquiet hempty hzstd xs
  have hhandles := build_handles hfinished
  constructor
  · exact fun h => hreads.mp h.reads
  · intro h
    refine ⟨?_, ?_, hreads.mpr h⟩
    · rw [build_bytes hfinished] at hsize ⊢
      rw [hhandles]
      exact iterates_of_storable hsame (hlossless _) hfinished.plainDict hsize (forall_mem_map.mpr h)
        uninitialized fileNumber bitmap
    · have hindexes := congrArg (List.map BlobHandle.index) hhandles
      rw [handles_index, ← range_eq_range', map_map] at hindexes
      exact hindexes

end

def rawOptions (maxDictBytes : Nat) : BuilderOptions where
  compression _ := .none
  maxDictBytes := maxDictBytes
  zstdMaxTrainBytes := 0
  zstdTooOld := false
  trainDictionary samples n := samples.flatten.take n
  metaIndexBlock handle := (handle.map BlockHandle.encodeTo).getD []
  compare _ _ := .eq

def rawEnv : ReaderEnv where
  compression _ := .none
  findDictionary block := (BlockHandle.decodeFrom block).map Prod.fst
  zstdTooOld := false
  beyond _ := 0

variable (maxDictBytes : Nat)

theorem rawEnv_same : SameLibraries (rawOptions maxDictBytes) rawEnv := by
  refine ⟨rfl, fun _ => rfl, fun handle => ?_⟩
  have hdecode := BlockHandle.decodeFrom_encodeTo handle []
  rw [append_nil] at hdecode
  change (BlockHandle.decodeFrom handle.encodeTo).map Prod.fst = _
  rw [hdecode]
  rfl

theorem lossless_none : Compression.none.Lossless := by
  refine ⟨fun input output hdata => ?_, fun input output hdata => ?_⟩
  · cases hdata
  · cases hdata

def quietFile : WritableFile := { outcome := fun _ => none }

def added (r : BlobRecord) : Added := ⟨r, { key := r.key }, rfl⟩

theorem added_record (r : BlobRecord) : (added r).record = r := rfl

theorem raw_stored (dict : Bytes) (r : BlobRecord) :
    (((rawOptions maxDictBytes).compression dict).compress r.encodeTo).1 = r.encodeTo := rfl

theorem noBits_size : ([0] : Bytes).length = (0 >>> 3) + 1 := rfl

def noBits : BitMap := ⟨0, [0], noBits_size⟩

/-- Two records, with a dictionary. -/
theorem format_agrees_small :
    (build (rawOptions 4) quietFile [added ⟨[1], [2]⟩, added ⟨[3], []⟩]).1.file.bytes.length < 2 ^ 64 ∧
    Agrees rawEnv false 7 noBits
      (build (rawOptions 4) quietFile [added ⟨[1], [2]⟩, added ⟨[3], []⟩]).1.file.bytes
      (build (rawOptions 4) quietFile [added ⟨[1], [2]⟩, added ⟨[3], []⟩]).2 [⟨[1], [2]⟩, ⟨[3], []⟩] := by
  have hsize : (build (rawOptions 4) quietFile [added ⟨[1], [2]⟩, added ⟨[3], []⟩]).1.file.bytes.length <
      2 ^ 64 := by decide
  refine ⟨hsize, (format_agrees_iff (rawEnv_same 4) (fun _ => lossless_none) (fun _ => rfl) rfl
    (fun _ => rfl) _ hsize false 7 noBits).mpr fun x hx => ?_⟩
  have hsmall : ∀ r : BlobRecord, r.encodeTo.length < 2 ^ 32 → Storable .none r :=
    fun r hr => ⟨BlobRecord.fits_of_encodeTo hr, hr⟩
  rcases mem_cons.mp hx with rfl | hx
  · exact hsmall _ (by decide)
  · obtain rfl := mem_singleton.mp hx
    exact hsmall _ (by decide)

/-- A record whose key and value have less than 4 GiB each, but not together. -/
def largeRecord : BlobRecord := ⟨[], List.replicate (2 ^ 32 - 1) 0⟩

theorem largeRecord_length :
    2 ^ 32 ≤ largeRecord.encodeTo.length ∧ largeRecord.encodeTo.length ≤ 2 ^ 32 + 9 := by
  have hvalue : largeRecord.value.length = 2 ^ 32 - 1 := length_replicate
  have hkey : largeRecord.key.length = 0 := rfl
  have hpos := encodeVarint_length_pos 4 (UInt32.ofNat largeRecord.key.length).toNat
  have hpos' := encodeVarint_length_pos 4 (UInt32.ofNat largeRecord.value.length).toNat
  have hle := encodeVarint_length_le 4 (UInt32.ofNat largeRecord.key.length).toNat
  have hle' := encodeVarint_length_le 4 (UInt32.ofNat largeRecord.value.length).toNat
  simp only [BlobRecord.encodeTo, putLengthPrefixedSlice, putVarint32, length_append]
  omega

/-- The size of the stored record is cut to 32 bits: the reader does not find the record. -/
theorem large_record_not_read :
    ¬ Agrees rawEnv false 7 noBits (build (rawOptions 0) quietFile [added largeRecord]).1.file.bytes
      (build (rawOptions 0) quietFile [added largeRecord]).2 [largeRecord] := by
  obtain ⟨hlarge, hbound⟩ := largeRecord_length
  have hfinished : Finished (rawOptions 0) (build (rawOptions 0) quietFile [added largeRecord]).1
      (build (rawOptions 0) quietFile [added largeRecord]).2 [(added largeRecord).item] :=
    build_finished (fun _ => rfl) rfl (fun _ => rfl) _
  have hsize : (build (rawOptions 0) quietFile [added largeRecord]).1.file.bytes.length < 2 ^ 64 := by
    rw [build_bytes hfinished, length_of_plain (Nat.lt_irrefl 0), map_singleton, encoded_cons,
      encoded_nil, append_nil, encodeRecord_length, added_record, raw_stored, kRecordHeaderSize,
      kBlobFooterSize]
    omega
  intro h
  have hstorable := (build_reads_iff (rawEnv_same 0) (fun _ => lossless_none) (fun _ => rfl) rfl
    (fun _ => rfl) [added largeRecord] hsize).mp h.reads (added largeRecord) mem_cons_self
  have hstored := hstorable.2
  rw [added_record, raw_stored] at hstored
  omega

end TitanGC.Storage.FormatAgreement
