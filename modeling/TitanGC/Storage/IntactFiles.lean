import TitanGC.Storage.BlobFileIterator

/-!
# Intact files

An iterator over an uncompressed file that the builder wrote reads its header, its
footer and each of its records as they were written.
-/

namespace TitanGC.Storage.IntactFiles

open Lib.ByteCoding List Format.BlobFile Storage.Builder Iterator

/-- The sizes in a file fit the fields they are written in. -/
structure Fits (f : PlainFile) : Prop where
  records : ∀ r ∈ f.records, r.Fits
  stored : ∀ r ∈ f.records, r.encodeTo.length < 2 ^ 32
  size : f.image.length < 2 ^ 63

def openFile (f : GcFile) : BlobFileIterator where
  file := .ofBytes f.file.image
  fileNumber := f.fileNumber
  fileSize := f.file.image.length
  bitmap := f.bitmap

theorem ofBytes_append {x y z : Bytes} {offset n : Nat} (hx : x.length = offset)
    (hy : y.length = n) : RandomAccessFile.ofBytes (x ++ (y ++ z)) offset n = .ok y := by
  rw [RandomAccessFile.ofBytes, drop_left' hx, take_left' hy]

theorem sub64_of_le {a b : Nat} (hle : b ≤ a) (ha : a < 2 ^ 64) : sub64 a b = a - b := by
  unfold sub64
  omega

variable {f : GcFile} {before after : List BlobRecord} {it : BlobFileIterator}

/-- The record that stands after others is read back, with its size. -/
theorem readRecord_entry (env : Env) (hf : Fits f.file) {r : BlobRecord}
    (hfile : it.file = .ofBytes f.file.image) (hsplit : f.file.records = before ++ r :: after) :
    it.readRecord env (f.file.header.size + (entries before).length) =
      .ok (r, (plainEntry r).length) := by
  have hr : r ∈ f.file.records := by rw [hsplit]; simp
  have hheader := entryHeader_length r.encodeTo kNoCompression
  have himage : f.file.image = (f.file.header.encodeTo ++ entries before) ++
      (entryHeader r.encodeTo kNoCompression ++
        (r.encodeTo ++ (entries after ++ ({} : BlobFileFooter).encodeTo))) := by
    rw [PlainFile.image_eq, hsplit, entries_append, entries_cons, plainEntry]
    simp only [append_assoc]
  have hpos : (f.file.header.encodeTo ++ entries before).length =
      f.file.header.size + (entries before).length := by
    rw [length_append, BlobFileHeader.encodeTo_length f.file.valid]
  have hhead : it.file (f.file.header.size + (entries before).length) kRecordHeaderSize =
      .ok (entryHeader r.encodeTo kNoCompression) := by
    rw [hfile, himage]
    exact ofBytes_append hpos hheader
  have hbody : it.file (f.file.header.size + (entries before).length + kRecordHeaderSize)
      r.encodeTo.length = .ok r.encodeTo := by
    rw [hfile, himage, ← append_assoc]
    exact ofBytes_append (by rw [length_append, hpos, hheader]) rfl
  have hdecode := decodeHeader_entryHeader r.encodeTo kNoCompression []
  rw [append_nil] at hdecode
  have hsize32 : (UInt32.ofNat r.encodeTo.length).toNat = r.encodeTo.length :=
    UInt32.toNat_ofNat_of_lt' (hf.stored r hr)
  have hrecord := decodeRecord_plain (hf.records r hr) (hf.stored r hr)
    (env.compression it.uncompressionDict) env.beyond
  simp only [BlobFileIterator.readRecord, hhead, hdecode, hsize32, hbody, hrecord, plainEntry_length]

/-- The header of an intact file, read as a prefix of the file. -/
theorem decodeInto_header (f : PlainFile) :
    decodeInto BlobFileHeader.decodeFrom ((f.image.drop 0).take 12) true = .ok f.header := by
  have hplain := f.plain_header
  have hle : f.header.encodeTo.length ≤ 12 := by
    rw [BlobFileHeader.encodeTo_length hplain.version, BlobFileHeader.size]
    split <;> omega
  rw [drop_zero, PlainFile.image_eq, append_assoc, take_append,
    take_of_length_le hle, decodeInto, BlobFileHeader.decodeFrom_encodeTo hplain]
  rfl

theorem encodeTo_footer : ({} : BlobFileFooter).encodeTo =
    sealFooter (({} : BlockHandle).encodeTo ++ List.replicate 18 0) := rfl

theorem footerStatus_encodeTo :
    BlobFileIterator.footerStatus ({} : BlobFileFooter).encodeTo = none := by
  have hdecode := BlobFileFooter.decodeFrom_sealFooter {} (show (({} : BlockHandle).encodeTo ++
    List.replicate 18 0).length = kBlobFooterSize - 12 from rfl) []
  rw [append_nil] at hdecode
  rw [BlobFileIterator.footerStatus, encodeTo_footer, hdecode]

theorem metaIndexHandle_encodeTo :
    BlobFileIterator.metaIndexHandle ({} : BlobFileFooter).encodeTo = {} := rfl

/-- `Init` on a file of which the header and the footer are read as they are. -/
theorem doInit_of_reads (env : Env) (hf : Fits f.file)
    (hheader : it.file 0 12 = .ok ((f.file.image.drop 0).take 12))
    (hsize : it.fileSize = f.file.image.length)
    (hfooter : it.file (f.file.header.size + (entries f.file.records).length) kBlobFooterSize =
      .ok ({} : BlobFileFooter).encodeTo) :
    it.doInit env = (true, { it with
      status := none
      endOfBlobRecord := f.file.header.size + (entries f.file.records).length
      headerSize := f.file.header.size
      init := true }) := by
  have hbound := hf.size
  have hlen := f.file.image_length
  have hsub : sub64 f.file.image.length kBlobFooterSize =
      f.file.header.size + (entries f.file.records).length := by
    rw [sub64_of_le (by omega) (by omega), hlen]
    omega
  have hflags : ¬ (f.file.header.flags &&& kHasUncompressionDictionary ≠ 0) := by
    rw [f.file.plain_header.flags]
    decide
  have hend : BlobFileIterator.recordsEnd it.fileSize {} =
      f.file.header.size + (entries f.file.records).length := by
    rw [BlobFileIterator.recordsEnd, if_pos rfl, hsize, hsub]
  rw [← hsub, ← hsize] at hfooter
  simp only [BlobFileIterator.doInit, hheader, decodeInto_header, hfooter,
    BlobFileIterator.initRecords, metaIndexHandle_encodeTo, footerStatus_encodeTo, if_neg hflags, hend]

/-- The footer of an intact file, where its iterator reads it. -/
theorem ofBytes_footer (f : PlainFile) :
    RandomAccessFile.ofBytes f.image (f.header.size + (entries f.records).length) kBlobFooterSize =
      .ok ({} : BlobFileFooter).encodeTo := by
  rw [PlainFile.image_eq, ← append_nil (({} : BlobFileFooter).encodeTo)]
  refine ofBytes_append ?_ PlainFile.footer_length
  rw [length_append, BlobFileHeader.encodeTo_length f.valid]

end TitanGC.Storage.IntactFiles
