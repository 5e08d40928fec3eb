import TitanGC.Storage.BlobFileIterator
import TitanGC.Storage.Placement

/-!
# Reading blob files

`BlobFileReader`: opening a file reads its header, its footer and the dictionary that
the footer leads to; a record is then read by its handle. The blob cache keeps what was
read and is left out. A file that the builder has finished is opened, and what stands
at the handle of a record is the entry of that record.
-/

namespace TitanGC.Storage.Reader

open Lib.ByteCoding Lib.Memory List Format.Coding Format.BlobFormat Format.BlobFile
open Iterator (RandomAccessFile)
open Writer Placement

/-- The libraries a reader calls: compression under a dictionary, and the search for the
dictionary's handle in a meta index block; and what stands in memory behind a buffer. -/
structure ReaderEnv where
  compression : Bytes → Compression
  findDictionary : Bytes → Except Status BlockHandle
  zstdTooOld : Bool
  beyond : Mem

/-- The dictionary is empty if the file has none. -/
structure BlobFileReader where
  file : RandomAccessFile
  footer : BlobFileFooter
  uncompressionDict : Bytes := []

/-- A buffer is taken in its full size, also after a short read. -/
def fullBuffer (env : ReaderEnv) (size : Nat) (data : Bytes) : Bytes :=
  data ++ slice env.beyond 0 (size - data.length)

def initUncompressionDict (env : ReaderEnv) (footer : BlobFileFooter) (file : RandomAccessFile) :
    Except Status Bytes :=
  if env.zstdTooOld then .error ⟨.notSupported, "the version of libztsd is too low"⟩
  else match file footer.metaIndexHandle.offset.toNat footer.metaIndexHandle.size.toNat with
    | .error e => .error e
    | .ok blob =>
      match env.findDictionary (fullBuffer env footer.metaIndexHandle.size.toNat blob) with
      | .error e => .error e
      | .ok dictBlock =>
        match file dictBlock.offset.toNat dictBlock.size.toNat with
        | .error e => .error e
        | .ok dict => .ok (fullBuffer env dictBlock.size.toNat dict)

namespace BlobFileReader

def readHeader (file : RandomAccessFile) : Except Status BlobFileHeader :=
  match file 0 12 with
  | .error e => .error e
  | .ok buffer => decodeInto BlobFileHeader.decodeFrom buffer true

def openFile (env : ReaderEnv) (file : RandomAccessFile) (fileSize : Nat) : Except Status BlobFileReader :=
  if fileSize < kBlobFooterSize then .error (corruption "file is too short to be a blob file")
  else match readHeader file with
    | .error e => .error e
    | .ok header =>
      match file (fileSize - kBlobFooterSize) kBlobFooterSize with
      | .error e => .error e
      | .ok buffer =>
        match decodeInto BlobFileFooter.decodeFrom buffer false with
        | .error e => .error e
        | .ok footer =>
          if header.flags &&& kHasUncompressionDictionary ≠ 0 then
            match initUncompressionDict env footer file with
            | .error e => .error e
            | .ok dict => .ok ⟨file, footer, dict⟩
          else .ok ⟨file, footer, []⟩

def readRecord (env : ReaderEnv) (r : BlobFileReader) (handle : BlobHandle) : Except Status BlobRecord :=
  match r.file handle.offset.toNat handle.size.toNat with
  | .error e => .error e
  | .ok blob =>
    if handle.size.toNat ≠ blob.length then
      .error (corruption ("ReadRecord actual size: " ++ toString blob.length ++
        " not equal to blob size " ++ toString handle.size))
    else decodeEntry (env.compression r.uncompressionDict) env.beyond blob

end BlobFileReader

def getRecord (env : ReaderEnv) (bytes : Bytes) (handle : BlobHandle) : Except Status BlobRecord :=
  match BlobFileReader.openFile env (.ofBytes bytes) bytes.length with
  | .error e => .error e
  | .ok reader => reader.readRecord env handle

/-! ## Finished files -/

variable (env : ReaderEnv) (rest : Bytes) (f : BlobFileFooter)

section

variable {o : BuilderOptions}

/-- The bytes in the middle. -/
theorem read_middle (before data after : Bytes) :
    RandomAccessFile.ofBytes (before ++ data ++ after) before.length data.length = .ok data := by
  rw [RandomAccessFile.ofBytes, append_assoc, drop_left, take_left]

theorem fullBuffer_of_length (data : Bytes) : fullBuffer env data.length data = data := by
  rw [fullBuffer, Nat.sub_self]
  exact append_nil data

theorem headerOf_length : (headerOf o kVersion2).encodeTo.length = 12 := by
  simp [headerOf, BlobFileHeader.encodeTo]

theorem decodeFrom_headerOf :
    BlobFileHeader.decodeFrom ((headerOf o kVersion2).encodeTo ++ rest) =
      .ok (headerOf o kVersion2, rest) := by
  rw [BlobFileHeader.encodeTo, append_assoc, append_assoc, BlobFileHeader.decodeFrom,
    getFixed32_putFixed32]
  by_cases hdict : o.maxDictBytes > 0
  · simp [headerOf, hdict, getFixed32_putFixed32, kVersion1, kVersion2, kHasUncompressionDictionary]
  · simp [headerOf, hdict, getFixed32_putFixed32, kVersion1, kVersion2, kHasUncompressionDictionary]

theorem decodeInto_headerOf :
    decodeInto BlobFileHeader.decodeFrom (headerOf o kVersion2).encodeTo true =
      .ok (headerOf o kVersion2) := by
  have hdecode := decodeFrom_headerOf (o := o) []
  rw [append_nil] at hdecode
  simp only [decodeInto, hdecode, Bool.not_true, Bool.false_and, Bool.false_eq_true, ↓reduceIte]

/-- The header tells of a dictionary. -/
theorem headerOf_flag :
    (headerOf o kVersion2).flags &&& kHasUncompressionDictionary ≠ 0 ↔ o.maxDictBytes > 0 := by
  rw [headerOf]
  dsimp only
  split
  · rename_i hdict
    simp [kHasUncompressionDictionary, hdict]
  · rename_i hdict
    simp [hdict]

/-- The header is what a file begins with. -/
theorem read_headerOf :
    RandomAccessFile.ofBytes ((headerOf o kVersion2).encodeTo ++ rest) 0 12 =
      .ok (headerOf o kVersion2).encodeTo := by
  rw [RandomAccessFile.ofBytes, drop_zero, ← headerOf_length (o := o), take_left]

theorem readHeader_headerOf :
    BlobFileReader.readHeader (.ofBytes ((headerOf o kVersion2).encodeTo ++ rest)) =
      .ok (headerOf o kVersion2) := by
  rw [BlobFileReader.readHeader, read_headerOf]
  exact decodeInto_headerOf

theorem blockHandle_length (handle : BlockHandle) : handle.encodeTo.length ≤ kBlobFooterSize - 12 := by
  have hoffset := encodeVarint_length_le 9 handle.offset.toNat
  have hsize := encodeVarint_length_le 9 handle.size.toNat
  rw [BlockHandle.encodeTo, length_append, putVarint64, putVarint64, kBlobFooterSize]
  omega

theorem padded_footer :
    f.encodeTo = sealFooter (f.metaIndexHandle.encodeTo ++
      replicate (kBlobFooterSize - 12 - f.metaIndexHandle.encodeTo.length) 0) ∧
    (f.metaIndexHandle.encodeTo ++
      replicate (kBlobFooterSize - 12 - f.metaIndexHandle.encodeTo.length) 0).length =
        kBlobFooterSize - 12 := by
  have hle := blockHandle_length f.metaIndexHandle
  have hlen : (f.metaIndexHandle.encodeTo ++
      replicate (kBlobFooterSize - 12 - f.metaIndexHandle.encodeTo.length) 0).length =
        kBlobFooterSize - 12 := by
    rw [length_append, length_replicate]
    omega
  refine ⟨?_, hlen⟩
  rw [BlobFileFooter.encodeTo, take_of_length_le hlen.le]

theorem footer_encodeTo_length : f.encodeTo.length = kBlobFooterSize := by
  obtain ⟨heq, hlen⟩ := padded_footer f
  rw [heq, sealFooter_length hlen]

theorem decodeInto_footer : decodeInto BlobFileFooter.decodeFrom f.encodeTo false = .ok f := by
  obtain ⟨heq, hlen⟩ := padded_footer f
  have hdecode := BlobFileFooter.decodeFrom_sealFooter f.metaIndexHandle hlen []
  rw [append_nil] at hdecode
  rw [heq]
  simp only [decodeInto, hdecode, isEmpty_nil, Bool.not_true, Bool.and_false, Bool.false_eq_true, ↓reduceIte]

/-- Opening a file, given what its parts are. -/
theorem openFile_of_parts {file body : Bytes} {footer : BlobFileFooter}
    (hfile : file = (headerOf o kVersion2).encodeTo ++ body ++ footer.encodeTo) :
    BlobFileReader.openFile env (.ofBytes file) file.length =
      if o.maxDictBytes > 0 then
        match initUncompressionDict env footer (.ofBytes file) with
        | .error e => .error e
        | .ok dict => .ok ⟨.ofBytes file, footer, dict⟩
      else .ok ⟨.ofBytes file, footer, []⟩ := by
  have hlen := footer_encodeTo_length footer
  have hheader := readHeader_headerOf (o := o) (body ++ footer.encodeTo)
  have hfooter := read_middle ((headerOf o kVersion2).encodeTo ++ body) footer.encodeTo []
  rw [append_nil, hlen] at hfooter
  rw [← append_assoc, ← hfile] at hheader
  rw [← hfile] at hfooter
  have hsize : file.length = ((headerOf o kVersion2).encodeTo ++ body).length + kBlobFooterSize := by
    rw [hfile, length_append, hlen]
  have hnot : ¬ file.length < kBlobFooterSize := by omega
  have hend : file.length - kBlobFooterSize = ((headerOf o kVersion2).encodeTo ++ body).length := by omega
  rw [BlobFileReader.openFile, if_neg hnot, hheader, hend]
  dsimp only
  rw [hfooter]
  dsimp only
  rw [decodeInto_footer]
  dsimp only
  by_cases hdict : o.maxDictBytes > 0
  · rw [if_pos hdict, if_pos (headerOf_flag.mpr hdict)]
  · rw [if_neg hdict, if_neg (mt headerOf_flag.mp hdict)]

/-! ## Records of finished files -/

def image (o : BuilderOptions) (dict : Bytes) (rs : List BlobRecord) : Bytes :=
  (headerOf o kVersion2).encodeTo ++ encoded (o.compression dict) rs ++
    closing o ((headerOf o kVersion2).encodeTo ++ encoded (o.compression dict) rs).length dict

theorem image_of_plain (hdict : ¬ o.maxDictBytes > 0) (dict : Bytes) (rs : List BlobRecord) :
    image o dict rs = (headerOf o kVersion2).encodeTo ++ encoded (o.compression dict) rs ++
      ({} : BlobFileFooter).encodeTo := by rw [image, closing, if_neg hdict]

/-- The reader is built with the libraries of the builder: the dictionary's handle is found
in the meta index block that was made for it. -/
structure SameLibraries (o : BuilderOptions) (env : ReaderEnv) : Prop where
  compression : env.compression = o.compression
  zstdTooOld : 0 < o.maxDictBytes → env.zstdTooOld = false
  findDictionary : ∀ handle, env.findDictionary (o.metaIndexBlock (some handle)) = .ok handle

theorem read_at (before data after : Bytes) {file : Bytes} {offset size : Nat}
    (hfile : before ++ data ++ after = file) (hoffset : offset = before.length) (hsize : size = data.length) :
    RandomAccessFile.ofBytes file offset size = .ok data := by
  rw [← hfile, hoffset, hsize]
  exact read_middle before data after

theorem toNat_ofNat_of_le {a b : Nat} (hb : b < 2 ^ 64) (hle : a ≤ b) : (UInt64.ofNat a).toNat = a :=
  UInt64.toNat_ofNat_of_lt' (lt_of_le_of_lt hle hb)

/-- The parts behind the records of a file with a dictionary. -/
structure WithDictionary (o : BuilderOptions) (dict : Bytes) (rs : List BlobRecord) where
  index : Bytes
  footer : BlobFileFooter
  image_eq : image o dict rs = (headerOf o kVersion2).encodeTo ++
    (encoded (o.compression dict) rs ++ (dict ++ BlobFileBuilder.blockTrailer dict) ++
      (index ++ BlobFileBuilder.blockTrailer index)) ++ footer.encodeTo
  index_eq : index = o.metaIndexBlock (some
    ⟨UInt64.ofNat ((headerOf o kVersion2).encodeTo ++ encoded (o.compression dict) rs).length,
      UInt64.ofNat dict.length⟩)
  handle : footer.metaIndexHandle =
    ⟨UInt64.ofNat (((headerOf o kVersion2).encodeTo ++ encoded (o.compression dict) rs).length +
      (dict ++ BlobFileBuilder.blockTrailer dict).length), UInt64.ofNat index.length⟩

def withDictionary (hdict : o.maxDictBytes > 0) (dict : Bytes) (rs : List BlobRecord) :
    WithDictionary o dict rs where
  index := o.metaIndexBlock (some
    ⟨UInt64.ofNat ((headerOf o kVersion2).encodeTo ++ encoded (o.compression dict) rs).length,
      UInt64.ofNat dict.length⟩)
  footer := { metaIndexHandle :=
    ⟨UInt64.ofNat (((headerOf o kVersion2).encodeTo ++ encoded (o.compression dict) rs).length +
      (dict ++ BlobFileBuilder.blockTrailer dict).length), UInt64.ofNat (o.metaIndexBlock (some
    ⟨UInt64.ofNat ((headerOf o kVersion2).encodeTo ++ encoded (o.compression dict) rs).length,
      UInt64.ofNat dict.length⟩)).length⟩ }
  image_eq := by
    rw [image, closing, if_pos hdict]
    simp only [append_assoc]
  index_eq := rfl
  handle := rfl

variable {env : ReaderEnv} {dict : Bytes} {rs : List BlobRecord}

/-- The dictionary is read back. -/
theorem initUncompressionDict_image (hsame : SameLibraries o env) (hdict : o.maxDictBytes > 0)
    (w : WithDictionary o dict rs) (hsize : (image o dict rs).length < 2 ^ 64) :
    initUncompressionDict env w.footer (.ofBytes (image o dict rs)) = .ok dict := by
  have hlen := congrArg List.length w.image_eq
  simp only [length_append] at hlen
  have hindex : RandomAccessFile.ofBytes (image o dict rs) w.footer.metaIndexHandle.offset.toNat
      w.footer.metaIndexHandle.size.toNat = .ok w.index := by
    rw [w.handle]
    dsimp only
    refine read_at ((headerOf o kVersion2).encodeTo ++ encoded (o.compression dict) rs ++
      (dict ++ BlobFileBuilder.blockTrailer dict)) w.index (BlobFileBuilder.blockTrailer w.index ++
      w.footer.encodeTo) ?_ ?_ ?_
    · rw [w.image_eq]
      simp only [append_assoc]
    · rw [toNat_ofNat_of_le hsize (by simp only [length_append]; omega)]
      simp only [length_append]
    · exact toNat_ofNat_of_le hsize (by omega)
  have hread : RandomAccessFile.ofBytes (image o dict rs)
      (UInt64.ofNat ((headerOf o kVersion2).encodeTo ++ encoded (o.compression dict) rs).length).toNat
      (UInt64.ofNat dict.length).toNat = .ok dict := by
    refine read_at ((headerOf o kVersion2).encodeTo ++ encoded (o.compression dict) rs) dict
      (BlobFileBuilder.blockTrailer dict ++ (w.index ++ BlobFileBuilder.blockTrailer w.index) ++
      w.footer.encodeTo) ?_ ?_ ?_
    · rw [w.image_eq]
      simp only [append_assoc]
    · exact toNat_ofNat_of_le hsize (by simp only [length_append]; omega)
    · exact toNat_ofNat_of_le hsize (by omega)
  have hfull : fullBuffer env w.footer.metaIndexHandle.size.toNat w.index = w.index := by
    have hlength : w.footer.metaIndexHandle.size.toNat = w.index.length := by
      rw [w.handle]
      exact toNat_ofNat_of_le hsize (by omega)
    rw [hlength]
    exact fullBuffer_of_length env w.index
  rw [initUncompressionDict, hsame.zstdTooOld hdict, hindex]
  simp only [Bool.false_eq_true, ↓reduceIte, hfull]
  rw [w.index_eq, hsame.findDictionary]
  dsimp only
  rw [hread]
  dsimp only
  rw [toNat_ofNat_of_le hsize (by omega), fullBuffer_of_length]

/-- A finished file is opened, with its dictionary. -/
theorem openFile_image (hsame : SameLibraries o env) (hplain : o.maxDictBytes = 0 → dict = [])
    (hsize : (image o dict rs).length < 2 ^ 64) :
    ∃ footer, BlobFileReader.openFile env (.ofBytes (image o dict rs)) (image o dict rs).length =
      .ok ⟨.ofBytes (image o dict rs), footer, dict⟩ := by
  by_cases hdict : o.maxDictBytes > 0
  · have w := withDictionary hdict dict rs
    have hopen := openFile_of_parts env w.image_eq
    rw [if_pos hdict, initUncompressionDict_image hsame hdict w hsize] at hopen
    exact ⟨w.footer, hopen⟩
  · have hopen := openFile_of_parts env (image_of_plain hdict dict rs)
    rw [if_neg hdict] at hopen
    rw [hplain (by omega)] at hopen ⊢
    exact ⟨{}, hopen⟩

/-- The entry of a record stands behind those of the records before it. -/
theorem image_at (dict : Bytes) {before after : List BlobRecord} {r : BlobRecord}
    (hsplit : rs = before ++ r :: after) :
    ∃ rest, (headerOf o kVersion2).encodeTo ++ encoded (o.compression dict) before ++
      encodeRecord (o.compression dict) r ++ rest = image o dict rs := by
  refine ⟨encoded (o.compression dict) after ++
    closing o ((headerOf o kVersion2).encodeTo ++ encoded (o.compression dict) rs).length dict, ?_⟩
  rw [image, hsplit, encoded_append, encoded_cons]
  simp only [append_assoc]

/-- What stands at the handle of a record is its entry. -/
theorem getRecord_image (hsame : SameLibraries o env) (hplain : o.maxDictBytes = 0 → dict = [])
    {before after : List BlobRecord} {r : BlobRecord} (hsplit : rs = before ++ r :: after)
    (hsize : (image o dict rs).length < 2 ^ 64) (index : UInt64) :
    getRecord env (image o dict rs)
        ⟨UInt64.ofNat ((headerOf o kVersion2).encodeTo.length + (encoded (o.compression dict) before).length),
          UInt64.ofNat (encodeRecord (o.compression dict) r).length, index⟩ =
      decodeEntry (o.compression dict) env.beyond (encodeRecord (o.compression dict) r) := by
  obtain ⟨footer, hopen⟩ := openFile_image hsame hplain hsize
  obtain ⟨rest, himage⟩ := image_at (o := o) dict hsplit
  have hlen := congrArg List.length himage
  simp only [length_append] at hlen
  have hread := read_at _ _ _ himage (length_append ..).symm rfl
  rw [getRecord, hopen]
  dsimp only
  rw [BlobFileReader.readRecord]
  dsimp only
  rw [toNat_ofNat_of_le hsize (by omega), toNat_ofNat_of_le hsize (by omega), hread]
  dsimp only
  rw [if_neg (not_not.mpr rfl), hsame.compression]

end

end TitanGC.Storage.Reader
