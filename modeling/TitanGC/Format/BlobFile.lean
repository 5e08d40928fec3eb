import TitanGC.Lib.Crc32c
import TitanGC.Lib.Memory
import TitanGC.Format.Coding

/-!
# Blob records, headers and footers

The parts of a blob file, from `blob_format.{h,cc}`: a file header, records that
each have a header of their own with a checksum, and a footer. Compression is a
parameter, with its type byte.
-/

namespace TitanGC.Format.BlobFile

open Lib Lib.ByteCoding Lib.Memory List Coding

/-! ## Records -/

structure BlobRecord where
  key : Bytes
  value : Bytes
  deriving Repr, DecidableEq

def BlobRecord.encodeTo (r : BlobRecord) : Bytes :=
  putLengthPrefixedSlice r.key ++ putLengthPrefixedSlice r.value

def BlobRecord.decodeFrom (src : Bytes) : Except Status (BlobRecord × Bytes) :=
  match getLengthPrefixedSlice src with
  | none => .error (corruption "BlobRecord")
  | some (key, src) =>
    match getLengthPrefixedSlice src with
    | none => .error (corruption "BlobRecord")
    | some (value, src) => .ok (⟨key, value⟩, src)

structure BlobRecord.Fits (r : BlobRecord) : Prop where
  key : r.key.length < 2 ^ 32
  value : r.value.length < 2 ^ 32

variable {r : BlobRecord} {src : Bytes} {c : Compression}

theorem BlobRecord.decodeFrom_encodeTo (h : r.Fits) (rest : Bytes) :
    BlobRecord.decodeFrom (r.encodeTo ++ rest) = .ok (r, rest) := by
  rw [BlobRecord.encodeTo, append_assoc, BlobRecord.decodeFrom,
    getLengthPrefixedSlice_putLengthPrefixedSlice h.key]
  simp only
  rw [getLengthPrefixedSlice_putLengthPrefixedSlice h.value]

theorem BlobRecord.decodeFrom_append {rest : Bytes} (h : BlobRecord.decodeFrom src = .ok (r, rest))
    (tail : Bytes) : r.Fits ∧ BlobRecord.decodeFrom (src ++ tail) = .ok (r, rest ++ tail) := by
  rw [BlobRecord.decodeFrom] at h
  cases hkey : getLengthPrefixedSlice src with
  | none => rw [hkey] at h; cases h
  | some k =>
    rw [hkey] at h
    dsimp only at h
    cases hvalue : getLengthPrefixedSlice k.2 with
    | none => rw [hvalue] at h; cases h
    | some v =>
      rw [hvalue] at h
      cases h
      obtain ⟨hk, hkeyTail⟩ := getLengthPrefixedSlice_append hkey tail
      obtain ⟨hv, hvalueTail⟩ := getLengthPrefixedSlice_append hvalue tail
      refine ⟨⟨hk, hv⟩, ?_⟩
      rw [BlobRecord.decodeFrom, hkeyTail]
      dsimp only
      rw [hvalueTail]

theorem BlobRecord.fits_of_encodeTo (h : r.encodeTo.length < 2 ^ 32) : r.Fits := by
  simp only [BlobRecord.encodeTo, putLengthPrefixedSlice, length_append] at h
  exact ⟨by omega, by omega⟩

/-- No proper prefix of an encoding decodes to the end. -/
theorem BlobRecord.decodeFrom_take (hr : r.Fits) {n : Nat} (hn : n < r.encodeTo.length) (r' : BlobRecord) :
    BlobRecord.decodeFrom (r.encodeTo.take n) ≠ .ok (r', []) := by
  intro h
  obtain ⟨-, htail⟩ := BlobRecord.decodeFrom_append h (r.encodeTo.drop n)
  have hwhole := BlobRecord.decodeFrom_encodeTo hr []
  rw [take_append_drop] at htail
  rw [append_nil, htail] at hwhole
  have hrest : r.encodeTo.drop n = [] := (Prod.mk.inj (Except.ok.inj hwhole)).2
  have hlen := drop_eq_nil_iff.mp hrest
  omega

def decodeInto {α : Type} (decodeFrom : Bytes → Except Status (α × Bytes)) (src : Bytes)
    (ignoreExtraBytes : Bool) : Except Status α :=
  match decodeFrom src with
  | .error e => .error e
  | .ok (target, rest) =>
    if !ignoreExtraBytes && !rest.isEmpty then
      .error (corruption "redundant bytes when decoding blob file")
    else .ok target

/-! ## Encoding and decoding with a checksum -/

def kRecordHeaderSize : Nat := 9

def kNoCompression : UInt8 := 0

/-- A compression method: `CompressData` may decline, `UncompressData` may fail. -/
structure Compression where
  type : UInt8
  compressData : Bytes → Option Bytes
  uncompressData : UInt8 → Bytes → Option Bytes

def Compression.none : Compression := ⟨kNoCompression, fun _ => Option.none, fun _ _ => Option.none⟩

/-- `Compress`: the bytes to store and their type. -/
def Compression.compress (c : Compression) (input : Bytes) : Bytes × UInt8 :=
  if c.type = kNoCompression then (input, c.type)
  else match c.compressData input with
    | .none => (input, kNoCompression)
    | some output => (output, c.type)

def sizeAndType (stored : Bytes) (type : UInt8) : Bytes :=
  putFixed32 (UInt32.ofNat stored.length) ++ [type]

def entryHeader (stored : Bytes) (type : UInt8) : Bytes :=
  putFixed32 (Crc32c.extend (Crc32c.value (sizeAndType stored type)) stored) ++
    sizeAndType stored type

/-- `BlobEncoder::EncodeSlice`: the header and the stored record. -/
def encodeSlice (c : Compression) (record : Bytes) : Bytes :=
  let (stored, type) := c.compress record
  entryHeader stored type ++ stored

def encodeRecord (c : Compression) (r : BlobRecord) : Bytes := encodeSlice c r.encodeTo

structure BlobDecoder where
  crc : UInt32
  headerCrc : UInt32
  recordSize : UInt32
  compression : UInt8
  deriving Repr, DecidableEq

def decodeHeader (src : Bytes) : Except Status (BlobDecoder × Bytes) :=
  match getFixed32 src with
  | none => .error (corruption "BlobHeader")
  | some (crc, src) =>
    let headerCrc := Crc32c.value (src.take (kRecordHeaderSize - 4))
    match getFixed32 src with
    | none => .error (corruption "BlobHeader")
    | some (recordSize, src) =>
      match getChar src with
      | none => .error (corruption "BlobHeader")
      | some (compression, src) => .ok (⟨crc, headerCrc, recordSize, compression⟩, src)

/-- `DecodeRecord` looks at `record_size_` bytes from the start of the slice, also when
the slice is shorter; `beyond` is what follows it in memory. -/
def BlobDecoder.decodeRecord (d : BlobDecoder) (c : Compression) (beyond : Mem) (src : Bytes) :
    Except Status BlobRecord :=
  let size := d.recordSize.toNat
  let input := src.take size ++ slice beyond 0 (size - src.length)
  if Crc32c.extend d.headerCrc input ≠ d.crc then
    .error (corruption₂ "BlobRecord" "checksum mismatch")
  else if d.compression = kNoCompression then decodeInto BlobRecord.decodeFrom input false
  else match c.uncompressData d.compression input with
    | none => .error (corruption "Corrupted compressed blob")
    | some buffer => decodeInto BlobRecord.decodeFrom buffer false

/-- `BlobDecoder` on the bytes of one entry, as `BlobFileReader::ReadRecord` uses it. -/
def decodeEntry (c : Compression) (beyond : Mem) (src : Bytes) : Except Status BlobRecord :=
  match decodeHeader src with
  | .error e => .error e
  | .ok (d, rest) => d.decodeRecord c beyond rest

/-! ## Entries -/

@[simp] theorem entryHeader_length (stored : Bytes) (type : UInt8) :
    (entryHeader stored type).length = kRecordHeaderSize := by
  simp [entryHeader, sizeAndType, kRecordHeaderSize]

theorem decodeHeader_entryHeader (stored : Bytes) (type : UInt8) (rest : Bytes) :
    decodeHeader (entryHeader stored type ++ rest) =
      .ok (⟨Crc32c.extend (Crc32c.value (sizeAndType stored type)) stored,
        Crc32c.value (sizeAndType stored type), UInt32.ofNat stored.length, type⟩, rest) := by
  have htake : (sizeAndType stored type ++ rest).take (kRecordHeaderSize - 4) =
      sizeAndType stored type := take_left' (by simp [sizeAndType, kRecordHeaderSize])
  have hsize : sizeAndType stored type ++ rest =
      putFixed32 (UInt32.ofNat stored.length) ++ type :: rest := by
    simp [sizeAndType]
  rw [entryHeader, append_assoc, decodeHeader, getFixed32_putFixed32]
  simp only [htake]
  rw [hsize, getFixed32_putFixed32]
  simp [getChar]

/-- A compression library that gives back what it was given, in fewer than 4 GiB. -/
structure Compression.Lossless (c : Compression) : Prop where
  roundTrip : ∀ input output, c.compressData input = some output →
    c.uncompressData c.type output = some input
  size : ∀ input output, c.compressData input = some output → output.length < 2 ^ 32

/-- The record of a header, from the bytes that follow it. -/
theorem decodeRecord_stored {stored : Bytes} (hsize : stored.length < 2 ^ 32) (type : UInt8)
    (c : Compression) (beyond : Mem) (crc : UInt32)
    (hcrc : Crc32c.extend (Crc32c.value (sizeAndType stored type)) stored = crc) :
    BlobDecoder.decodeRecord ⟨crc, Crc32c.value (sizeAndType stored type),
        UInt32.ofNat stored.length, type⟩ c beyond stored =
      if type = kNoCompression then decodeInto BlobRecord.decodeFrom stored false
      else match c.uncompressData type stored with
        | none => .error (corruption "Corrupted compressed blob")
        | some buffer => decodeInto BlobRecord.decodeFrom buffer false := by
  have hlen : (UInt32.ofNat stored.length).toNat = stored.length := UInt32.toNat_ofNat_of_lt' hsize
  simp only [BlobDecoder.decodeRecord, hlen, take_length, Nat.sub_self, slice, append_nil,
    hcrc, ne_eq, not_true_eq_false, ↓reduceIte]

theorem decodeInto_encodeTo (hr : r.Fits) : decodeInto BlobRecord.decodeFrom r.encodeTo false = .ok r := by
  have hdecode := BlobRecord.decodeFrom_encodeTo hr []
  rw [append_nil] at hdecode
  simp [decodeInto, hdecode]

/-- What `Compress` stores decodes to the record. -/
theorem decodeRecord_compress_of_stored (hc : c.Lossless) (hr : r.Fits)
    (hsize : (c.compress r.encodeTo).1.length < 2 ^ 32) (beyond : Mem) :
    BlobDecoder.decodeRecord ⟨Crc32c.extend (Crc32c.value (sizeAndType (c.compress r.encodeTo).1
          (c.compress r.encodeTo).2)) (c.compress r.encodeTo).1,
        Crc32c.value (sizeAndType (c.compress r.encodeTo).1 (c.compress r.encodeTo).2),
        UInt32.ofNat (c.compress r.encodeTo).1.length, (c.compress r.encodeTo).2⟩ c beyond
        (c.compress r.encodeTo).1 = .ok r := by
  rw [decodeRecord_stored hsize _ _ _ _ rfl]
  unfold Compression.compress
  by_cases htype : c.type = kNoCompression
  · rw [if_pos htype, htype, if_pos rfl]
    exact decodeInto_encodeTo hr
  · rw [if_neg htype]
    cases hdata : c.compressData r.encodeTo with
    | none => exact decodeInto_encodeTo hr
    | some output =>
      dsimp only
      rw [if_neg htype, hc.roundTrip _ _ hdata]
      exact decodeInto_encodeTo hr

/-- The size of a stored record has 32 bits: a longer record is not decoded. -/
theorem decodeEntry_raw_large (hr : r.Fits) (hraw : c.compress r.encodeTo = (r.encodeTo, kNoCompression))
    (hsize : 2 ^ 32 ≤ r.encodeTo.length) (beyond : Mem) (r' : BlobRecord) :
    decodeEntry c beyond (encodeRecord c r) ≠ .ok r' := by
  have hsmall := (UInt32.ofNat r.encodeTo.length).toNat_lt
  have hnone : (UInt32.ofNat r.encodeTo.length).toNat - r.encodeTo.length = 0 := by omega
  rw [decodeEntry, encodeRecord, encodeSlice, hraw, decodeHeader_entryHeader]
  simp only [BlobDecoder.decodeRecord, hnone, slice, append_nil, ↓reduceIte]
  split
  · intro h
    cases h
  · intro h
    rw [decodeInto] at h
    split at h
    · cases h
    · rename_i rest hdecode
      split at h
      · cases h
      · rename_i hrest
        cases h
        have hnil : rest = [] := by simpa using hrest
        rw [hnil] at hdecode
        exact BlobRecord.decodeFrom_take hr (by omega) r' hdecode

theorem fits_of_decodeInto {extra : Bool} (h : decodeInto BlobRecord.decodeFrom src extra = .ok r) :
    r.Fits := by
  rw [decodeInto] at h
  split at h
  · cases h
  · rename_i r' rest hdecode
    split at h
    · cases h
    · cases h
      exact (BlobRecord.decodeFrom_append hdecode []).1

theorem fits_of_decodeEntry {beyond : Mem} (h : decodeEntry c beyond src = .ok r) : r.Fits := by
  rw [decodeEntry] at h
  split at h
  · cases h
  · rw [BlobDecoder.decodeRecord] at h
    split at h
    · cases h
    · split at h
      · exact fits_of_decodeInto h
      · split at h
        · cases h
        · exact fits_of_decodeInto h

/-- An entry decodes to its record exactly if the lengths of key, value and stored record
fit the 32 bits they are written in. -/
theorem decodeEntry_encodeRecord_iff (hc : c.Lossless) (r : BlobRecord) (beyond : Mem) :
    decodeEntry c beyond (encodeRecord c r) = .ok r ↔
      r.Fits ∧ (c.compress r.encodeTo).1.length < 2 ^ 32 := by
  constructor
  · intro h
    have hfits := fits_of_decodeEntry h
    refine ⟨hfits, ?_⟩
    by_contra hlarge
    -- what is compressed is smaller, so the record is stored as it is
    have hraw : c.compress r.encodeTo = (r.encodeTo, kNoCompression) := by
      unfold Compression.compress at hlarge ⊢
      split
      · rename_i htype
        rw [htype]
      · rename_i htype
        rw [if_neg htype] at hlarge
        cases hdata : c.compressData r.encodeTo with
        | none => rfl
        | some output =>
          rw [hdata] at hlarge
          exact absurd (hc.size _ _ hdata) hlarge
    rw [hraw] at hlarge
    exact decodeEntry_raw_large hfits hraw (not_lt.mp hlarge) beyond r h
  · intro h
    rw [decodeEntry, encodeRecord, encodeSlice, decodeHeader_entryHeader]
    exact decodeRecord_compress_of_stored hc h.1 h.2 beyond

/-! ## Uncompressed entries -/

def plainEntry (r : BlobRecord) : Bytes := entryHeader r.encodeTo kNoCompression ++ r.encodeTo

theorem encodeRecord_none (r : BlobRecord) : encodeRecord .none r = plainEntry r := by
  simp only [encodeRecord, encodeSlice, Compression.compress, Compression.none, ↓reduceIte,
    plainEntry]

theorem plainEntry_length (r : BlobRecord) :
    (plainEntry r).length = kRecordHeaderSize + r.encodeTo.length := by
  rw [plainEntry, length_append, entryHeader_length]

theorem decodeRecord_plain (hr : r.Fits) (hsize : r.encodeTo.length < 2 ^ 32) (c : Compression)
    (beyond : Mem) :
    BlobDecoder.decodeRecord ⟨Crc32c.extend (Crc32c.value (sizeAndType r.encodeTo kNoCompression))
        r.encodeTo, Crc32c.value (sizeAndType r.encodeTo kNoCompression),
        UInt32.ofNat r.encodeTo.length, kNoCompression⟩ c beyond r.encodeTo = .ok r := by
  rw [decodeRecord_stored hsize _ _ _ _ rfl, if_pos rfl, decodeInto_encodeTo hr]

/-- With any decoder, as it is not compressed. -/
theorem decodeEntry_plainEntry (hr : r.Fits) (hsize : r.encodeTo.length < 2 ^ 32) (c : Compression)
    (beyond : Mem) : decodeEntry c beyond (plainEntry r) = .ok r := by
  rw [decodeEntry, plainEntry, decodeHeader_entryHeader]
  exact decodeRecord_plain hr hsize c beyond

/-! ## File headers -/

def kHeaderMagicNumber : UInt32 := 0x2be0a614

def kVersion1 : UInt32 := 1

def kVersion2 : UInt32 := 2

def kHasUncompressionDictionary : UInt32 := 1

structure BlobFileHeader where
  version : UInt32 := kVersion2
  flags : UInt32 := 0
  deriving Repr, DecidableEq

def BlobFileHeader.size (h : BlobFileHeader) : Nat := if h.version = kVersion1 then 8 else 12

def BlobFileHeader.encodeTo (h : BlobFileHeader) : Bytes :=
  putFixed32 kHeaderMagicNumber ++ putFixed32 h.version ++
    if h.version = kVersion2 then putFixed32 h.flags else []

def BlobFileHeader.decodeFrom (src : Bytes) : Except Status (BlobFileHeader × Bytes) :=
  match getFixed32 src with
  | none => .error (corruption "Blob file header magic number missing or mismatched.")
  | some (magicNumber, src) =>
    if magicNumber ≠ kHeaderMagicNumber then
      .error (corruption "Blob file header magic number missing or mismatched.")
    else match getFixed32 src with
      | none => .error (corruption "Blob file header version missing or invalid.")
      | some (version, src) =>
        if version ≠ kVersion1 ∧ version ≠ kVersion2 then
          .error (corruption "Blob file header version missing or invalid.")
        else if version = kVersion2 then
          match getFixed32 src with
          | none => .error (corruption "Blob file header flags missing or invalid.")
          | some (flags, src) =>
            if flags &&& ~~~kHasUncompressionDictionary ≠ 0 then
              .error (corruption "Blob file header flags missing or invalid.")
            else .ok (⟨version, flags⟩, src)
        else .ok (⟨version, 0⟩, src)

/-- A header without a dictionary, of either version. -/
structure BlobFileHeader.Plain (h : BlobFileHeader) : Prop where
  version : h.version = kVersion1 ∨ h.version = kVersion2
  flags : h.flags = 0

theorem BlobFileHeader.encodeTo_length {h : BlobFileHeader}
    (hversion : h.version = kVersion1 ∨ h.version = kVersion2) : h.encodeTo.length = h.size := by
  rcases hversion with hv | hv <;>
    simp [BlobFileHeader.encodeTo, BlobFileHeader.size, hv, kVersion1, kVersion2]

theorem BlobFileHeader.decodeFrom_encodeTo {h : BlobFileHeader} (hp : h.Plain) (rest : Bytes) :
    BlobFileHeader.decodeFrom (h.encodeTo ++ rest) = .ok (h, rest) := by
  obtain ⟨version, flags⟩ := h
  obtain ⟨hv, rfl⟩ := hp
  rw [BlobFileHeader.encodeTo, append_assoc, append_assoc, BlobFileHeader.decodeFrom,
    getFixed32_putFixed32]
  rcases hv with rfl | rfl <;>
    simp [getFixed32_putFixed32, kVersion1, kVersion2, kHasUncompressionDictionary]

/-! ## Footers -/

def kFooterMagicNumber : UInt64 := 0x2be0a6148e39edc6

def kBlobFooterSize : Nat := 32

/-- `BlockHandle` of the base DB; the default is the null handle. -/
structure BlockHandle where
  offset : UInt64 := 0
  size : UInt64 := 0
  deriving Repr, DecidableEq

def BlockHandle.encodeTo (h : BlockHandle) : Bytes := putVarint64 h.offset ++ putVarint64 h.size

def BlockHandle.decodeFrom (src : Bytes) : Except Status (BlockHandle × Bytes) :=
  match getVarint64 src with
  | none => .error (corruption "bad block handle")
  | some (offset, src) =>
    match getVarint64 src with
    | none => .error (corruption "bad block handle")
    | some (size, src) => .ok (⟨offset, size⟩, src)

theorem BlockHandle.decodeFrom_encodeTo (h : BlockHandle) (rest : Bytes) :
    BlockHandle.decodeFrom (h.encodeTo ++ rest) = .ok (h, rest) := by
  simp [BlockHandle.encodeTo, BlockHandle.decodeFrom, append_assoc]

structure BlobFileFooter where
  metaIndexHandle : BlockHandle := {}
  deriving Repr, DecidableEq

/-- The last bytes of a footer, after the padded handle. -/
def sealFooter (padded : Bytes) : Bytes :=
  let encoded := padded ++ putFixed64 kFooterMagicNumber
  encoded ++ putFixed32 (Crc32c.value encoded)

theorem sealFooter_length {padded : Bytes} (hlen : padded.length = kBlobFooterSize - 12) :
    (sealFooter padded).length = kBlobFooterSize := by
  simp only [sealFooter, length_append, putFixed64_length, putFixed32_length, hlen]
  rfl

def BlobFileFooter.encodeTo (f : BlobFileFooter) : Bytes :=
  let handle := f.metaIndexHandle.encodeTo
  sealFooter ((handle ++ List.replicate (kBlobFooterSize - 12 - handle.length) 0).take
    (kBlobFooterSize - 12))

def BlobFileFooter.decodeFrom (data : Bytes) : Except Status (BlobFileFooter × Bytes) :=
  match BlockHandle.decodeFrom data with
  | .error e => .error (corruption₂ "BlobFileFooter" e.toString)
  | .ok (metaIndexHandle, _) =>
    match getFixed64 (data.drop (kBlobFooterSize - 12)) with
    | none => .error (corruption₂ "BlobFileFooter" "magic number")
    | some (magicNumber, src) =>
      if magicNumber ≠ kFooterMagicNumber then
        .error (corruption₂ "BlobFileFooter" "magic number")
      else match getFixed32 src with
        | none => .error (corruption₂ "BlobFileFooter" "checksum")
        | some (checksum, src) =>
          if Crc32c.value (data.take (kBlobFooterSize - 4)) ≠ checksum then
            .error (corruption₂ "BlobFileFooter" "checksum")
          else .ok (⟨metaIndexHandle⟩, src)

/-- Whatever pads the handle, a sealed footer decodes to it. -/
theorem BlobFileFooter.decodeFrom_sealFooter (handle : BlockHandle) {padding : Bytes}
    (hlen : (handle.encodeTo ++ padding).length = kBlobFooterSize - 12) (rest : Bytes) :
    BlobFileFooter.decodeFrom (sealFooter (handle.encodeTo ++ padding) ++ rest) =
      .ok (⟨handle⟩, rest) := by
  generalize hpad : handle.encodeTo ++ padding = padded at hlen
  have hhandle : BlockHandle.decodeFrom (sealFooter padded ++ rest) =
      .ok (handle, padding ++ putFixed64 kFooterMagicNumber ++
        (putFixed32 (Crc32c.value (padded ++ putFixed64 kFooterMagicNumber)) ++ rest)) := by
    simp [sealFooter, ← hpad, BlockHandle.decodeFrom_encodeTo, append_assoc]
  have hdrop : (sealFooter padded ++ rest).drop (kBlobFooterSize - 12) =
      putFixed64 kFooterMagicNumber ++
        (putFixed32 (Crc32c.value (padded ++ putFixed64 kFooterMagicNumber)) ++ rest) := by
    rw [sealFooter, append_assoc, append_assoc]
    exact drop_left' hlen
  have htake : (sealFooter padded ++ rest).take (kBlobFooterSize - 4) =
      padded ++ putFixed64 kFooterMagicNumber := by
    rw [sealFooter, append_assoc]
    refine take_left' ?_
    rw [length_append, hlen, putFixed64_length]
    rfl
  simp only [BlobFileFooter.decodeFrom, hhandle, hdrop, htake, getFixed64_putFixed64,
    getFixed32_putFixed32, ne_eq, not_true_eq_false, ↓reduceIte]

end TitanGC.Format.BlobFile
