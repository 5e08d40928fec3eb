import TitanGC.Kernel.Coding
import TitanGC.Format.BlobFile

/-!
# The file format of the kernel

`file_format.h` of the kernel. Each function is given the memory that its pointer
leads into and the running offset, and returns what it leaves in both. The checksum
routine is a parameter. What the functions read and write are the headers, entries
and footers of blob files.
-/

namespace TitanGC.Kernel.FileFormat

open Lib Lib.ByteCoding Lib.Memory List Format.Coding Format.BlobFile Coding
open Function (update)

abbrev Checksum := UInt32 → Bytes → UInt32

/-- The routine computes the checksum of the base DB. -/
def Checksum.Agrees (crc : Checksum) : Prop := ∀ bs, crc 0 bs = Crc32c.value bs

variable {crc : Checksum} {m : Mem}

/-! ## Headers -/

def kBlobMaxHeaderSize : Nat := 12

def kBlobMinHeaderSize : Nat := 8

/-- Whether the header is accepted, and the offset behind it. -/
def decodeHeader (m : Mem) (data curOffset : Nat) : Bool × Nat :=
  let data := data + curOffset
  if decodeFixed32 m data ≠ kHeaderMagicNumber then (false, curOffset)
  else
    let version := decodeFixed32 m (data + 4)
    if version ≠ kVersion1 ∧ version ≠ kVersion2 then (false, curOffset)
    else if version = kVersion2 then
      if decodeFixed32 m (data + 8) &&& ~~~kHasUncompressionDictionary ≠ 0 then (false, curOffset)
      else (true, curOffset + kBlobMaxHeaderSize)
    else (true, curOffset + kBlobMinHeaderSize)

def encodeHeader (m : Mem) (curOffset : Nat) : Mem × Nat :=
  let m := encodeFixed32 m curOffset kHeaderMagicNumber.toNat
  let m := encodeFixed32 m (curOffset + 4) kVersion2.toNat
  let m := encodeFixed32 m (curOffset + 8) 0
  (m, curOffset + kBlobMaxHeaderSize)

variable {data curOffset : Nat} {r : BlobRecord}

/-- A header that the kernel accepts: of either version, with or without a dictionary. -/
structure Accepted (h : BlobFileHeader) : Prop where
  version : h.version = kVersion1 ∨ h.version = kVersion2
  flags : h.flags &&& ~~~kHasUncompressionDictionary = 0

theorem decodeHeader_eq {h : BlobFileHeader} (hp : Accepted h) (hat : HasAt m data h.encodeTo) :
    decodeHeader m data 0 = (true, h.size) := by
  obtain ⟨version, flags⟩ := h
  obtain ⟨hv, hknown⟩ := hp
  rw [BlobFileHeader.encodeTo] at hat
  obtain ⟨hat, hflags⟩ := hasAt_append.mp hat
  obtain ⟨hmagic, hversion⟩ := hasAt_append.mp hat
  rw [putFixed32_length] at hversion
  rw [decodeHeader, Nat.add_zero, decodeFixed32_eq hmagic, decodeFixed32_eq hversion]
  rcases hv with rfl | rfl
  · simp [kVersion1, kVersion2, BlobFileHeader.size, kBlobMinHeaderSize]
  · rw [if_pos rfl, length_append, putFixed32_length, putFixed32_length] at hflags
    rw [decodeFixed32_eq hflags, if_neg (not_not.mpr rfl), if_neg fun h => h.2 rfl, if_pos rfl,
      if_neg (not_not.mpr hknown)]
    rfl

theorem encodeHeader_eq (m : Mem) :
    encodeHeader m 0 = (write m 0 ({} : BlobFileHeader).encodeTo, kBlobMaxHeaderSize) := by
  simp only [encodeHeader, encodeFixed32_eq, UInt32.ofNat_toNat, Nat.zero_add,
    BlobFileHeader.encodeTo, ↓reduceIte, write_append, putFixed32_length, length_append]
  rfl

/-! ## Footers -/

/-- The footer ends at a page; the bytes skipped, and those between the two varints and
the magic number, keep what the buffer held. -/
def encodeFooter (crc : Checksum) (m : Mem) (curOffset : Nat) : Mem × Nat :=
  let alignPadding := (curOffset + kBlobFooterSize) &&& 4095
  let alignPadding := if alignPadding > 0 then 4096 - alignPadding else alignPadding
  let curOffset := curOffset + alignPadding
  let (m, varOffset) := encodeVarint64 m curOffset 0
  let (m, _) := encodeVarint64 m (curOffset + varOffset) 0
  let m := encodeFixed64 m (curOffset + kBlobFooterSize - 12) kFooterMagicNumber.toNat
  let sum := crc 0 (slice m curOffset (kBlobFooterSize - 4))
  let m := encodeFixed32 m (curOffset + kBlobFooterSize - 4) sum.toNat
  (m, curOffset + kBlobFooterSize)

def footerOffset (curOffset : Nat) : Nat :=
  let alignPadding := (curOffset + kBlobFooterSize) % 4096
  curOffset + if alignPadding > 0 then 4096 - alignPadding else alignPadding

theorem le_footerOffset (curOffset : Nat) : curOffset ≤ footerOffset curOffset := Nat.le_add_right _ _

/-- What stays in the buffer pads the handle of the footer. -/
def footerPadding (m : Mem) (curOffset : Nat) : Bytes := slice m (footerOffset curOffset + 2) 18

theorem encodeFooter_eq (hcrc : crc.Agrees) (m : Mem) (curOffset : Nat) :
    encodeFooter crc m curOffset =
      (write m (footerOffset curOffset)
          (sealFooter (({} : BlockHandle).encodeTo ++ footerPadding m curOffset)),
        footerOffset curOffset + kBlobFooterSize) := by
  have hand : (curOffset + kBlobFooterSize) &&& 4095 = (curOffset + kBlobFooterSize) % 4096 :=
    Nat.and_two_pow_sub_one_eq_mod _ 12
  have hoffset : curOffset + (if (curOffset + kBlobFooterSize) % 4096 > 0 then
      4096 - (curOffset + kBlobFooterSize) % 4096 else (curOffset + kBlobFooterSize) % 4096) =
      footerOffset curOffset := rfl
  have hhandle : ({} : BlockHandle).encodeTo = [0, 0] := by decide
  have hzero : encodeVarint 0 0 = [0] := rfl
  have hpad : (({} : BlockHandle).encodeTo ++ footerPadding m curOffset).length = 20 := by
    simp [hhandle, footerPadding]
  simp only [encodeFooter, hand, hoffset]
  generalize hf : footerOffset curOffset = f at hpad ⊢
  -- the padding can be taken to be written: it is what the buffer holds
  have hpadded : write (write m f [0]) (f + 1) [0] =
      write m f (({} : BlockHandle).encodeTo ++ footerPadding m curOffset) := by
    have hkept : footerPadding m curOffset = slice (write m f [0, 0]) (f + 2) 18 := by
      rw [footerPadding, hf, slice_write_after (by simp)]
    rw [hhandle, hkept, write_append, length_cons, length_singleton, write_slice_self]
    rfl
  have h64 := fun (mem : Mem) (dst : Nat) => encodeVarint64_eq mem dst 0 0 (by norm_num)
  simp only [h64, hzero, length_singleton, hpadded, encodeFixed64_eq, encodeFixed32_eq,
    UInt64.ofNat_toNat, UInt32.ofNat_toNat]
  generalize ({} : BlockHandle).encodeTo ++ footerPadding m curOffset = padded at hpad
  have hmagic : write (write m f padded) (f + kBlobFooterSize - 12) (putFixed64 kFooterMagicNumber) =
      write m f (padded ++ putFixed64 kFooterMagicNumber) := by
    rw [write_append, hpad]
    rfl
  have hlen : (padded ++ putFixed64 kFooterMagicNumber).length = kBlobFooterSize - 4 := by
    rw [length_append, hpad, putFixed64_length]
    rfl
  have hend := write_append m f (padded ++ putFixed64 kFooterMagicNumber)
    (putFixed32 (Crc32c.value (padded ++ putFixed64 kFooterMagicNumber)))
  rw [hlen] at hend
  rw [hmagic, ← hlen, slice_write_self, hcrc, sealFooter, hend]
  rfl

/-! ## Entries -/

def checkValid (offset : Nat) (m : Mem) (bitmap : Nat) : Bool :=
  (m (bitmap + (offset >>> 3))).toNat &&& (1 <<< (7 - (offset &&& 7))) = 0

def MAX_KEY_LENGTH : Nat := 64

def MAX_VALUE_LENGTH : Nat := 8192

/-- What `GetKV` leaves in its output parameters. The staging arrays are zero
beyond the two strings. -/
structure KV where
  key : Bytes
  keySize : UInt32
  value : Bytes
  valueSize : UInt32
  curOffset : Nat

/-- `none` is a write beyond a staging array. -/
def getKV (m : Mem) (data curOffset : Nat) (valid : Bool) (keySize valueSize : UInt32) : Option KV :=
  let data := data + curOffset + kRecordHeaderSize
  let curOffset := curOffset + kRecordHeaderSize
  if valid then
    match decodeVarint32AndValue m data MAX_KEY_LENGTH with
    | none => none
    | some (key, keyOffset) =>
      match decodeVarint32AndValue m (data + keyOffset) MAX_VALUE_LENGTH with
      | none => none
      | some (value, valueOffset) =>
        some ⟨key, UInt32.ofNat key.length, value, UInt32.ofNat value.length,
          curOffset + (keyOffset + valueOffset)⟩
  else
    let (keySize, keyOffset) := decodeVarint32 m data keySize
    let keyOffset := keyOffset + keySize.toNat
    let (valueSize, valueOffset) := decodeVarint32 m (data + keyOffset) valueSize
    let valueOffset := valueOffset + valueSize.toNat
    some ⟨[], keySize, [], valueSize, curOffset + (keyOffset + valueOffset)⟩

def putOutputData (crc : Checksum) (m : Mem) (key value : Bytes) (curOffset : Nat) : Mem × Nat :=
  let data := curOffset
  let (m, keyOffset) := encodeVarint32AndValue m (data + kRecordHeaderSize) key
  let (m, valueOffset) := encodeVarint32AndValue m (data + kRecordHeaderSize + keyOffset) value
  let m := encodeFixed32 m (data + 4) (keyOffset + valueOffset)
  let m := update m (data + 8) 0
  let sum := crc 0 (slice m (data + 4) (kRecordHeaderSize - 4 + keyOffset + valueOffset))
  let m := encodeFixed32 m data sum.toNat
  (m, curOffset + (kRecordHeaderSize + keyOffset + valueOffset))

def putOutputKey (m : Mem) (key : Bytes) (curOffset newDataOffset originalFile originalDataOffset
    entrySize : Nat) : Mem × Nat :=
  let data := curOffset
  let (m, offset) := encodeVarint32 m data (UInt32.ofNat key.length)
  let m := write m (data + offset) key
  let m := encodeFixed32 m (data + offset + key.length) newDataOffset
  let m := encodeFixed32 m (data + offset + key.length + 4) originalFile
  let m := encodeFixed32 m (data + offset + key.length + 8) originalDataOffset
  let m := encodeFixed32 m (data + offset + key.length + 12) entrySize
  (m, curOffset + (offset + key.length + 16))

/-- The strings of a record fit the staging arrays. -/
structure Staged (r : BlobRecord) : Prop where
  key : r.key.length ≤ MAX_KEY_LENGTH
  value : r.value.length ≤ MAX_VALUE_LENGTH

theorem Staged.fits (h : Staged r) : r.Fits :=
  ⟨Nat.lt_of_le_of_lt h.key (by decide), Nat.lt_of_le_of_lt h.value (by decide)⟩

/-- Records that are staged are small. -/
theorem Staged.encodeTo_lt (h : Staged r) : r.encodeTo.length < 2 ^ 14 := by
  have hkey := h.key
  have hvalue := h.value
  have hkeyLength := encodeVarint_length_le 4 (UInt32.ofNat r.key.length).toNat
  have hvalueLength := encodeVarint_length_le 4 (UInt32.ofNat r.value.length).toNat
  rw [MAX_KEY_LENGTH] at hkey
  rw [MAX_VALUE_LENGTH] at hvalue
  simp only [BlobRecord.encodeTo, putLengthPrefixedSlice, putVarint32, length_append]
  omega

/-- Where the two strings of an entry stand. -/
theorem hasAt_strings (hat : HasAt m (data + curOffset) (plainEntry r)) :
    HasAt m (data + curOffset + kRecordHeaderSize) (putLengthPrefixedSlice r.key) ∧
      HasAt m (data + curOffset + kRecordHeaderSize + (putLengthPrefixedSlice r.key).length)
        (putLengthPrefixedSlice r.value) := by
  rw [plainEntry] at hat
  have hbody := (hasAt_append.mp hat).2
  rw [entryHeader_length, BlobRecord.encodeTo] at hbody
  exact hasAt_append.mp hbody

/-- A kept entry is read only if it can be staged. -/
theorem staged_of_getKV (hr : r.Fits) (hat : HasAt m (data + curOffset) (plainEntry r))
    {keySize valueSize : UInt32} {kv : KV} (h : getKV m data curOffset true keySize valueSize = some kv) :
    Staged r := by
  obtain ⟨hkey, hvalue⟩ := hasAt_strings hat
  simp only [getKV, ↓reduceIte, decodeVarint32AndValue_eq hr.key hkey] at h
  by_cases hk : r.key.length ≤ MAX_KEY_LENGTH
  · simp only [if_pos hk, decodeVarint32AndValue_eq hr.value hvalue] at h
    by_cases hv : r.value.length ≤ MAX_VALUE_LENGTH
    · exact ⟨hk, hv⟩
    · simp [hv] at h
  · simp [hk] at h

/-- What is copied has been staged, and the kernel goes on within a few bytes of it. -/
theorem getKV_bounds {keySize valueSize : UInt32} {kv : KV}
    (h : getKV m data curOffset true keySize valueSize = some kv) :
    Staged ⟨kv.key, kv.value⟩ ∧ kv.curOffset ≤ curOffset + 2 ^ 14 := by
  rw [getKV] at h
  dsimp only at h
  rw [if_pos rfl] at h
  split at h
  · cases h
  · rename_i key keyOffset hkey
    split at h
    · cases h
    · rename_i value valueOffset hvalue
      cases h
      obtain ⟨hkey, hkeyOffset⟩ := decodeVarint32AndValue_le hkey
      obtain ⟨hvalue, hvalueOffset⟩ := decodeVarint32AndValue_le hvalue
      refine ⟨⟨hkey, hvalue⟩, ?_⟩
      rw [MAX_KEY_LENGTH] at hkeyOffset
      rw [MAX_VALUE_LENGTH] at hvalueOffset
      simp only [kRecordHeaderSize]
      omega

/-- Both ways of reading an entry end behind it; a kept one has been staged. -/
theorem getKV_eq (hr : r.Fits) (hat : HasAt m (data + curOffset) (plainEntry r)) (valid : Bool)
    (hstaged : valid = true → Staged r) (keySize valueSize : UInt32) :
    ∃ kv, getKV m data curOffset valid keySize valueSize = some kv ∧
      kv.curOffset = curOffset + (plainEntry r).length ∧
      (valid = true → kv.key = r.key ∧ kv.value = r.value) := by
  have hlen := plainEntry_length r
  obtain ⟨hkey, hvalue⟩ := hasAt_strings hat
  have hsize : r.encodeTo.length =
      (putLengthPrefixedSlice r.key).length + (putLengthPrefixedSlice r.value).length :=
    length_append
  cases valid with
  | true =>
    have hkv : getKV m data curOffset true keySize valueSize =
        some ⟨r.key, UInt32.ofNat r.key.length, r.value, UInt32.ofNat r.value.length,
          curOffset + kRecordHeaderSize + ((putLengthPrefixedSlice r.key).length +
            (putLengthPrefixedSlice r.value).length)⟩ := by
      simp only [getKV, ↓reduceIte, decodeVarint32AndValue_eq hr.key hkey, if_pos (hstaged rfl).key,
        decodeVarint32AndValue_eq hr.value hvalue, if_pos (hstaged rfl).value]
    exact ⟨_, hkv, by simp only; omega, fun _ => ⟨rfl, rfl⟩⟩
  | false =>
    simp only [putLengthPrefixedSlice, length_append] at hkey hvalue hsize
    have hkeySize : (UInt32.ofNat r.key.length).toNat = r.key.length :=
      UInt32.toNat_ofNat_of_lt' hr.key
    have hvalueSize : (UInt32.ofNat r.value.length).toNat = r.value.length :=
      UInt32.toNat_ofNat_of_lt' hr.value
    have hkv : getKV m data curOffset false keySize valueSize =
        some ⟨[], UInt32.ofNat r.key.length, [], UInt32.ofNat r.value.length,
          curOffset + kRecordHeaderSize +
            ((putVarint32 (UInt32.ofNat r.key.length)).length + r.key.length +
            ((putVarint32 (UInt32.ofNat r.value.length)).length + r.value.length))⟩ := by
      simp only [getKV, Bool.false_eq_true, ↓reduceIte,
        decodeVarint32_eq (hasAt_append.mp hkey).1, hkeySize,
        decodeVarint32_eq (hasAt_append.mp hvalue).1, hvalueSize]
    exact ⟨_, hkv, by simp only; omega, fun hvalid => absurd hvalid Bool.false_ne_true⟩

theorem putOutputData_eq (hcrc : crc.Agrees) (m : Mem) (r : BlobRecord) (curOffset : Nat) :
    putOutputData crc m r.key r.value curOffset =
      (write m curOffset (plainEntry r), curOffset + (plainEntry r).length) := by
  have hsize : (putLengthPrefixedSlice r.key).length + (putLengthPrefixedSlice r.value).length =
      r.encodeTo.length := length_append.symm
  have hlen : (sizeAndType r.encodeTo kNoCompression ++ r.encodeTo).length =
      kRecordHeaderSize - 4 + r.encodeTo.length := by
    simp only [sizeAndType, kRecordHeaderSize, length_append, putFixed32_length,
      length_singleton]
  -- the strings, then the five bytes before them, then the checksum before those
  have hbody : ∀ mem : Mem, write (write mem (curOffset + kRecordHeaderSize)
      (putLengthPrefixedSlice r.key)) (curOffset + kRecordHeaderSize +
        (putLengthPrefixedSlice r.key).length) (putLengthPrefixedSlice r.value) =
      write mem (curOffset + kRecordHeaderSize) r.encodeTo := fun mem => by
    rw [BlobRecord.encodeTo, write_append]
  have hhead : ∀ mem : Mem, update (write (write mem (curOffset + kRecordHeaderSize) r.encodeTo)
      (curOffset + 4) (putFixed32 (UInt32.ofNat r.encodeTo.length))) (curOffset + 8) 0 =
      write mem (curOffset + 4) (sizeAndType r.encodeTo kNoCompression ++ r.encodeTo) := by
    intro mem
    rw [← write_prepend, sizeAndType, write_append, length_append, putFixed32_length]
    rfl
  simp only [putOutputData, encodeVarint32AndValue_eq, hbody, Nat.add_assoc kRecordHeaderSize,
    Nat.add_assoc (kRecordHeaderSize - 4), hsize, encodeFixed32_eq, hhead, UInt32.ofNat_toNat]
  have hend := write_prepend m curOffset
    (putFixed32 (Crc32c.value (sizeAndType r.encodeTo kNoCompression ++ r.encodeTo)))
    (sizeAndType r.encodeTo kNoCompression ++ r.encodeTo)
  rw [putFixed32_length] at hend
  rw [← hlen, slice_write_self, hcrc, hend, plainEntry_length, plainEntry, entryHeader,
    Crc32c.extend_value, append_assoc]

/-- The bytes that tell the host of one rewritten record. -/
def keyTuple (key : Bytes) (newDataOffset originalFile originalDataOffset entrySize : Nat) : Bytes :=
  putVarint32 (UInt32.ofNat key.length) ++ key ++ putFixed32 (UInt32.ofNat newDataOffset) ++
    putFixed32 (UInt32.ofNat originalFile) ++ putFixed32 (UInt32.ofNat originalDataOffset) ++
    putFixed32 (UInt32.ofNat entrySize)

theorem keyTuple_length (key : Bytes) (newDataOffset originalFile originalDataOffset
    entrySize : Nat) :
    (keyTuple key newDataOffset originalFile originalDataOffset entrySize).length =
      (putVarint32 (UInt32.ofNat key.length)).length + key.length + 16 := by
  simp only [keyTuple, length_append, putFixed32_length]

theorem putOutputKey_eq (m : Mem) (key : Bytes) (curOffset newDataOffset originalFile
    originalDataOffset entrySize : Nat) :
    putOutputKey m key curOffset newDataOffset originalFile originalDataOffset entrySize =
      (write m curOffset (keyTuple key newDataOffset originalFile originalDataOffset entrySize),
        curOffset + (keyTuple key newDataOffset originalFile originalDataOffset entrySize).length) := by
  rw [keyTuple_length]
  simp only [putOutputKey, encodeVarint32_eq, encodeFixed32_eq, keyTuple, write_append,
    length_append, putFixed32_length, Nat.add_assoc]

end TitanGC.Kernel.FileFormat
