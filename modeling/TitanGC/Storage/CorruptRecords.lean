import TitanGC.Storage.BlobFileReader

/-!
# Reading records that may be corrupt

`ReadRecord` on arbitrary bytes. `DecodeHeader` computes a checksum over five bytes
before it knows that they are there, and `DecodeRecord` takes as many bytes as the
header asks for. In `Format.BlobFile` such a read goes on in the memory behind the
buffer; here it has no result. Where it has one, the memory behind the buffer does not
matter.
-/

namespace TitanGC.Storage.CorruptRecords

open Lib Lib.ByteCoding Lib.Memory List Format.Coding Format.BlobFormat Format.BlobFile
open Storage.Reader

/-! ## Decoding within a buffer -/

/-- `n` bytes through a pointer, where `src` is what is left of its buffer. -/
def load (src : Bytes) (n : Nat) : Option Bytes := if n ≤ src.length then some (src.take n) else none

def decodeHeaderIn (src : Bytes) : Option (Except Status (BlobDecoder × Bytes)) :=
  match getFixed32 src with
  | none => some (.error (corruption "BlobHeader"))
  | some (crc, src) =>
    match load src (kRecordHeaderSize - 4) with
    | none => none
    | some covered =>
      match getFixed32 src with
      | none => some (.error (corruption "BlobHeader"))
      | some (recordSize, src) =>
        match getChar src with
        | none => some (.error (corruption "BlobHeader"))
        | some (compression, src) => some (.ok (⟨crc, Crc32c.value covered, recordSize, compression⟩, src))

/-- `DecodeRecord` once it has its input. -/
def fromInput (d : BlobDecoder) (c : Compression) (input : Bytes) : Except Status BlobRecord :=
  if Crc32c.extend d.headerCrc input ≠ d.crc then
    .error (corruption₂ "BlobRecord" "checksum mismatch")
  else if d.compression = kNoCompression then decodeInto BlobRecord.decodeFrom input false
  else match c.uncompressData d.compression input with
    | none => .error (corruption "Corrupted compressed blob")
    | some buffer => decodeInto BlobRecord.decodeFrom buffer false

theorem decodeRecord_eq (d : BlobDecoder) (c : Compression) (beyond : Mem) (src : Bytes) :
    d.decodeRecord c beyond src = fromInput d c (src.take d.recordSize.toNat ++
      slice beyond 0 (d.recordSize.toNat - src.length)) := rfl

def decodeRecordIn (d : BlobDecoder) (c : Compression) (src : Bytes) : Option (Except Status BlobRecord) :=
  (load src d.recordSize.toNat).map (fromInput d c)

def decodeEntryIn (c : Compression) (src : Bytes) : Option (Except Status BlobRecord) :=
  match decodeHeaderIn src with
  | none => none
  | some (.error e) => some (.error e)
  | some (.ok (d, rest)) => decodeRecordIn d c rest

/-- `BlobFileReader::ReadRecord` with the bytes it has read and nothing else. -/
def readRecordIn (env : ReaderEnv) (r : BlobFileReader) (handle : BlobHandle) :
    Option (Except Status BlobRecord) :=
  match r.file handle.offset.toNat handle.size.toNat with
  | .error e => some (.error e)
  | .ok blob =>
    if handle.size.toNat ≠ blob.length then
      some (.error (corruption ("ReadRecord actual size: " ++ toString blob.length ++
        " not equal to blob size " ++ toString handle.size)))
    else decodeEntryIn (env.compression r.uncompressionDict) blob

/-! ## Bytes that hold what their header asks for -/

/-- The size field of a record header, zero where it is cut off. -/
def sizeField (blob : Bytes) : Nat :=
  match getFixed32 (blob.drop 4) with
  | none => 0
  | some (size, _) => size.toNat

/-- No checksum is attempted, or the header and the bytes it asks for are there. -/
def Contained (blob : Bytes) : Prop := blob.length < 4 ∨ kRecordHeaderSize + sizeField blob ≤ blob.length

theorem load_eq_some {src data : Bytes} {n : Nat} (h : load src n = some data) :
    n ≤ src.length ∧ data = src.take n := by
  rw [load] at h
  split at h
  · rename_i hn
    exact ⟨hn, (Option.some.inj h).symm⟩
  · cases h

theorem getFixed32_eq (src : Bytes) :
    (getFixed32 src = none ∧ src.length < 4) ∨
      ∃ v, getFixed32 src = some (v, src.drop 4) ∧ 4 ≤ src.length := by
  rw [getFixed32]
  split
  · exact .inl ⟨rfl, ‹_›⟩
  · exact .inr ⟨_, rfl, by omega⟩

variable {src : Bytes}

/-- The header of a long enough buffer is decoded, with its size field. -/
theorem decodeHeaderIn_of_length (h : kRecordHeaderSize ≤ src.length) :
    ∃ d rest, decodeHeaderIn src = some (.ok (d, rest)) ∧ d.recordSize.toNat = sizeField src ∧
      rest.length + kRecordHeaderSize = src.length ∧ ∀ beyond c,
        decodeEntry c beyond src = d.decodeRecord c beyond rest := by
  have hnine : 9 ≤ src.length := h
  rcases getFixed32_eq src with ⟨-, hshort⟩ | ⟨crc, hcrc, -⟩
  · omega
  rcases getFixed32_eq (src.drop 4) with ⟨-, hshort⟩ | ⟨size, hsize, -⟩
  · rw [length_drop] at hshort
    omega
  have hfive : load (src.drop 4) (kRecordHeaderSize - 4) =
    some ((src.drop 4).take (kRecordHeaderSize - 4)) := by
    rw [load, if_pos]
    rw [length_drop]
    change 5 ≤ src.length - 4
    omega
  have hlen : ((src.drop 4).drop 4).length = src.length - 8 := by
    rw [drop_drop, length_drop]
  cases hrest : (src.drop 4).drop 4 with
  | nil =>
    rw [hrest, length_nil] at hlen
    omega
  | cons type rest =>
    rw [hrest, length_cons] at hlen
    have hchar : getChar (type :: rest) = some (type, rest) := rfl
    rw [hrest] at hsize
    refine ⟨⟨crc, Crc32c.value ((src.drop 4).take (kRecordHeaderSize - 4)), size, type⟩, rest,
      ?_, ?_, ?_, fun beyond c => ?_⟩
    · rw [decodeHeaderIn, hcrc]
      dsimp only
      rw [hfive]
      dsimp only
      rw [hsize]
      dsimp only
      rw [hchar]
    · rw [sizeField, hsize]
    · change rest.length + 9 = src.length
      omega
    · rw [decodeEntry, decodeHeader, hcrc]
      dsimp only
      rw [hsize]
      dsimp only
      rw [hchar]

/-- A buffer of four to eight bytes: the checksum of the header runs past its end. -/
theorem decodeHeaderIn_cut (hfour : 4 ≤ src.length) (h : src.length < kRecordHeaderSize) :
    decodeHeaderIn src = none := by
  rcases getFixed32_eq src with ⟨-, hshort⟩ | ⟨crc, hcrc, -⟩
  · omega
  · rw [decodeHeaderIn, hcrc]
    dsimp only
    rw [load, if_neg]
    rw [length_drop]
    change ¬ 5 ≤ src.length - 4
    change src.length < 9 at h
    omega

theorem decodeHeaderIn_short (h : src.length < 4) :
    decodeHeaderIn src = some (.error (corruption "BlobHeader")) ∧
      ∀ c beyond, decodeEntry c beyond src = .error (corruption "BlobHeader") := by
  rcases getFixed32_eq src with ⟨hnone, -⟩ | ⟨crc, hcrc, hfour⟩
  · rw [decodeHeaderIn, hnone]
    refine ⟨rfl, fun c beyond => ?_⟩
    rw [decodeEntry, decodeHeader, hnone]
  · omega

variable {c : Compression}

/-- With the input at hand, what follows the buffer plays no part. -/
theorem decodeRecord_of_load {d : BlobDecoder} (h : d.recordSize.toNat ≤ src.length) :
    ∃ outcome, decodeRecordIn d c src = some outcome ∧ ∀ beyond, d.decodeRecord c beyond src = outcome := by
  refine ⟨fromInput d c (src.take d.recordSize.toNat), ?_, fun beyond => ?_⟩
  · rw [decodeRecordIn, load, if_pos h, Option.map_some]
  · have hnone : d.recordSize.toNat - src.length = 0 := by omega
    rw [decodeRecord_eq, hnone, slice, append_nil]

theorem decodeEntryIn_of_contained (c : Compression) {blob : Bytes} (h : Contained blob) :
    ∃ outcome, decodeEntryIn c blob = some outcome ∧ ∀ beyond, decodeEntry c beyond blob = outcome := by
  rcases h with hshort | hlong
  · obtain ⟨hheader, hentry⟩ := decodeHeaderIn_short hshort
    refine ⟨.error (corruption "BlobHeader"), ?_, hentry c⟩
    rw [decodeEntryIn, hheader]
  · obtain ⟨d, rest, hheader, hsize, hrest, hentry⟩ :=
      decodeHeaderIn_of_length (Nat.le_trans (Nat.le_add_right _ _) hlong)
    have hfits : d.recordSize.toNat ≤ rest.length := by omega
    obtain ⟨outcome, hin, hout⟩ := decodeRecord_of_load (c := c) hfits
    refine ⟨outcome, ?_, fun beyond => (hentry beyond c).trans (hout beyond)⟩
    rw [decodeEntryIn, hheader]
    exact hin

theorem contained_of_decodeEntryIn {blob : Bytes} {outcome : Except Status BlobRecord}
    (h : decodeEntryIn c blob = some outcome) : Contained blob := by
  by_cases hfour : blob.length < 4
  · exact .inl hfour
  by_cases hnine : blob.length < kRecordHeaderSize
  · rw [decodeEntryIn, decodeHeaderIn_cut (by omega) hnine] at h
    cases h
  · obtain ⟨d, rest, hheader, hsize, hrest, -⟩ := decodeHeaderIn_of_length (Nat.le_of_not_lt hnine)
    rw [decodeEntryIn, hheader] at h
    obtain ⟨input, hload, -⟩ := Option.map_eq_some_iff.mp h
    have hfits := (load_eq_some hload).1
    exact .inr (by omega)

/-! ## Reading by a handle -/

/-- `ReadRecord` has an outcome, and from the bytes at the handle alone, exactly if
these bytes are fewer than four or hold as many as their header asks for. -/
theorem read_own_bytes_iff (env : ReaderEnv) (r : BlobFileReader) (handle : BlobHandle) :
    (∃ outcome, readRecordIn env r handle = some outcome ∧
        ∀ beyond, r.readRecord { env with beyond } handle = outcome) ↔
      ∀ blob, r.file handle.offset.toNat handle.size.toNat = .ok blob →
        blob.length = handle.size.toNat → Contained blob := by
  constructor
  · rintro ⟨outcome, hin, -⟩ blob hread hlen
    rw [readRecordIn, hread] at hin
    dsimp only at hin
    rw [if_neg (not_not_intro hlen.symm)] at hin
    exact contained_of_decodeEntryIn hin
  · intro h
    cases hread : r.file handle.offset.toNat handle.size.toNat with
    | error e =>
      refine ⟨.error e, ?_, fun beyond => ?_⟩
      · rw [readRecordIn, hread]
      · rw [BlobFileReader.readRecord, hread]
    | ok blob =>
      by_cases hlen : handle.size.toNat = blob.length
      · obtain ⟨outcome, hin, hout⟩ := decodeEntryIn_of_contained
          (env.compression r.uncompressionDict) (h blob hread hlen.symm)
        refine ⟨outcome, ?_, fun beyond => ?_⟩
        · rw [readRecordIn, hread]
          dsimp only
          rw [if_neg (not_not_intro hlen), hin]
        · rw [BlobFileReader.readRecord, hread]
          dsimp only
          rw [if_neg (not_not_intro hlen), hout]
      · refine ⟨.error (corruption ("ReadRecord actual size: " ++ toString blob.length ++
            " not equal to blob size " ++ toString handle.size)), ?_, fun beyond => ?_⟩
        · rw [readRecordIn, hread]
          dsimp only
          rw [if_pos hlen]
        · rw [BlobFileReader.readRecord, hread]
          dsimp only
          rw [if_pos hlen]

/-- The record with key 1 and value 2, without its last byte. -/
def cutRecord : Bytes := (encodeRecord .none ⟨[1], [2]⟩).take 12

def plainEnv (beyond : Mem) : ReaderEnv where
  compression := fun _ => .none
  findDictionary := fun _ => .error (corruption "no dictionary")
  zstdTooOld := false
  beyond := beyond

def cutReader : BlobFileReader := ⟨.ofBytes cutRecord, {}, []⟩

/-- The header of the cut record asks for one byte more than the handle has. The read
has no outcome of its own: a record is found or not, as the memory behind the buffer
has it. -/
theorem cutRecord_reads_beyond :
    readRecordIn (plainEnv fun _ => 0) cutReader ⟨0, 12, 0⟩ = none ∧
    cutReader.readRecord (plainEnv fun _ => 2) ⟨0, 12, 0⟩ = .ok ⟨[1], [2]⟩ ∧
    cutReader.readRecord (plainEnv fun _ => 0) ⟨0, 12, 0⟩ =
      .error (corruption₂ "BlobRecord" "checksum mismatch") := by
  decide +kernel

end TitanGC.Storage.CorruptRecords
