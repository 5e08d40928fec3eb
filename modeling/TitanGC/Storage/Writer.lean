import TitanGC.Format.InternalKey
import TitanGC.Storage.BlobFileBuilder

/-!
# Writing blob files

`BlobFileBuilder` with everything it can do: appends may fail, and with dictionary
compression the records are buffered until enough samples have been seen. Contexts
that wait for their handles are handed out in the order they came.
-/

namespace TitanGC.Storage.Writer

open Lib Lib.ByteCoding List Format.Coding Format.BlobFormat Format.BlobFile

/-- A file that is written, with what each `Append` and `Flush` returns. -/
structure WritableFile where
  bytes : Bytes := []
  calls : Nat := 0
  outcome : Nat → Option Status

/-- A failed append does not count towards the size. -/
def WritableFile.append (w : WritableFile) (data : Bytes) : Option Status × WritableFile :=
  match w.outcome w.calls with
  | none => (none, { w with bytes := w.bytes ++ data, calls := w.calls + 1 })
  | some e => (some e, { w with calls := w.calls + 1 })

def WritableFile.flush (w : WritableFile) : Option Status × WritableFile :=
  (w.outcome w.calls, { w with calls := w.calls + 1 })

/-- The options of a column family that the builder reads, and the libraries it calls:
compression under a dictionary, `ZSTD_TrainDictionary`, and the block that
`MetaIndexBuilder` makes of the dictionary's handle. -/
structure BuilderOptions where
  compression : Bytes → Compression
  maxDictBytes : Nat
  zstdMaxTrainBytes : Nat
  zstdTooOld : Bool
  trainDictionary : List Bytes → Nat → Bytes
  metaIndexBlock : Option BlockHandle → Bytes
  compare : Bytes → Bytes → Ordering

inductive BuilderState where
  | buffered | unbuffered
  deriving Repr, DecidableEq

structure BlobRecordContext where
  key : Bytes
  originalBlobIndex : BlobIndex := {}
  newBlobIndex : BlobIndex := {}
  hasValue : Bool := false
  value : Bytes := []
  deriving Repr, DecidableEq

def BlobRecordContext.withHandle (ctx : BlobRecordContext) (handle : BlobHandle) :
    BlobRecordContext :=
  { ctx with newBlobIndex := { ctx.newBlobIndex with blobHandle := handle } }

structure BlobFileBuilder where
  builderState : BuilderState
  file : WritableFile
  version : UInt32
  status : Option Status := none
  sampleRecords : List Bytes := []
  sampleStrLen : Nat := 0
  compressionDict : Bytes := []
  cachedContexts : List BlobRecordContext := []
  numEntries : Nat := 0
  smallestKey : Bytes := []
  largestKey : Bytes := []
  liveDataSize : Nat := 0

variable {b : BlobFileBuilder}

namespace BlobFileBuilder

variable (o : BuilderOptions)

def ok (b : BlobFileBuilder) : Bool := b.status.isNone

def append (b : BlobFileBuilder) (data : Bytes) : BlobFileBuilder :=
  let (status, file) := b.file.append data
  { b with status, file }

def writeHeader (b : BlobFileBuilder) : BlobFileBuilder :=
  b.append ({ version := b.version,
              flags := if o.maxDictBytes > 0 then kHasUncompressionDictionary else 0 } :
    BlobFileHeader).encodeTo

def validateVersion (version : UInt32) : Option Status :=
  if version ≠ kVersion1 ∧ version ≠ kVersion2 then
    some ⟨.invalidArgument, "unrecognized blob file version " ++ toString version⟩
  else none

def new (file : WritableFile) (version : UInt32) : BlobFileBuilder :=
  let b : BlobFileBuilder :=
    { builderState := if o.maxDictBytes > 0 then .buffered else .unbuffered
      file, version, status := validateVersion version }
  if b.status.isSome then b
  else if o.maxDictBytes > 0 then
    let b := if version ≠ kVersion2 then { b with status := some ⟨.notSupported,
        "dictionary comparession is not supported by blob file version 1"⟩ } else b
    if o.zstdTooOld then { b with status := some ⟨.notSupported, "ZSTD version too old."⟩ }
    else b.writeHeader o
  else b.writeHeader o

/-- The bytes that the encoder makes of a record, in two parts: `GetHeader` and `GetRecord`. -/
def encode (b : BlobFileBuilder) (record : Bytes) : Bytes × Bytes :=
  let (stored, type) := (o.compression b.compressionDict).compress record
  (entryHeader stored type, stored)

/-- `WriteEncoderData`, with the handle it fills. The entry is counted also when its
second append fails. -/
def writeEncoderData (b : BlobFileBuilder) (record : Bytes) : BlobFileBuilder × BlobHandle :=
  let (header, stored) := b.encode o record
  let handle : BlobHandle := ⟨UInt64.ofNat b.file.bytes.length,
    UInt64.ofNat (header.length + stored.length), UInt64.ofNat b.numEntries⟩
  let b := { b with liveDataSize := b.liveDataSize + (header.length + stored.length) }
  let b := b.append header
  if b.ok then
    let b := b.append stored
    ({ b with numEntries := b.numEntries + 1 }, handle)
  else (b, handle)

/-- `FlushSampleRecords`: a context with a value goes out as it is, any other takes the
next of the sampled records. A record for which no context is left is out of bounds in
the source; `add` puts in one context with each record. -/
def flushContexts (b : BlobFileBuilder) :
    List Bytes → List BlobRecordContext → BlobFileBuilder × List BlobRecordContext
  | _, [] => (b, [])
  | samples, ctx :: ctxs =>
    if ctx.hasValue then
      let (b, out) := b.flushContexts samples ctxs
      (b, ctx :: out)
    else match samples with
      | [] =>
        -- more contexts than records: they go out as they are
        let (b, out) := b.flushContexts [] ctxs
        (b, ctx :: out)
      | record :: samples =>
        let (b, handle) := b.writeEncoderData o record
        let (b, out) := b.flushContexts samples ctxs
        (b, ctx.withHandle handle :: out)

/-- With the dictionary trained, the samples are written. -/
def enterUnbuffered (b : BlobFileBuilder) : BlobFileBuilder × List BlobRecordContext :=
  let b := { b with compressionDict := o.trainDictionary b.sampleRecords o.maxDictBytes }
  let (b, out) := b.flushContexts o b.sampleRecords b.cachedContexts
  ({ b with sampleRecords := [], sampleStrLen := 0, cachedContexts := [],
            builderState := .unbuffered }, out)

def extendRange (b : BlobFileBuilder) (key : Bytes) : BlobFileBuilder :=
  let b := if b.smallestKey.isEmpty ∨ o.compare key b.smallestKey = .lt then
    { b with smallestKey := key } else b
  if b.largestKey.isEmpty ∨ o.compare key b.largestKey = .gt then { b with largestKey := key } else b

def add (b : BlobFileBuilder) (record : BlobRecord) (ctx : BlobRecordContext) :
    BlobFileBuilder × List BlobRecordContext :=
  if b.ok then
    match b.builderState with
    | .buffered =>
      let b := { b with
        sampleRecords := b.sampleRecords ++ [record.encodeTo]
        sampleStrLen := b.sampleStrLen + record.encodeTo.length
        cachedContexts := b.cachedContexts ++ [ctx] }
      if 0 < o.zstdMaxTrainBytes ∧ o.zstdMaxTrainBytes ≤ b.sampleStrLen then
        let (b, out) := b.enterUnbuffered o
        (b.extendRange o record.key, out)
      else (b.extendRange o record.key, [])
    | .unbuffered =>
      let (b, handle) := b.writeEncoderData o record.encodeTo
      (b.extendRange o record.key, [ctx.withHandle handle])
  else (b, [])

def addSmall (b : BlobFileBuilder) (ctx : BlobRecordContext) : BlobFileBuilder :=
  { b with cachedContexts := b.cachedContexts ++ [ctx] }

def mask (crc : UInt32) : UInt32 := ((crc >>> 15) ||| (crc <<< 17)) + 0xa282ead8

/-- The block trailer: no compression, and a masked checksum. -/
def blockTrailer (block : Bytes) : Bytes :=
  kNoCompression :: putFixed32 (mask (Crc32c.extend (Crc32c.value block) [kNoCompression]))

def writeRawBlock (b : BlobFileBuilder) (block : Bytes) : BlobFileBuilder × BlockHandle :=
  let handle : BlockHandle := ⟨UInt64.ofNat b.file.bytes.length, UInt64.ofNat block.length⟩
  let b := b.append block
  (if b.ok then b.append (blockTrailer block) else b, handle)

/-- The meta blocks of `Finish`: the dictionary and the meta index. -/
def writeMetaBlocks (b : BlobFileBuilder) : BlobFileBuilder × BlockHandle :=
  let (b, handle) := b.writeRawBlock b.compressionDict
  b.writeRawBlock (o.metaIndexBlock (if b.ok then some handle else none))

def writeFooter (b : BlobFileBuilder) (metaIndexHandle : BlockHandle) : BlobFileBuilder :=
  let b := b.append ({ metaIndexHandle } : BlobFileFooter).encodeTo
  if b.ok then
    let (status, file) := b.file.flush
    { b with status, file }
  else b

def finish (b : BlobFileBuilder) : BlobFileBuilder × List BlobRecordContext :=
  if b.ok then
    let (b, out) := match b.builderState with
      | .buffered => b.enterUnbuffered o
      | .unbuffered => (b, [])
    if o.maxDictBytes > 0 then
      let (b, handle) := b.writeMetaBlocks o
      (b.writeFooter handle, out)
    else (b.writeFooter {}, out)
  else (b, [])

/-! ## The contexts that come out -/

theorem flushContexts_value (b : BlobFileBuilder) (samples : List Bytes) {ctx : BlobRecordContext}
    (hvalue : ctx.hasValue = true) (ctxs : List BlobRecordContext) :
    b.flushContexts o samples (ctx :: ctxs) =
      ((b.flushContexts o samples ctxs).1, ctx :: (b.flushContexts o samples ctxs).2) := by
  cases samples <;> simp [flushContexts, hvalue]

theorem flushContexts_record (b : BlobFileBuilder) (record : Bytes) (samples : List Bytes)
    {ctx : BlobRecordContext} (hvalue : ctx.hasValue = false) (ctxs : List BlobRecordContext) :
    b.flushContexts o (record :: samples) (ctx :: ctxs) =
      (((b.writeEncoderData o record).1.flushContexts o samples ctxs).1,
        ctx.withHandle (b.writeEncoderData o record).2 ::
          ((b.writeEncoderData o record).1.flushContexts o samples ctxs).2) := by
  simp [flushContexts, hvalue]

/-- The contexts of the cache come out in order, with their keys. -/
theorem flushContexts_keys (b : BlobFileBuilder) (samples : List Bytes)
    (ctxs : List BlobRecordContext) :
    (b.flushContexts o samples ctxs).2.map BlobRecordContext.key =
      ctxs.map BlobRecordContext.key := by
  induction ctxs generalizing b samples with
  | nil => simp [flushContexts]
  | cons ctx ctxs ih =>
    cases hvalue : ctx.hasValue with
    | true => simp [flushContexts, hvalue, ih]
    | false => cases samples <;> simp [flushContexts, hvalue, ih, BlobRecordContext.withHandle]

@[simp] theorem new_cachedContexts (file : WritableFile) (version : UInt32) :
    (new o file version).cachedContexts = [] := by
  unfold new
  dsimp only
  split
  · rfl
  · split
    · split <;> split <;> rfl
    · rfl

@[simp] theorem extendRange_cachedContexts (b : BlobFileBuilder) (key : Bytes) :
    (b.extendRange o key).cachedContexts = b.cachedContexts := by
  unfold extendRange
  dsimp only
  split <;> split <;> rfl

@[simp] theorem writeEncoderData_cachedContexts (b : BlobFileBuilder) (record : Bytes) :
    (b.writeEncoderData o record).1.cachedContexts = b.cachedContexts := by
  unfold writeEncoderData
  dsimp only
  split <;> rfl

/-- What `add` hands out and keeps is what was cached, and the context added. -/
theorem add_keys_perm (hok : b.ok = true) (record : BlobRecord) (ctx : BlobRecordContext) :
    (((b.add o record ctx).2 ++ (b.add o record ctx).1.cachedContexts).map
      BlobRecordContext.key).Perm ((b.cachedContexts ++ [ctx]).map BlobRecordContext.key) := by
  cases hstate : b.builderState with
  | unbuffered =>
    simp only [add, hok, hstate, ↓reduceIte, extendRange_cachedContexts,
      writeEncoderData_cachedContexts, map_append]
    exact perm_append_comm
  | buffered =>
    simp only [add, hok, hstate, ↓reduceIte]
    split
    · rw [show (extendRange o _ record.key).cachedContexts = [] from
        extendRange_cachedContexts .., append_nil]
      exact .of_eq (flushContexts_keys ..)
    · rw [extendRange_cachedContexts, nil_append]

/-- A builder that has failed takes nothing. -/
theorem add_failed (hok : b.ok = false) (record : BlobRecord) (ctx : BlobRecordContext) :
    b.add o record ctx = (b, []) := by
  rw [add, hok]
  rfl

/-- A context that `add` hands out or keeps was cached before or is the one added. -/
theorem add_keys (b : BlobFileBuilder) (record : BlobRecord) (ctx : BlobRecordContext) {key : Bytes}
    (hkey : key ∈ ((b.add o record ctx).2 ++ (b.add o record ctx).1.cachedContexts).map
      BlobRecordContext.key) :
    key ∈ (b.cachedContexts ++ [ctx]).map BlobRecordContext.key := by
  cases hok : b.ok with
  | false =>
    rw [add_failed o hok, nil_append] at hkey
    rw [map_append]
    exact mem_append_left _ hkey
  | true => exact (add_keys_perm o hok record ctx).mem_iff.mp hkey

@[simp] theorem extendRange_builderState (b : BlobFileBuilder) (key : Bytes) :
    (b.extendRange o key).builderState = b.builderState := by
  unfold extendRange
  dsimp only
  split <;> split <;> rfl

@[simp] theorem writeEncoderData_builderState (b : BlobFileBuilder) (record : Bytes) :
    (b.writeEncoderData o record).1.builderState = b.builderState := by
  unfold writeEncoderData
  dsimp only
  split <;> rfl

/-- An unbuffered builder has no contexts that wait. -/
theorem add_unbuffered (h : b.builderState = .unbuffered → b.cachedContexts = [])
    (record : BlobRecord) (ctx : BlobRecordContext)
    (hstate' : (b.add o record ctx).1.builderState = .unbuffered) :
    (b.add o record ctx).1.cachedContexts = [] := by
  cases hok : b.ok with
  | false =>
    rw [add_failed o hok] at hstate' ⊢
    exact h hstate'
  | true =>
    cases hstate : b.builderState with
    | unbuffered =>
      simp only [add, hok, hstate, ↓reduceIte, extendRange_cachedContexts,
        writeEncoderData_cachedContexts]
      exact h hstate
    | buffered =>
      simp only [add, hok, hstate, ↓reduceIte] at hstate' ⊢
      split at hstate'
      · rename_i hfull
        rw [if_pos hfull]
        exact extendRange_cachedContexts ..
      · rw [extendRange_builderState] at hstate'
        cases hstate'

end BlobFileBuilder

end TitanGC.Storage.Writer
