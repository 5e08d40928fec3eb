import TitanGC.Storage.Writer

/-!
# The table builder

`table_builder.{h,cc}`: the entries of a flush or compaction go to the base table, large
values to blob files with an index in the base table. Statistics and logging are left
out, but for what the log line of `FinishBlobFile` dereferences.
-/

namespace TitanGC.Table.Builder

open Lib.ByteCoding Format.Coding Format.BlobFormat Format.BlobFile Format.InternalKey
open Storage.Writer

inductive TitanBlobRunMode where
  | normal | readOnly | fallback
  deriving Repr, DecidableEq

/-- The options of the column family, with the levels the builder is made for. -/
structure TableOptions where
  blobRunMode : TitanBlobRunMode
  levelMerge : Bool
  minBlobSize : Nat
  blobFileTargetSize : Nat
  targetLevel : Int
  mergeLevel : Int
  builder : BuilderOptions

/-- What `ShouldMerge` looks at in a blob file. -/
structure FileView where
  fileLevel : Nat
  toMerge : Bool

/-- What `base_builder_` has taken, with what its status is after each call. -/
structure BaseTable where
  entries : List (Bytes × Bytes) := []
  status : Option Status := none
  calls : Nat := 0
  outcome : Nat → Option Status

/-- A table builder that has failed takes no more entries. -/
def BaseTable.add (b : BaseTable) (key value : Bytes) : BaseTable :=
  if b.status.isSome then b
  else { b with
    entries := b.entries ++ [(key, value)]
    status := b.outcome b.calls
    calls := b.calls + 1 }

def BaseTable.finish (b : BaseTable) : BaseTable :=
  if b.status.isSome then b
  else { b with status := b.outcome b.calls, calls := b.calls + 1 }

structure FinishedBlob where
  number : UInt64
  builder : BlobFileBuilder

/-- The blob file manager, the blob storage, and the appends to each new file. -/
structure TableEnv where
  newFile : Nat → Except Status UInt64
  outcome : UInt64 → Nat → Option Status
  getBlobRecord : BlobIndex → Except Status BlobRecord
  findFile : UInt64 → Option FileView
  deleteFile : UInt64 → Option Status
  batchFinishFiles : List FinishedBlob → Option Status

structure TitanTableBuilder where
  base : BaseTable
  status : Option Status := none
  blobHandle : Option UInt64 := none
  blobBuilder : Option BlobFileBuilder := none
  finishedBlobs : List FinishedBlob := []
  newFiles : Nat := 0

namespace TitanTableBuilder

variable (o : TableOptions) (env : TableEnv)

def getStatus (t : TitanTableBuilder) : Option Status :=
  (t.status.or t.base.status).or (t.blobBuilder.bind (·.status))

def ok (t : TitanTableBuilder) : Bool := t.getStatus.isNone

def shouldMerge (file : Option FileView) : Bool :=
  match file with
  | none => false
  | some f => decide ((f.fileLevel : Int) < o.targetLevel) || f.toMerge

def addBaseDirect (t : TitanTableBuilder) (key value : Bytes) : TitanTableBuilder :=
  { t with base := t.base.add key value }

def newCachedRecordContext (ikey : ParsedInternalKey) (value : Bytes) : BlobRecordContext where
  key := appendInternalKey ikey
  hasValue := true
  value := value

/-- With no blob file, or one that is unbuffered, the entry can go to the base table. -/
def addBase (t : TitanTableBuilder) (key : Bytes) (ikey : ParsedInternalKey) (value : Bytes) :
    TitanTableBuilder :=
  match t.blobBuilder with
  | none => t.addBaseDirect key value
  | some b =>
    if b.builderState = .unbuffered then t.addBaseDirect key value
    else { t with blobBuilder := some (b.addSmall (newCachedRecordContext ikey value)) }

/-- The status is assigned for each context, over whatever it was. -/
def addBlobResultsToBase (t : TitanTableBuilder) : List BlobRecordContext → TitanTableBuilder
  | [] => t
  | ctx :: ctxs =>
    match parseInternalKey ctx.key with
    | .error e => { t with status := some e }
    | .ok ikey =>
      let t := { t with status := none }
      let t := if ctx.hasValue then t.addBaseDirect ctx.key ctx.value
        else t.addBaseDirect (appendInternalKey { ikey with type := kTypeBlobIndex })
          ctx.newBlobIndex.encodeTo
      t.addBlobResultsToBase ctxs

/-- `none` is the null `blob_handle_` of a file that has been deleted already. The
builder of such a file is kept. -/
def finishBlobFile (t : TitanTableBuilder) : Option TitanTableBuilder :=
  match t.blobBuilder with
  | none => some t
  | some b =>
    let (b, contexts) := b.finish o.builder
    let t := addBlobResultsToBase { t with blobBuilder := some b } contexts
    match t.blobHandle with
    | none => none
    | some number =>
      if b.status.isNone && t.ok then
        some { t with
          finishedBlobs := t.finishedBlobs ++ [⟨number, b⟩]
          blobHandle := none
          blobBuilder := none }
      else some { t with status := env.deleteFile number, blobHandle := none }

/-- A record goes to the blob file. A file that hits the size limit is finished before
the contexts at hand go to the base table. -/
def writeBlob (t : TitanTableBuilder) (number : UInt64) (b : BlobFileBuilder)
    (ikey : ParsedInternalKey) (value : Bytes) : Option TitanTableBuilder :=
  let ctx : BlobRecordContext :=
    { key := appendInternalKey ikey, newBlobIndex := { fileNumber := number } }
  let (b, contexts) := b.add o.builder ⟨ikey.userKey, value⟩ ctx
  let t := { t with blobHandle := some number, blobBuilder := some b }
  let finished := if o.blobFileTargetSize ≤ b.file.bytes.length
    then t.finishBlobFile o env else some t
  finished.map (·.addBlobResultsToBase contexts)

/-- The status is looked at before the file is made and after `NewFile`, not after the
header has been written. -/
def addBlob (t : TitanTableBuilder) (ikey : ParsedInternalKey) (value : Bytes) :
    Option TitanTableBuilder :=
  if !t.ok then some t
  else match t.blobBuilder, t.blobHandle with
    | some b, some number => t.writeBlob o env number b ikey value
    | some _, none => none
    | none, _ =>
      match env.newFile t.newFiles with
      | .error e => some { t with newFiles := t.newFiles + 1, status := some e }
      | .ok number =>
        writeBlob o env { t with newFiles := t.newFiles + 1, status := none } number
          (.new o.builder { outcome := env.outcome number } kVersion2) ikey value

def addFallback (t : TitanTableBuilder) (key : Bytes) (ikey : ParsedInternalKey) (value : Bytes) :
    TitanTableBuilder :=
  match BlobIndex.decodeFrom value with
  | .error e => { t with status := some e }
  | .ok (index, _) =>
    match env.getBlobRecord index with
    | .ok record =>
      t.addBaseDirect (appendInternalKey { ikey with type := kTypeValue }) record.value
    | .error _ => t.addBaseDirect key value

def addMerging (t : TitanTableBuilder) (key : Bytes) (ikey : ParsedInternalKey) (value : Bytes) :
    Option TitanTableBuilder :=
  match BlobIndex.decodeFrom value with
  | .error e => some { t with status := some e }
  | .ok (index, _) =>
    if shouldMerge o (env.findFile index.fileNumber) then
      match env.getBlobRecord index with
      | .ok record =>
        match t.addBlob o env ikey record.value with
        | none => none
        | some t => if t.ok then some t else some (t.addBase key ikey value)
      | .error _ => some (t.addBase key ikey value)
    else some (t.addBase key ikey value)

def add (t : TitanTableBuilder) (key value : Bytes) : Option TitanTableBuilder :=
  if !t.ok then some t
  else match parseInternalKey key with
    | .error e => some { t with status := some e }
    | .ok ikey =>
      let t := { t with status := none }
      if ikey.type = kTypeBlobIndex ∧ o.blobRunMode = .fallback then
        some (t.addFallback env key ikey value)
      else if ikey.type = kTypeValue ∧ o.blobRunMode = .normal then
        if value.length < o.minBlobSize then some (t.addBase key ikey value)
        else t.addBlob o env ikey value
      else if ikey.type = kTypeBlobIndex ∧ o.levelMerge ∧ o.mergeLevel ≤ o.targetLevel ∧
          o.blobRunMode = .normal then
        t.addMerging o env key ikey value
      else some (t.addBase key ikey value)

/-- The status of the adds is overwritten by that of `BatchFinishFiles`. -/
def finish (t : TitanTableBuilder) : Option TitanTableBuilder :=
  match t.finishBlobFile o env with
  | none => none
  | some t => some { t with
      base := t.base.finish
      status := env.batchFinishFiles t.finishedBlobs }

/-- The base table is dropped, and so is a blob file that is open: its handle is
dereferenced for the log, then moved out. `BlobFileBuilder::Abandon` does nothing. -/
def abandon (t : TitanTableBuilder) : Option TitanTableBuilder :=
  match t.blobBuilder with
  | none => some t
  | some _ =>
    match t.blobHandle with
    | none => none
    | some number => some { t with status := env.deleteFile number, blobHandle := none }

def addAll (t : TitanTableBuilder) : List (Bytes × Bytes) → Option TitanTableBuilder
  | [] => some t
  | (key, value) :: rest =>
    match t.add o env key value with
    | none => none
    | some t => t.addAll rest

def build (baseOutcome : Nat → Option Status) (entries : List (Bytes × Bytes)) :
    Option TitanTableBuilder :=
  match addAll o env { base := { outcome := baseOutcome } } entries with
  | none => none
  | some t => t.finish o env

end TitanTableBuilder

end TitanGC.Table.Builder
