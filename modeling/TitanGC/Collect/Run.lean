import TitanGC.Storage.BlobFileIterator
import TitanGC.Storage.Writer

/-!
# A garbage collection run

`BlobGCJob::BuildIterator`, `BlobGCJob::DoRunGC` and `BatchWriteNewIndices`: the input
files are opened and merged, and every entry that is not discarded is copied and
queued for write-back. Assertions are compiled out, as in a release build, and the
metrics are left out.
-/

namespace TitanGC.Collect.Run

open Lib.ByteCoding Lib.Draining Format.Coding Format.BlobFormat Format.BlobFile Format.InternalKey
open Storage.Builder (BitMap)
open Storage.Iterator Storage.Writer

/-- An input file: its metadata, what opening it gives, whether `FindFile` gives a file
that is not obsolete, and the copy of its bitmap. -/
structure InputFile where
  fileNumber : UInt64
  fileSize : Nat
  opened : Except Status RandomAccessFile
  present : Bool
  bitmap : BitMap

def InputFile.iterator (f : InputFile) (file : RandomAccessFile) : BlobFileIterator where
  file := file
  fileNumber := f.fileNumber
  fileSize := f.fileSize
  bitmap := f.bitmap

/-- The first loop of `BuildIterator` stops at a file that cannot be opened. -/
def openFiles : List InputFile → List (InputFile × RandomAccessFile) × Option Status
  | [] => ([], none)
  | f :: fs =>
    match f.opened with
    | .error e => ([], some e)
    | .ok file =>
      let (list, s) := openFiles fs
      ((f, file) :: list, s)

/-- With a bitmap the storage of the column family is looked up, and copying the bitmap of
an opened file assigns the status again, over that of a file that could not be opened.
Both `NotFound` returns leave the DB mutex locked. Without a bitmap the iterators have
none in the source; here they keep it and `discardable` does not ask for it. -/
def buildIterator (useBitmap storageFound : Bool) (inputs : List InputFile) :
    Except Status BlobFileMergeIterator :=
  let (list, s) := openFiles inputs
  let its := list.map fun p => p.1.iterator p.2
  if useBitmap then
    if !storageFound then
      .error ⟨.notFound, "BlobGC::BuildIterator: Column family not Found."⟩
    else if list.any (!·.1.present) then
      .error ⟨.notFound, "BlobGC::BuildIterator: File not Found."⟩
    else match list, s with
      | [], some e => .error e
      | _, _ => .ok { blobFileIterators := its }
  else match s with
    | some e => .error e
    | none => .ok { blobFileIterators := its }

/-! ## The loop -/

/-- What a write batch does in the base DB. -/
inductive BatchOp where
  | put (value : Bytes)
  | putBlobIndex (indexEntry : Bytes)
  deriving Repr, DecidableEq

/-- A write batch with the callback that guards it. -/
structure Rewrite where
  key : Bytes
  originalBlobIndex : BlobIndex
  newBlobIndex : BlobIndex
  batch : BatchOp
  deriving Repr, DecidableEq

structure GcOptions where
  useBitmap : Bool
  fallback : Bool
  blobFileTargetSize : Nat
  builder : BuilderOptions

/-- What the run meets outside its inputs: the results of each `NewFile`, the appends to
each new file, the shutdown flag at each iteration, and `DiscardEntry`. -/
structure GcEnv where
  newFile : Nat → Except Status UInt64
  outcome : UInt64 → Nat → Option Status
  shutingDown : Nat → Bool
  discardEntry : Nat → Bytes → BlobIndex → Except Status Bool

structure OutputFile where
  number : UInt64
  builder : BlobFileBuilder

/-- The local variables of `DoRunGC` and the members it fills. `read` is not in the
source: the entries the loop has seen. -/
structure GcState where
  status : Option Status := none
  current : Option OutputFile := none
  fileSize : Nat := 0
  lastKey : Bytes := []
  lastKeyIsFresh : Bool := false
  blobFileBuilders : List (Option OutputFile) := []
  rewriteBatches : List Rewrite := []
  newFiles : Nat := 0
  iterations : Nat := 0
  read : List Entry := []

inductive Flow where
  | go (st : GcState)
  | stop (st : GcState)

def batchWriteNewIndices : List BlobRecordContext → Option Status × List Rewrite
  | [] => (none, [])
  | ctx :: ctxs =>
    match parseInternalKey ctx.key with
    | .error e => (some e, [])
    | .ok ikey =>
      let blobIndex : BlobIndex :=
        { fileNumber := ctx.newBlobIndex.fileNumber, blobHandle := ctx.newBlobIndex.blobHandle }
      let (s, rest) := batchWriteNewIndices ctxs
      (s, ⟨ikey.userKey, ctx.originalBlobIndex, blobIndex,
        .putBlobIndex blobIndex.encodeTo⟩ :: rest)

/-- The output file an entry goes to: a new one if there is none or the size limit is
reached. `file_size` is never increased, so the limit is reached only if it is zero. -/
def ensureOutput (o : GcOptions) (env : GcEnv) (st : GcState) :
    Except GcState (GcState × OutputFile) :=
  match st.current, decide (o.blobFileTargetSize ≤ st.fileSize) with
  | some out, false => .ok (st, out)
  | current, full =>
    -- a full run pushes its current pair, which is null before the first file
    let st := if full then
        { st with blobFileBuilders := st.blobFileBuilders ++ [current], current := none }
      else st
    let st' := { st with newFiles := st.newFiles + 1 }
    match env.newFile st.newFiles with
    | .error e => .error { st' with status := some e }
    | .ok number =>
      let builder := .new o.builder { outcome := env.outcome number } kVersion2
      .ok ({ st' with fileSize := 0 }, ⟨number, builder⟩)

/-- Copying an entry to an output file, which becomes the current one. -/
def writeEntry (o : GcOptions) (st : GcState) (out : OutputFile) (x : Entry) : Flow :=
  let ctx : BlobRecordContext :=
    { key := appendInternalKey ⟨x.record.key, 1, kTypeValue⟩
      originalBlobIndex := x.index
      newBlobIndex := { fileNumber := out.number } }
  let (builder, contexts) := out.builder.add o.builder x.record ctx
  let (s, batches) := batchWriteNewIndices contexts
  let st := { st with
    current := some { out with builder }
    rewriteBatches := st.rewriteBatches ++ batches
    status := s }
  if s.isSome then .stop st else .go st

/-- What is done with an entry that is kept. A key or value read from a blob file has a
32-bit length, so adding it to a write batch does not fail. -/
def rewriteEntry (o : GcOptions) (env : GcEnv) (st : GcState) (x : Entry) : Flow :=
  if o.fallback then
    .go { st with rewriteBatches := st.rewriteBatches ++
      [⟨x.record.key, x.index, {}, .put x.record.value⟩] }
  else match ensureOutput o env st with
    | .error st => .stop st
    | .ok (st, out) => writeEntry o st out x

def discardable (o : GcOptions) (env : GcEnv) (st : GcState) (x : Entry) : Except Status Bool :=
  if o.useBitmap then .ok (!x.validByBitMap)
  else env.discardEntry st.iterations x.record.key x.index

def body (o : GcOptions) (env : GcEnv) (st : GcState) (x : Entry) : Flow :=
  let st := { st with read := st.read ++ [x], iterations := st.iterations + 1 }
  if env.shutingDown st.iterations then
    .stop { st with status := some ⟨.shutdownInProgress, ""⟩ }
  else
    let same := !st.lastKey.isEmpty && x.record.key == st.lastKey
    if same && st.lastKeyIsFresh then .go st
    else
      let st := if same then st else { st with lastKey := x.record.key, lastKeyIsFresh := false }
      match discardable o env st x with
      | .error e => .stop { st with status := some e }
      | .ok true => .go st
      | .ok false =>
        let st := if o.useBitmap then st else { st with lastKeyIsFresh := true }
        rewriteEntry o env st x

/-! ## One iteration -/

section

variable (o : GcOptions) (env : GcEnv)

/-- The state in which an entry is looked at: it is seen, and the last key may have
changed. -/
def seen (st : GcState) (x : Entry) (lastKey : Bytes) (lastKeyIsFresh : Bool) : GcState :=
  { st with read := st.read ++ [x], iterations := st.iterations + 1, lastKey, lastKeyIsFresh }

/-- Whether the entry is neither passed over nor discarded. -/
def keeps (st : GcState) (x : Entry) : Bool :=
  !env.shutingDown (st.iterations + 1) &&
    !((!st.lastKey.isEmpty && x.record.key == st.lastKey) && st.lastKeyIsFresh) &&
    match discardable o env { st with iterations := st.iterations + 1 } x with
    | .ok drop => !drop
    | .error _ => false

/-- An iteration stops at the shutdown or at a failure of `DiscardEntry`, passes over its
entry, or keeps it. -/
theorem body_cases (st : GcState) (x : Entry) : ∃ key fresh,
    (keeps o env st x = false ∧ ((∃ e, body o env st x = .stop { seen st x key fresh with status := some e } ∧
        (env.shutingDown (st.iterations + 1) = true ∨
          discardable o env { st with iterations := st.iterations + 1 } x = .error e)) ∨
      body o env st x = .go (seen st x key fresh))) ∨
    (keeps o env st x = true ∧ body o env st x = rewriteEntry o env (seen st x key fresh) x) := by
  -- the last key changes, unless it is that of the entry
  obtain ⟨key, fresh, hkey⟩ : ∃ key fresh,
      (if (!st.lastKey.isEmpty && x.record.key == st.lastKey) = true then
        seen st x st.lastKey st.lastKeyIsFresh else seen st x x.record.key false) =
      seen st x key fresh := by
    split <;> exact ⟨_, _, rfl⟩
  unfold keeps body
  dsimp only
  cases env.shutingDown (st.iterations + 1) with
  | true => exact ⟨_, _, .inl ⟨rfl, .inl ⟨_, rfl, .inl rfl⟩⟩⟩
  | false =>
    cases (!st.lastKey.isEmpty && x.record.key == st.lastKey) && st.lastKeyIsFresh with
    | true => exact ⟨_, _, .inl ⟨rfl, .inr rfl⟩⟩
    | false =>
      have hdiscard : discardable o env (seen st x key fresh) x =
        discardable o env { st with iterations := st.iterations + 1 } x := rfl
      unfold seen at hkey hdiscard
      rw [hkey, hdiscard]
      cases discardable o env { st with iterations := st.iterations + 1 } x with
      | error e => exact ⟨key, fresh, .inl ⟨rfl, .inl ⟨e, rfl, .inr rfl⟩⟩⟩
      | ok drop =>
        cases drop with
        | true => exact ⟨key, fresh, .inl ⟨rfl, .inr rfl⟩⟩
        | false => 
          cases o.useBitmap
          · exact ⟨key, true, .inr ⟨rfl, rfl⟩⟩
          · exact ⟨key, fresh, .inr ⟨rfl, rfl⟩⟩

end

section

variable {compare : Bytes → Bytes → Ordering} (ienv : Env)
  (heap : PriorityQueue BlobFileIterator (KeyAfter compare)) (o : GcOptions) (env : GcEnv)

/-- The loop over the entries, with the iterator it leaves behind; `none` when the fuel
runs out. -/
def loop : Nat → BlobFileMergeIterator → GcState → Option (BlobFileMergeIterator × GcState)
  | 0, _, _ => none
  | fuel + 1, mi, st =>
    match mi.item ienv with
    | none => some (mi, st)
    | some x =>
      match body o env st x with
      | .stop st => some (mi, st)
      | .go st => loop fuel (mi.next ienv heap) st

def finishRun (mi : BlobFileMergeIterator) (st : GcState) : GcState :=
  match mi.getStatus, st.status with
  | none, none =>
    match st.current with
    | some out => { st with blobFileBuilders := st.blobFileBuilders ++ [some out], current := none }
    | none => st
  | some e, _ => { st with status := some e }
  | none, some _ => st

def doRunGC (storageFound : Bool) (inputs : List InputFile) (fuel : Nat) : Option GcState :=
  match buildIterator o.useBitmap storageFound inputs with
  | .error e => some { status := some e }
  | .ok mi =>
    match loop ienv heap o env fuel (mi.seekToFirst ienv heap) {} with
    | none => none
    | some (mi, st) => some (finishRun mi st)

end

end TitanGC.Collect.Run
