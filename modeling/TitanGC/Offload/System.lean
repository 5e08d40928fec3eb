import TitanGC.Offload.Reads

/-!
# A database with offloaded garbage collection

The state that user writes, memtable switches, flushes, compactions and hardware
garbage collection jobs share, and their steps. For every key the memtables and
the SSTs hold its versions newest first; a flush or a compaction replaces a run
of adjacent versions of each key by the entry that `Preprocess` leaves, passed
through `TitanTableBuilder`. A job copies the bitmap, copies the records whose
bit is clear, writes the new indexes back without any check, and then makes its
inputs obsolete. Base writes are atomic and ordered.
-/

namespace TitanGC.Offload.System

open Lib.ByteCoding Format.Coding Format.BlobFormat Compaction.Merge Storage.BlobFiles Reads

variable {K : Type}

/-- The entry that `Preprocess` leaves for a run of entries of one key. -/
def mergeEntries : List Entry → Option Entry
  | [] => none
  | e :: es => some (es.foldl Entry.absorb e)

/-- `mergeEntries` is what the bytes say: see `preprocess_rows`. -/
theorem version_mergeEntries (es : List Entry) :
    (mergeEntries es).map Entry.version = mergeVersions (es.map Entry.version) := by
  cases es with
  | nil => rfl
  | cons e es =>
    simp only [mergeEntries, mergeVersions, List.map_cons, Option.map_some, Option.some.injEq]
    induction es generalizing e with
    | nil => rfl
    | cons e' es ih =>
      simp only [List.foldl_cons, List.map_cons]
      rw [ih, Entry.version_absorb]

/-- `TitanTableBuilder::Add` in the normal run mode: an inline value of at least
`min_blob_size` bytes becomes a record of a new blob file. -/
inductive Builds (minBlobSize : Nat) (new : Files K) (k : K) : Option Entry → Option Entry → Prop
  | empty : Builds minBlobSize new k none none
  | inline (v : Bytes) (h : v.length < minBlobSize) :
      Builds minBlobSize new k (some (.value v)) (some (.value v))
  | separated (v : Bytes) (p : BlobPtr) (h : minBlobSize ≤ v.length) (hp : Holds new p k v) :
      Builds minBlobSize new k (some (.value v)) (some (.blobIndex p.plain))
  | index (b : BlobIndex) : Builds minBlobSize new k (some (.blobIndex b)) (some (.blobIndex b))

/-- Where a running job is: the bitmap is copied, or the records are copied to
`output` and `pending` is still to be written back. -/
inductive Phase (K : Type) where
  | copying (bitmap : UInt64 → UInt64 → Bool)
  | writing (output : UInt64) (pending : List (K × BlobIndex))

structure Job (K : Type) where
  inputs : List UInt64
  phase : Phase K

structure State (K : Type) where
  mem : K → List Entry
  imm : List (K → List Entry)
  ssts : K → List Entry
  files : Files K
  /-- `invalid_entry_indexes_` of each file. -/
  bits : UInt64 → UInt64 → Bool
  /-- Completed compactions whose `OnCompactionCompleted` has not run yet. -/
  notices : List (List (UInt64 × UInt64))
  obsolete : UInt64 → Bool
  purged : UInt64 → Bool
  jobs : Nat → Option (Job K)
  /-- The value of the latest user `Put` of each key. -/
  lastPut : K → Option Bytes

def init : State K where
  mem _ := []
  imm := []
  ssts _ := []
  files _ := none
  bits _ _ := false
  notices := []
  obsolete _ := false
  purged _ := false
  jobs _ := none
  lastPut _ := none

namespace State

def history (s : State K) (k : K) : List Entry :=
  s.mem k ++ ((s.imm.map (· k)).flatten ++ s.ssts k)

def present (s : State K) : Files K := fun f => if s.purged f then none else s.files f

def get (s : State K) (k : K) : Except Status Bytes :=
  titanGet s.present (getImpl ((s.mem k).map Entry.row)
    ((s.imm.map (· k)).map (·.map Entry.row)) ((s.ssts k).map Entry.row))

/-- A file that `PickBlobGC` may select: in the storage, not obsolete, not being
collected, and not the output of a job that is still writing back. -/
def Pickable (s : State K) (f : UInt64) : Prop :=
  s.files f ≠ none ∧ s.obsolete f = false ∧
    ∀ j job, s.jobs j = some job → f ∉ job.inputs ∧ ∀ out pending, job.phase = .writing out pending → f ≠ out

end State

def survivors (fs : Files K) (bitmap : UInt64 → UInt64 → Bool) (inputs : List UInt64) :
    List (UInt64 × Rec K) :=
  inputs.flatMap fun f =>
    (((fs f).getD []).filter fun r => bitmap f r.handle.index == false).map fun r => (f, r)

/-- The blob index that `DoRunGCOnHardware` builds for a copied record. The old
index is not filled in. -/
def writeBackIndex (output : UInt64) (old : UInt64 × Rec K) (new : Rec K) : K × BlobIndex :=
  (new.key, { fileNumber := output, blobHandle := new.handle, oldFileNumber := old.1,
              oldBlobHandle := { offset := old.2.handle.offset, size := old.2.handle.size } })

/-- The record indexes that an input of a compaction references and no output does. -/
def Dropped (run : K → List Entry) (out : K → Option Entry) (d : UInt64 × UInt64) : Prop :=
  (∃ k b, .blobIndex b ∈ run k ∧ (b.fileNumber, b.blobHandle.index) = d) ∧
    ∀ k b, out k = some (.blobIndex b) → (b.fileNumber, b.blobHandle.index) ≠ d

inductive Action (K : Type) where
  | put (k : K) (v : Bytes)
  | switchMem
  | flush (keep : Nat)
  | compact (newer run : K → List Entry)
  | deliver
  | startGc (inputs : List UInt64)
  | copyGc
  | writeBack (k : K) (b : BlobIndex)
  | finishGc
  | abortGc
  | purge (f : UInt64)

/-- The versions of `k` that a flush of all but the `keep` newest immutable
memtables merges. -/
def flushRun (s : State K) (keep : Nat) (k : K) : List Entry :=
  ((s.imm.drop keep).map (· k)).flatten

open Function (update)

inductive Step [DecidableEq K] (minBlobSize : Nat) : State K → Action K → State K → Prop
  | put (s : State K) (k : K) (v : Bytes) :
      Step minBlobSize s (.put k v)
        { s with mem := update s.mem k (.value v :: s.mem k), lastPut := update s.lastPut k (some v) }
  | switchMem (s : State K) :
      Step minBlobSize s .switchMem { s with mem := fun _ => [], imm := s.mem :: s.imm }
  | flush (s : State K) (keep : Nat) (new : Files K) (out : K → Option Entry)
      (hnew : Fresh s.files new)
      (hout : ∀ k, Builds minBlobSize new k (mergeEntries (flushRun s keep k)) (out k)) :
      Step minBlobSize s (.flush keep)
        { s with imm := s.imm.take keep, ssts := fun k => (out k).toList ++ s.ssts k,
                 files := add s.files new }
  | compact (s : State K) (newer run older : K → List Entry) (new : Files K)
      (out : K → Option Entry) (dropped : List (UInt64 × UInt64))
      (hssts : ∀ k, s.ssts k = newer k ++ (run k ++ older k)) (hnew : Fresh s.files new)
      (hout : ∀ k, Builds minBlobSize new k (mergeEntries (run k)) (out k))
      (hdropped : ∀ d, d ∈ dropped ↔ Dropped run out d) :
      Step minBlobSize s (.compact newer run)
        { s with ssts := fun k => newer k ++ ((out k).toList ++ older k), files := add s.files new,
                 notices := s.notices ++ [dropped] }
  | deliver (s : State K) (before after : List (List (UInt64 × UInt64)))
      (dropped : List (UInt64 × UInt64)) (hn : s.notices = before ++ dropped :: after) :
      Step minBlobSize s .deliver
        { s with notices := before ++ after,
                 bits := fun f i => s.bits f i || (!s.obsolete f && decide ((f, i) ∈ dropped)) }
  | startGc (s : State K) (j : Nat) (inputs : List UInt64) (hj : s.jobs j = none)
      (hpick : ∀ f ∈ inputs, s.Pickable f) :
      Step minBlobSize s (.startGc inputs)
        { s with jobs := update s.jobs j (some ⟨inputs, .copying s.bits⟩) }
  | copyGc (s : State K) (j : Nat) (inputs : List UInt64) (bitmap : UInt64 → UInt64 → Bool)
      (output : UInt64) (recs : List (Rec K)) (hj : s.jobs j = some ⟨inputs, .copying bitmap⟩)
      (hnew : Fresh s.files (single output recs))
      (hcopy : recs.map (fun r => (r.key, r.value))
        = (survivors s.files bitmap inputs).map fun o => (o.2.key, o.2.value)) :
      Step minBlobSize s .copyGc
        { s with files := add s.files (single output recs),
                 jobs := update s.jobs j (some ⟨inputs, .writing output
                   (List.zipWith (writeBackIndex output) (survivors s.files bitmap inputs) recs)⟩) }
  | writeBack (s : State K) (j : Nat) (inputs : List UInt64) (output : UInt64) (k : K)
      (b : BlobIndex) (rest : List (K × BlobIndex))
      (hj : s.jobs j = some ⟨inputs, .writing output ((k, b) :: rest)⟩) :
      Step minBlobSize s (.writeBack k b)
        { s with mem := update s.mem k (.blobIndex b :: s.mem k),
                 jobs := update s.jobs j (some ⟨inputs, .writing output rest⟩) }
  | finishGc (s : State K) (j : Nat) (inputs : List UInt64) (output : UInt64)
      (hj : s.jobs j = some ⟨inputs, .writing output []⟩) :
      Step minBlobSize s .finishGc
        { s with obsolete := fun f => s.obsolete f || decide (f ∈ inputs),
                 jobs := update s.jobs j none }
  | abortGc (s : State K) (j : Nat) :
      Step minBlobSize s .abortGc { s with jobs := update s.jobs j none }
  | purge (s : State K) (f : UInt64) (hf : s.obsolete f = true) :
      Step minBlobSize s (.purge f) { s with purged := update s.purged f true }

/-- An inline value on top, or none at all. -/
def InlineOnTop (run : List Entry) : Prop :=
  (∃ v rest, run = .value v :: rest) ∨ ∀ e ∈ run, e.type = .blobIndex

def AllWriteBacks (es : List Entry) : Prop := ∀ e ∈ es, e.version.isMoved = true

/-- The steps that keep reads right. A write-back goes on top of an inline value
of the active memtable, or the history still leads to the record it moved. A
memtable is not switched while a write-back lies right above an inline value in
it. A merge of versions above which there are only write-backs does not put an
inline value in the place of a newer index. -/
def Careful (s : State K) : Action K → Prop
  | .writeBack k b =>
    (∃ v rest, s.mem k = .value v :: rest) ∨
      Lib.Relocation.ResolvesAt loc ((s.history k).map Entry.version)
        (b.oldFileNumber, b.oldBlobHandle.offset)
  | .switchMem => ∀ k b v rest, s.mem k ≠ .blobIndex b :: .value v :: rest
  | .flush keep =>
    ∀ k, AllWriteBacks (s.mem k ++ ((s.imm.take keep).map (· k)).flatten) →
      InlineOnTop (flushRun s keep k)
  | .compact newer run =>
    ∀ k, AllWriteBacks (s.mem k ++ ((s.imm.map (· k)).flatten ++ newer k)) → InlineOnTop (run k)
  | _ => True

end TitanGC.Offload.System
