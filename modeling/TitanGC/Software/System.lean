import TitanGC.Lib.MultiVersion
import TitanGC.Manifest.Replay
import TitanGC.Software.GcJob

/-!
# A database with software garbage collection

The state that user writes, snapshots, flushes, compactions, garbage collection
jobs and purges share, and their steps. The base DB is the versions of each key
by sequence number: those up to `flushed` are in SSTs, the newer ones in
memtables and in the WAL, which is synced up to `synced`. Blob files become part
of the database in the stages of `BatchFinishFiles`: written, synced, logged in
the manifest, and applied once the manifest is synced. Base writes are atomic.
-/

namespace TitanGC.Software.System

open Lib.ByteCoding Lib.MultiVersion Format.Coding Format.BlobFormat Storage.BlobFiles
open Manifest.VersionEdits Manifest.Replay
open Offload.Reads (BaseResult titanGet)
open GcJob
open Function (update)

/-- A key to write back: the record it was copied from and the new version, an
index of the copy or, in fallback mode, the value. -/
structure Rewrite where
  key : Key
  old : BlobPtr
  slot : Slot
  deriving Repr, DecidableEq

inductive Stage where
  | written | synced | logged
  deriving Repr, DecidableEq

/-- What a job does once its outputs are applied. -/
inductive After where
  | install
  | rewrite (pending : List Rewrite)

inductive Phase where
  | finishing (stage : Stage) (after : After)
  /-- A flush or compaction whose SST is not installed yet. -/
  | built
  | picked
  | scanning (scan : Scan)
  /-- `RewriteValidKeyToLSM`, with the records whose key was overwritten meanwhile. -/
  | rewriting (pending : List Rewrite) (dropped : List (UInt64 × UInt64))
  | marked
  | walSynced
  | deleting (obsoleteSequence : Nat)

/-- A flush or compaction (without inputs here) or a garbage collection job. -/
structure Job where
  inputs : List UInt64 := []
  outputs : List UInt64 := []
  useBitmap : Bool := false
  phase : Phase

abbrev Lsm := Key → Versions Slot

/-- The record indexes, by blob file, in the `TitanDB.blob_validation` properties of
all input and all output tables of a compaction. -/
structure CompactionJobInfo where
  inputs : List (UInt64 × UInt64)
  outputs : List (UInt64 × UInt64)
  deriving Repr, DecidableEq

/-- The bits that `OnCompactionCompleted` sets: 1 for every index of the inputs, then 0
for those of the outputs. -/
def CompactionJobInfo.invalid (info : CompactionJobInfo) (d : UInt64 × UInt64) : Bool :=
  decide (d ∈ info.inputs) && !decide (d ∈ info.outputs)

structure State where
  lsm : Lsm
  seq : Nat
  flushed : Nat
  synced : Nat
  files : Files Key
  fileSynced : UInt64 → Bool
  /-- The records of the manifest, of which the first `logSynced` are synced. -/
  log : List VersionEdit
  logSynced : Nat
  nextFileNumber : UInt64
  /-- `obsolete_sequence` of the files that are obsolete. -/
  obsolete : UInt64 → Option Nat
  purged : UInt64 → Bool
  /-- Live snapshots, oldest first. -/
  snapshots : List Nat
  /-- The oldest snapshot that a running purge has read. -/
  purging : Option Nat
  /-- `invalid_entry_indexes_` of each file. -/
  bits : UInt64 → UInt64 → Bool
  /-- Completed compactions whose `OnCompactionCompleted` has not run yet. -/
  notices : List CompactionJobInfo
  jobs : Nat → Option Job
  /-- The latest user write of each key; `none` if it is deleted or never written. -/
  lastWrite : Key → Option Bytes

/-- An empty database: the manifest holds the snapshot that `OpenManifest` wrote. -/
def init (cf : UInt32) : State where
  lsm _ _ := none
  seq := 0
  flushed := 0
  synced := 0
  files _ := none
  fileSynced _ := false
  log := [{ nextFileNumber := some 2 }, { columnFamilyId := cf }]
  logSynced := 2
  nextFileNumber := 2
  obsolete _ := none
  purged _ := false
  snapshots := []
  purging := none
  bits _ _ := false
  notices := []
  jobs _ := none
  lastWrite _ := none

def tip (lsm : Lsm) (seq : Nat) (k : Key) : Option Slot := visible (lsm k) seq

namespace State

def present (s : State) : Files Key := fun f => if s.purged f then none else s.files f

def baseGet (s : State) (k : Key) : BaseResult := baseResult (tip s.lsm s.seq k)

def get (s : State) (k : Key) : Except Status Bytes := titanGet s.present (s.baseGet k)

def oldestSnapshot (s : State) : Nat := s.snapshots.head?.getD kMaxSequenceNumber

/-- A file in state `kNormal`: in the storage, not obsolete, and neither input nor
output of a running job. -/
def Pickable (s : State) (f : UInt64) : Prop :=
  f ∈ added (s.log.take s.logSynced) ∧ s.obsolete f = none ∧
    ∀ j job, s.jobs j = some job → f ∉ job.inputs ∧ f ∉ job.outputs

def append (s : State) (k : Key) (slot : Slot) : State :=
  { s with lsm := update s.lsm k (write (s.lsm k) s.seq slot), seq := s.seq + 1 }

def setJob (s : State) (j : Nat) (job : Option Job) : State := { s with jobs := update s.jobs j job }

end State

/-- What `TitanTableBuilder::Add` may make of a version: keep it, separate a value,
relocate a record, or put a value back in line. -/
inductive Moves (fs : Files Key) (outputs : List UInt64) (k : Key) : Slot → Slot → Prop
  | keep (slot : Slot) : Moves fs outputs k slot slot
  | separate (v : Bytes) (p : BlobPtr) (hp : Holds fs p k v) (ho : p.fileNumber ∈ outputs) :
      Moves fs outputs k (.value v) (.index p)
  | relocate (v : Bytes) (q p : BlobPtr) (hq : Holds fs q k v) (hp : Holds fs p k v)
      (ho : p.fileNumber ∈ outputs) : Moves fs outputs k (.index q) (.index p)
  | putInline (v : Bytes) (q : BlobPtr) (hq : Holds fs q k v) : Moves fs outputs k (.index q) (.value v)

/-- The versions after a flush or compaction of `region`. Each new record was
written for one version. -/
structure Installs (s : State) (outputs : List UInt64) (region : Key → Nat → Prop) (lsm : Lsm) :
    Prop where
  rewritten : ∀ k, Rewritten (· ∈ s.snapshots) (region k) (· = .deletion)
    (Moves s.files outputs k) (s.lsm k) (lsm k)
  once : ∀ k n k' n' p, p.fileNumber ∈ outputs → lsm k n = some (.index p) →
    lsm k' n' = some (.index p) → k = k' ∧ n = n'

def slotOf (p : BlobPtr) : UInt64 × UInt64 := (p.fileNumber, p.blobHandle.index)

/-- The tables that hold the versions of `region` refer to the record `d`. -/
def TableRefers (region : Key → Nat → Prop) (lsm : Lsm) (d : UInt64 × UInt64) : Prop :=
  ∃ k n p, region k n ∧ lsm k n = some (.index p) ∧ slotOf p = d

inductive Copies (new : Files Key) (fallback : Bool) (r : Scanned) : Rewrite → Prop
  | record (p : BlobPtr) (hf : fallback = false) (hp : Holds new p r.key r.value) :
      Copies new fallback r ⟨r.key, r.ptr, .index p⟩
  | value (hf : fallback = true) : Copies new fallback r ⟨r.key, r.ptr, .value r.value⟩

def newPtrs (pending : List Rewrite) : List BlobPtr :=
  pending.filterMap fun e => match e.slot with | .index p => some p | _ => none

/-- Files with the numbers `outputs`, just allocated and written. -/
structure Writes (s : State) (new : Files Key) (outputs : List UInt64) (next : UInt64) : Prop where
  fresh : Fresh s.files new
  numbers : ∀ f, f ∈ outputs ↔ new f ≠ none
  nodup : outputs.Nodup
  next : s.nextFileNumber ≤ next

inductive Action where
  | purgeRemove
  | other
  deriving Repr, DecidableEq

inductive Step (cf : UInt32) : State → Action → State → Prop
  | put (s : State) (k : Key) (v : Bytes) :
      Step cf s .other { s.append k (.value v) with lastWrite := update s.lastWrite k (some v) }
  | delete (s : State) (k : Key) :
      Step cf s .other { s.append k .deletion with lastWrite := update s.lastWrite k none }
  | syncWal (s : State) : Step cf s .other { s with synced := s.seq }
  | getSnapshot (s : State) : Step cf s .other { s with snapshots := s.snapshots ++ [s.seq] }
  | releaseSnapshot (s : State) (i : Nat) :
      Step cf s .other { s with snapshots := s.snapshots.eraseIdx i }
  | build (s : State) (j : Nat) (new : Files Key) (outputs : List UInt64) (next : UInt64)
      (hj : s.jobs j = none) (hw : Writes s new outputs next) :
      Step cf s .other { s.setJob j (some { outputs, phase := .finishing .written .install }) with
        files := add s.files new, nextFileNumber := next }
  | syncFiles (s : State) (j : Nat) (job : Job) (after : After) (hj : s.jobs j = some job)
      (hp : job.phase = .finishing .written after) :
      Step cf s .other { s.setJob j (some { job with phase := .finishing .synced after }) with
        fileSynced := fun f => s.fileSynced f || decide (f ∈ job.outputs) }
  | logFiles (s : State) (j : Nat) (job : Job) (after : After) (metas : List BlobFileMeta)
      (hj : s.jobs j = some job) (hp : job.phase = .finishing .synced after)
      (hm : metas.map (·.fileNumber) = job.outputs) :
      Step cf s .other { s.setJob j (some { job with phase := .finishing .logged after }) with
        log := s.log ++ [{ nextFileNumber := some s.nextFileNumber, columnFamilyId := cf,
                           addedFiles := metas }] }
  | applyBuild (s : State) (j : Nat) (job : Job) (hj : s.jobs j = some job)
      (hp : job.phase = .finishing .logged .install) :
      Step cf s .other { s.setJob j (some { job with phase := .built }) with
        logSynced := s.log.length }
  | flush (s : State) (j : Nat) (job : Job) (flushed : Nat) (lsm : Lsm) (hj : s.jobs j = some job)
      (hp : job.phase = .built) (hf : s.flushed ≤ flushed) (hseq : flushed ≤ s.seq)
      (hi : Installs s job.outputs (fun _ n => s.flushed < n ∧ n ≤ flushed) lsm) :
      Step cf s .other { s.setJob j none with lsm := lsm, flushed := flushed }
  | compact (s : State) (j : Nat) (job : Job) (region : Key → Nat → Prop) (lsm : Lsm)
      (info : CompactionJobInfo) (hj : s.jobs j = some job) (hp : job.phase = .built)
      (hr : ∀ k n, region k n → n ≤ s.flushed) (hi : Installs s job.outputs region lsm)
      (hin : ∀ d, d ∈ info.inputs ↔ TableRefers region s.lsm d)
      (hout : ∀ d, d ∈ info.outputs ↔ TableRefers region lsm d) :
      Step cf s .other { s.setJob j none with lsm := lsm, notices := s.notices ++ [info] }
  | deliver (s : State) (before after : List CompactionJobInfo) (info : CompactionJobInfo)
      (hn : s.notices = before ++ info :: after) :
      Step cf s .other { s with
        notices := before ++ after
        bits := fun f i => s.bits f i || ((s.obsolete f).isNone && info.invalid (f, i)) }
  | pick (s : State) (j : Nat) (inputs : List UInt64) (useBitmap : Bool) (hj : s.jobs j = none)
      (hn : inputs.Nodup) (hp : ∀ f ∈ inputs, s.Pickable f) :
      Step cf s .other (s.setJob j (some { inputs, useBitmap, phase := .picked }))
  | buildIterator (s : State) (j : Nat) (job : Job) (todo : List Scanned)
      (hj : s.jobs j = some job) (hp : job.phase = .picked)
      (ht : todo.Perm (records s.files job.inputs)) :
      Step cf s .other
        (s.setJob j (some { job with phase := .scanning { bitmap := s.bits, todo } }))
  | scan (s : State) (j : Nat) (job : Job) (sc sc' : Scan) (r : Scanned) (rest : List Scanned)
      (hj : s.jobs j = some job) (hp : job.phase = .scanning sc) (ht : sc.todo = r :: rest)
      (hs : scanRecord job.useBitmap (s.baseGet r.key) { sc with todo := rest } r = .ok sc') :
      Step cf s .other (s.setJob j (some { job with phase := .scanning sc' }))
  | rewriteFiles (s : State) (j : Nat) (job : Job) (sc : Scan) (fallback : Bool) (new : Files Key)
      (outputs : List UInt64) (next : UInt64) (pending : List Rewrite) (hj : s.jobs j = some job)
      (hp : job.phase = .scanning sc) (ht : sc.todo = []) (hw : Writes s new outputs next)
      (hc : List.Forall₂ (Copies new fallback) sc.queue pending) (hn : (newPtrs pending).Nodup) :
      Step cf s .other { s.setJob j (some { job with
          outputs, phase := .finishing .written (.rewrite pending) }) with
        files := add s.files new, nextFileNumber := next }
  | applyRewrite (s : State) (j : Nat) (job : Job) (pending : List Rewrite)
      (hj : s.jobs j = some job) (hp : job.phase = .finishing .logged (.rewrite pending)) :
      Step cf s .other { s.setJob j (some { job with phase := .rewriting pending [] }) with
        logSynced := s.log.length }
  | writeBack (s : State) (j : Nat) (job : Job) (e : Rewrite) (rest : List Rewrite)
      (dropped : List (UInt64 × UInt64)) (hj : s.jobs j = some job)
      (hp : job.phase = .rewriting (e :: rest) dropped)
      (hc : callback (s.baseGet e.key) e.old.plain = .ok ()) :
      Step cf s .other ((s.append e.key e.slot).setJob j
        (some { job with phase := .rewriting rest dropped }))
  | overwritten (s : State) (j : Nat) (job : Job) (e : Rewrite) (rest : List Rewrite)
      (dropped : List (UInt64 × UInt64)) (msg : String) (hj : s.jobs j = some job)
      (hp : job.phase = .rewriting (e :: rest) dropped)
      (hc : callback (s.baseGet e.key) e.old.plain = .error ⟨.busy, msg⟩) :
      Step cf s .other (s.setJob j (some { job with
        phase := .rewriting rest (if job.useBitmap then dropped ++ (newPtrs [e]).map slotOf
          else dropped) }))
  | markDropped (s : State) (j : Nat) (job : Job) (dropped : List (UInt64 × UInt64))
      (hj : s.jobs j = some job) (hp : job.phase = .rewriting [] dropped) :
      Step cf s .other { s.setJob j (some { job with phase := .marked }) with
        bits := fun f i => s.bits f i || decide ((f, i) ∈ dropped) }
  | flushWal (s : State) (j : Nat) (job : Job) (hj : s.jobs j = some job)
      (hp : job.phase = .marked) :
      Step cf s .other { s.setJob j (some { job with phase := .walSynced }) with synced := s.seq }
  | logDelete (s : State) (j : Nat) (job : Job) (hj : s.jobs j = some job)
      (hp : job.phase = .walSynced) :
      Step cf s .other { s.setJob j (some { job with phase := .deleting s.seq }) with
        log := s.log ++ [{ nextFileNumber := some s.nextFileNumber, columnFamilyId := cf,
                           deletedFiles := (job.inputs.filter fun f => (s.obsolete f).isNone).map
                             fun f => (f, s.seq) }] }
  | applyDelete (s : State) (j : Nat) (job : Job) (q : Nat) (hj : s.jobs j = some job)
      (hp : job.phase = .deleting q) :
      Step cf s .other { s.setJob j none with
        logSynced := s.log.length
        obsolete := fun f => (s.obsolete f).or (if f ∈ job.inputs then some q else none) }
  /-- A job fails. That the sync of a record it has logged fails is not a step here. -/
  | abort (s : State) (j : Nat) (job : Job) (hj : s.jobs j = some job)
      (hl : ∀ after, job.phase ≠ .finishing .logged after) (hd : ∀ q, job.phase ≠ .deleting q) :
      Step cf s .other (s.setJob j none)
  | purgeRead (s : State) (hp : s.purging = none) :
      Step cf s .other { s with purging := some s.oldestSnapshot }
  | purgeRemove (s : State) (oldest : Nat) (hp : s.purging = some oldest) :
      Step cf s .purgeRemove { s with
        purging := none
        purged := fun f => s.purged f || (s.obsolete f).any fun q => decide (q < oldest) }

end TitanGC.Software.System
