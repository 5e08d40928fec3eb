import TitanGC.Scheduling.Jobs
import TitanGC.Software.GcJob

/-!
# Histories with garbage collection

Flushes, compactions and their notifications as in `History`, together with the
memtables and with software garbage collection jobs. A job marks its inputs,
installs its outputs with the size of all records it has copied, writes the new
indexes of the keys back one after the other, subtracts what was overwritten
meanwhile, deletes its inputs and releases its files. It may fail before each of
these steps; then it only releases its files. What the base database decides (what a
key reads as, which overwritten versions a flush keeps) is a part of the operation.
-/

namespace TitanGC.Accounting.GcHistory

open Lib.ByteCoding Lib.OrderedMap Format.Coding Format.BlobFormat
open Manifest.VersionEdits Manifest.Logging
open Offload.Reads (BaseResult)
open Software.GcJob (callback)
open Scheduling.Picker (markFilesBeingGC releaseGcFiles)
open Scheduling.Jobs (outputEdit deleteInputsEdit)
open SizeCollector Tracking Listener
open History (refs Sane Event Named notify finishEdit)

/-! ## Jobs -/

/-- A key to write back. In fallback mode it has no new index, and the value itself
goes back to the LSM. -/
structure Rewrite where
  key : Bytes
  value : Bytes := []
  blobIndex : BlobIndex
  newBlobIndex : Option BlobIndex
  deriving Repr, DecidableEq

def Rewrite.entry (r : Rewrite) : Entry :=
  match r.newBlobIndex with
  | some index => ⟨r.key, index.encodeTo, .blobIndex⟩
  | none => ⟨r.key, r.value, .put⟩

inductive Phase where
  /-- No output is installed. -/
  | running
  /-- `RewriteValidKeyToLSM`; `dropped` has the sizes of the records whose key was
  overwritten. -/
  | rewriting (pending : List Rewrite) (dropped : List (UInt64 × UInt64))
  /-- What was dropped is subtracted. -/
  | rewritten

structure Job where
  inputs : List UInt64
  outputs : List UInt64 := []
  phase : Phase := .running

def Job.files (j : Job) : List UInt64 := j.inputs ++ j.outputs

/-- `live_data_size_` of the builder of a file: the sum of the handle sizes. -/
def liveDataSize (pending : List Rewrite) (file : UInt64) : UInt64 :=
  UInt64.ofNat (referenced (pending.map Rewrite.entry) file)

/-- The loop of `RewriteValidKeyToLSM` over the files with dropped records. -/
def subtractDropped (st : Storage) (dropped : List (UInt64 × UInt64)) : Storage :=
  dropped.foldl (fun st d => st.modify d.1 fun f => (f.updateLiveDataSize (-d.2).toInt64).2) st

/-! ## States -/

structure Notification where
  event : Event
  created : List UInt64

/-- The base database's side of a column family, and its jobs. -/
structure Family where
  tables : List Table := []
  /-- The entries of all memtables, the newest first. -/
  mem : List Entry := []
  /-- Blob files of flushes and compactions that are not installed. -/
  finished : List UInt64 := []
  undelivered : List Notification := []
  jobs : List Job := []

def Family.setJob (l : Family) (i : Nat) (j : Job) : Family := { l with jobs := l.jobs.set i j }

structure State where
  blobs : BlobFiles
  family : UInt32 → Family := fun _ => {}
  /-- The file numbers that were ever given out. -/
  used : List UInt64 := []

def State.setFamily (s : State) (cf : UInt32) (l : Family) : State :=
  { s with family := Function.update s.family cf l }

/-! ## Operations -/

inductive Op where
  | finish (cf : UInt32) (files : List BlobFileMeta) (w : Write)
  | write (cf : UInt32) (entry : Entry)
  /-- `newer` is how many of the newest entries stay in memtables. -/
  | flush (cf : UInt32) (newer : Nat) (table : Table) (created : List UInt64)
  | compact (cf : UInt32) (inputs outputs : List Table) (outputLevel : Int) (created : List UInt64)
  | compactFailed (cf : UInt32) (status : Status) (inputs outputs : List Table) (outputLevel : Int)
  | deliver (cf : UInt32) (i : Nat) (latestSequence : Nat) (w : Write)
  | purge (cf : UInt32) (oldestSequence : Nat)
  | pick (cf : UInt32) (inputs : List UInt64)
  | install (cf : UInt32) (i : Nat) (files : List BlobFileMeta) (pending : List Rewrite) (w : Write)
  | writeBack (cf : UInt32) (i : Nat) (base : BaseResult)
  | subtract (cf : UInt32) (i : Nat)
  | finishJob (cf : UInt32) (i : Nat) (obsoleteSequence : Nat) (w : Write)
  | failJob (cf : UInt32) (i : Nat)

def Op.columnFamily : Op → UInt32
  | .finish cf _ _ | .write cf _ | .flush cf _ _ _ | .compact cf _ _ _ _ | .compactFailed cf _ _ _ _
  | .deliver cf _ _ _ | .purge cf _ | .pick cf _ | .install cf _ _ _ _ | .writeBack cf _ _
  | .subtract cf _ | .finishJob cf _ _ _ | .failJob cf _ => cf

section

variable (options : UInt32 → CFOptions)

def State.releaseJob (s : State) (cf : UInt32) (i : Nat) (j : Job) : State :=
  { s with blobs := s.blobs.setStorage cf (releaseGcFiles (s.blobs.storage cf) j.inputs j.outputs) }.setFamily
    cf { s.family cf with jobs := (s.family cf).jobs.eraseIdx i }

def exec (s : State) : Op → State
  | .finish cf files w =>
    let r := s.blobs.logAndApply w (finishEdit cf files)
    let s := { s with blobs := r.2, used := s.used ++ files.map (·.fileNumber) }
    if r.1 = none then
      let l := s.family cf
      s.setFamily cf { l with finished := l.finished ++ files.map (·.fileNumber) }
    else s
  | .write cf entry =>
    let l := s.family cf
    s.setFamily cf { l with mem := entry :: l.mem }
  | .flush cf newer table created =>
    let l := s.family cf
    s.setFamily cf { l with
      tables := l.tables ++ [table]
      mem := l.mem.take newer
      finished := l.finished.filter (· ∉ created)
      undelivered := l.undelivered ++ [⟨.flush table, created⟩] }
  | .compact cf inputs outputs outputLevel created =>
    let l := s.family cf
    s.setFamily cf { l with
      tables := l.tables.diff inputs ++ outputs
      finished := l.finished.filter (· ∉ created)
      undelivered := l.undelivered ++ [⟨.compaction none inputs outputs outputLevel, created⟩] }
  | .compactFailed cf status inputs outputs outputLevel =>
    let l := s.family cf
    s.setFamily cf { l with
      undelivered := l.undelivered ++ [⟨.compaction (some status) inputs outputs outputLevel, []⟩] }
  | .deliver cf i latestSequence w =>
    let l := s.family cf
    match l.undelivered[i]? with
    | none => s
    | some p =>
      { s with blobs := notify options s.blobs cf latestSequence w p.event }.setFamily cf
        { l with undelivered := l.undelivered.eraseIdx i }
  | .purge cf oldestSequence =>
    { s with blobs := s.blobs.setStorage cf ((s.blobs.storage cf).getObsoleteFiles oldestSequence) }
  | .pick cf inputs =>
    let l := s.family cf
    { s with blobs := s.blobs.setStorage cf (markFilesBeingGC (s.blobs.storage cf) inputs) }.setFamily cf
      { l with jobs := l.jobs ++ [(⟨inputs, [], .running⟩ : Job)] }
  | .install cf i files pending w =>
    let l := s.family cf
    match l.jobs[i]? with
    | none => s
    | some j =>
      let r := s.blobs.logAndApply w
        (outputEdit cf (files.map fun f => (f, liveDataSize pending f.fileNumber)))
      let s := { s with blobs := r.2, used := s.used ++ files.map (·.fileNumber) }
      if r.1 = none then
        s.setFamily cf (l.setJob i ⟨j.inputs, files.map (·.fileNumber), .rewriting pending []⟩)
      else s
  | .writeBack cf i base =>
    let l := s.family cf
    match l.jobs[i]? with
    | some ⟨inputs, outputs, .rewriting (r :: rest) dropped⟩ =>
      match callback base r.blobIndex with
      | .ok () => s.setFamily cf
          { l.setJob i ⟨inputs, outputs, .rewriting rest dropped⟩ with mem := r.entry :: l.mem }
      | .error status =>
        -- the loop goes on after a key that was overwritten, and ends at another error
        if status.code = .busy then
          let new := r.newBlobIndex.getD {}
          s.setFamily cf (l.setJob i
            ⟨inputs, outputs, .rewriting rest (add new.fileNumber new.blobHandle.size dropped)⟩)
        else s
    | _ => s
  | .subtract cf i =>
    let l := s.family cf
    match l.jobs[i]? with
    | some ⟨inputs, outputs, .rewriting [] dropped⟩ =>
      { s with blobs := s.blobs.setStorage cf (subtractDropped (s.blobs.storage cf) dropped) }.setFamily
        cf (l.setJob i ⟨inputs, outputs, .rewritten⟩)
    | _ => s
  | .finishJob cf i obsoleteSequence w =>
    match (s.family cf).jobs[i]? with
    | some ⟨inputs, outputs, .rewritten⟩ =>
      let e := deleteInputsEdit (s.blobs.storage cf) ⟨cf, inputs, outputs⟩ obsoleteSequence
      { s with blobs := (s.blobs.logAndApply w e).2 }.releaseJob cf i ⟨inputs, outputs, .rewritten⟩
    | _ => s
  | .failJob cf i =>
    match (s.family cf).jobs[i]? with
    | some j => s.releaseJob cf i j
    | none => s

end

/-! ## What holds of the operations -/

/-- A flush writes an entry as it is, or with its value in the table or in a blob file
of its own. -/
def Writes (created : List UInt64) (e e' : Entry) : Prop :=
  e' = e ∨ e'.key = e.key ∧ ∀ r, e'.reference = some r → r.1 ∈ created

def FlushOf (created : List UInt64) (old : List Entry) (table : Table) : Prop :=
  ∃ kept written, kept.Sublist old ∧ List.Forall₂ (Writes created) kept written ∧
    written.Perm table.entries

/-- As in `History`, with these: a user writes no blob index; a job takes files that
nothing else is done with; the new indexes of a job are of its own outputs; and
`RewriteValidKeyToLSM` does not fail between its last key and the subtraction. -/
def Allowed (s : State) : Op → Prop
  | .finish cf files _ => cf ∈ s.blobs.ids ∧ (files.map (·.fileNumber)).Nodup ∧
      ∀ f ∈ files, f.fileNumber ∉ s.used
  | .write _ entry => entry.type ≠ .blobIndex
  | .flush cf newer table created => cf ∈ s.blobs.ids ∧ Sane table ∧
      (∀ file ∈ created, file ∈ (s.family cf).finished) ∧
      FlushOf created ((s.family cf).mem.drop newer) table ∧
      ∀ file, refs ((s.family cf).tables ++ [table]) file < 2 ^ 63
  | .compact cf inputs outputs _ created => cf ∈ s.blobs.ids ∧ (∀ t ∈ outputs, Sane t) ∧
      inputs.Subperm (s.family cf).tables ∧ Named (inputs ++ outputs) ∧
      (∀ file ∈ created, file ∈ (s.family cf).finished ∧ refs outputs file < 2 ^ 63) ∧
      ∀ file, file ∉ created → refs outputs file ≤ refs inputs file
  | .compactFailed cf _ _ _ _ => cf ∈ s.blobs.ids
  | .deliver cf _ _ _ => cf ∈ s.blobs.ids
  | .pick cf inputs => ∀ n ∈ inputs, ∃ f, (s.blobs.storage cf).files n = some f ∧ f.state = .normal
  | .install cf i files pending _ => (files.map (·.fileNumber)).Nodup ∧
      (∀ f ∈ files, f.fileNumber ∉ s.used) ∧
      (∀ j, (s.family cf).jobs[i]? = some j → j.phase = .running) ∧
      (∀ r ∈ pending.filterMap (·.entry.reference), r.1 ∈ files.map (·.fileNumber) ∧ 0 < r.2) ∧
      ∀ file, referenced (pending.map Rewrite.entry) file < 2 ^ 63
  | .failJob cf i => ∀ j dropped, (s.family cf).jobs[i]? = some j → j.phase ≠ .rewriting [] dropped
  | .purge _ _ | .writeBack _ _ _ | .subtract _ _ | .finishJob _ _ _ _ => True

/-- A database that has just been opened: `InitializeGC` has flushed the memtables and
computed the sizes. -/
structure Opened (s : State) : Prop where
  base : History.Opened ⟨s.blobs, fun cf => { tables := (s.family cf).tables }, s.used⟩
  quiet : ∀ cf, (s.family cf).mem = [] ∧ (s.family cf).finished = [] ∧
    (s.family cf).undelivered = [] ∧ (s.family cf).jobs = []

/-! ## What is referenced, and what is forgotten -/

def newest : List Entry → List Entry
  | [] => []
  | e :: mem => e :: (newest mem).filter (·.key ≠ e.key)

def overwritten : List Entry → List Entry
  | [] => []
  | e :: mem => (newest mem).filter (·.key = e.key) ++ overwritten mem

/-- By how much of the file the newest memtable entries and the current tables
reference it. -/
def held (l : Family) (file : UInt64) : ℕ := refs l.tables file + referenced (newest l.mem) file

/-- By how much the counter of the file will change with the notification. The blob
files of a garbage collection are not counted again when their indexes are flushed. -/
def Notification.delta (file : UInt64) (p : Notification) : ℤ :=
  match p.event with
  | .flush t => if file ∈ p.created then referenced t.entries file else 0
  | .compaction .. => p.event.delta file

/-- What a job has still to write back or to subtract. -/
def Job.owes (file : UInt64) (j : Job) : ℕ :=
  match j.phase with
  | .rewriting pending dropped => referenced (pending.map Rewrite.entry) file +
      ((dropped.lookup file).map UInt64.toNat).getD 0
  | _ => 0

def collecting (f : TrackedFile) : Bool := f.state == .beingGC || f.state == .pendingGC

/-- References that go without being subtracted: overwritten indexes that a flush does
not write, differences for a file that belongs to a garbage collection, and what a job
that fails has not written back. -/
def lost (s : State) (cf : UInt32) (file : UInt64) : Op → ℕ
  | .flush cf' newer table created =>
    if cf' = cf ∧ file ∉ created then
      referenced ((s.family cf).mem.drop newer) file - referenced table.entries file
    else 0
  | .deliver cf' i _ _ =>
    if cf' = cf ∧ ((s.blobs.storage cf).files file).any collecting then
      (((s.family cf).undelivered[i]?).map fun p => (-(p.delta file)).toNat).getD 0
    else 0
  | .failJob cf' i =>
    if cf' = cf then (((s.family cf).jobs[i]?).map (Job.owes file)).getD 0 else 0
  | _ => 0

theorem lost_other {s : State} {cf : UInt32} {op : Op} (h : cf ≠ op.columnFamily) (file : UInt64) :
    lost s cf file op = 0 := by
  cases op with
  | flush cf' newer table created => exact if_neg fun hand => h hand.1.symm
  | deliver cf' i latestSequence w => exact if_neg fun hand => h hand.1.symm
  | failJob cf' i => exact if_neg (Ne.symm h)
  | _ => rfl

end TitanGC.Accounting.GcHistory
