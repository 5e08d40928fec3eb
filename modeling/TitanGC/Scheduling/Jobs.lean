import TitanGC.Accounting.History
import TitanGC.Scheduling.Picker

/-!
# Garbage collection jobs

A job between `PickBlobGC` and `ReleaseGcFiles`, the edits that it logs, and lists of
jobs that run at the same time.
-/

namespace TitanGC.Scheduling.Jobs

open List
open Manifest.VersionEdits Accounting.Tracking

structure Job where
  columnFamilyId : UInt32
  inputs : List UInt64
  /-- The outputs that are installed. -/
  outputs : List UInt64 := []
  deriving DecidableEq

def Job.files (j : Job) : List UInt64 := j.inputs ++ j.outputs

/-! ## Edits -/

def outputEdit (cf : UInt32) (files : List (BlobFileMeta × UInt64)) : Edit where
  columnFamilyId := cf
  addedFiles := files.map fun f =>
    ({ file := f.1, liveDataSize := f.2 } : TrackedFile).fileStateTransit .gcOutput

def deleteEdit (cf : UInt32) (fileNumbers : List UInt64) (obsoleteSequence : Nat) : Edit where
  columnFamilyId := cf
  deletedFiles := fileNumbers.map fun n => (n, obsoleteSequence)

def inputObsolete (st : Storage) (n : UInt64) : Bool :=
  match st.files n with
  | none => true
  | some f => f.isObsolete

def deleteInputsEdit (st : Storage) (j : Job) (obsoleteSequence : Nat) : Edit :=
  deleteEdit j.columnFamilyId (j.inputs.filter fun n => !inputObsolete st n) obsoleteSequence

/-! ## Lists of jobs -/

variable {jobs : List Job} {j : Job} {i : Nat}

/-- The jobs around one of them. -/
theorem split_jobs (hi : jobs[i]? = some j) :
    ∃ before after, jobs = before ++ j :: after ∧ jobs.eraseIdx i = before ++ after ∧
      ∀ j', jobs.set i j' = before ++ j' :: after := by
  obtain ⟨hlt, hj⟩ := List.getElem?_eq_some_iff.mp hi
  refine ⟨jobs.take i, jobs.drop (i + 1), ?_, eraseIdx_eq_take_drop_succ .., fun j' => ?_⟩
  · rw [← hj, cons_getElem_drop_succ, take_append_drop]
  · rw [set_eq_take_append_cons_drop, if_pos hlt]

/-- One job apart from the others. -/
theorem files_perm (hi : jobs[i]? = some j) :
    (jobs.flatMap Job.files).Perm (j.files ++ (jobs.eraseIdx i).flatMap Job.files) := by
  obtain ⟨before, after, hjobs, herase, -⟩ := split_jobs hi
  rw [herase, hjobs]
  exact perm_middle.flatMap_right Job.files

/-- A file of a job is an input of that job only. -/
theorem countP_inputs (honce : (jobs.flatMap Job.files).Nodup) (hj : j ∈ jobs) {n : UInt64}
    (hn : n ∈ j.inputs) : jobs.countP (fun k => decide (n ∈ k.inputs)) = 1 := by
  obtain ⟨before, after, rfl⟩ := append_of_mem hj
  have hnodup := (perm_middle.flatMap_right Job.files).nodup honce
  have hapart : ∀ k ∈ before ++ after, n ∉ k.inputs := fun k hk hin =>
    disjoint_of_nodup_append hnodup (mem_append_left _ hn)
      (mem_flatMap.mpr ⟨k, hk, mem_append_left _ hin⟩)
  rw [perm_middle.countP_eq, countP_cons_of_pos (by simpa using hn)]
  rw [countP_eq_zero.mpr fun k hk => by simpa using hapart k hk]

end TitanGC.Scheduling.Jobs
