import TitanGC.Manifest.Logging

/-!
# Purging obsolete files

`PurgeObsoleteFilesImpl`: `GetObsoleteFiles` takes what no snapshot sees any more out of
the storages, and the files are then deleted one by one. The loop tests the status of the
whole call where it has the status of the deletion, so that no deletion is ever reported.
-/

namespace TitanGC.Manifest.Purging

open Format.Coding List Logging

inductive FileName where
  | blob (number : UInt64)
  | manifest (number : UInt64)
  deriving Repr, DecidableEq

/-- How a call of `Env::DeleteFile` ends. One that fails may have removed the file. -/
inductive Delete where
  | ok
  | failed (status : Status) (removed : Bool)
  deriving Repr, DecidableEq

def Delete.status : Delete → Option Status
  | .ok => none
  | .failed status _ => some status

def Delete.removes : Delete → Bool
  | .ok => true
  | .failed _ removed => removed

structure Db where
  set : OpenSet
  /-- Manifests that could not be written, from `OpenManifest`. -/
  obsoleteManifests : List FileName := []
  disableFileDeletions : Nat := 0
  disk : List FileName

namespace Db

/-- The files that `BlobFileSet::GetObsoleteFiles` gives out. -/
def candidateFiles (db : Db) (oldestSequence : Nat) : List FileName :=
  (db.set.getObsoleteFiles oldestSequence).1.map .blob ++ db.obsoleteManifests

/-- The state in which the storages and the list of manifests have given them out. -/
def takeObsoleteFiles (db : Db) (oldestSequence : Nat) : Db :=
  { db with set := (db.set.getObsoleteFiles oldestSequence).2, obsoleteManifests := [] }

/-- One turn of the loop: `s` is tested, not the status of the deletion. -/
def deleteFile (delete : FileName → Delete) (s : Option Status × List FileName) (f : FileName) :
    Option Status × List FileName :=
  (if s.1.isSome then (delete f).status else s.1,
   if (delete f).removes then s.2.filter (· ≠ f) else s.2)

/-- Candidates are sorted and made unique first; the order in which they are deleted
plays no part. -/
def purgeObsoleteFilesImpl (db : Db) (oldestSequence : Nat) (delete : FileName → Delete) :
    Option Status × Db :=
  if 0 < db.disableFileDeletions then (none, db)
  else
    let r := (db.candidateFiles oldestSequence).dedup.foldl (deleteFile delete) (none, db.disk)
    (r.1, { db.takeObsoleteFiles oldestSequence with disk := r.2 })

end Db

/-! ## What a purge reports -/

/-- A later purge will find the file. -/
def Kept (db : Db) : FileName → Prop
  | .blob n => ∃ s ∈ db.set.columnFamilies, n ∈ s.2.obsoleteFiles.map (·.1)
  | .manifest n => .manifest n ∈ db.obsoleteManifests

def givenOut (db : Db) (oldestSequence : Nat) : List FileName :=
  if 0 < db.disableFileDeletions then [] else db.candidateFiles oldestSequence

/-- OK means that every file the storages gave out is gone; a file that could not be
deleted is reported or kept. -/
structure Reported (db : Db) (oldestSequence : Nat) (status : Option Status) (after : Db) : Prop where
  gone : status = none → ∀ n, .blob n ∈ givenOut db oldestSequence → .blob n ∉ after.disk
  failed : ∀ f ∈ givenOut db oldestSequence, f ∈ after.disk → status ≠ none ∨ Kept after f

variable (delete : FileName → Delete)

theorem foldl_deleteFile (fs disk : List FileName) :
    (fs.foldl (Db.deleteFile delete) (none, disk)).1 = none ∧
      ∀ f, f ∈ (fs.foldl (Db.deleteFile delete) (none, disk)).2 ↔
        f ∈ disk ∧ ¬ (f ∈ fs ∧ (delete f).removes = true) := by
  induction fs generalizing disk with
  | nil => exact ⟨rfl, fun f => ⟨fun h => ⟨h, fun hin => not_mem_nil hin.1⟩, fun h => h.1⟩⟩
  | cons g fs ih =>
    have hturn : Db.deleteFile delete (none, disk) g =
        (none, if (delete g).removes then disk.filter (· ≠ g) else disk) := rfl
    rw [foldl_cons, hturn]
    refine ⟨(ih _).1, fun f => ?_⟩
    rw [(ih _).2 f]
    by_cases hremoves : (delete g).removes = true
    · rw [if_pos hremoves, mem_filter, decide_eq_true_iff, mem_cons]
      constructor
      · rintro ⟨⟨hdisk, hne⟩, hrest⟩
        exact ⟨hdisk, fun h => hrest ⟨h.1.resolve_left hne, h.2⟩⟩
      · rintro ⟨hdisk, hrest⟩
        refine ⟨⟨hdisk, fun heq => hrest ⟨.inl heq, heq ▸ hremoves⟩⟩, fun h => hrest ⟨.inr h.1, h.2⟩⟩
    · rw [if_neg hremoves, mem_cons]
      refine and_congr_right fun _ => not_congr (and_congr_left fun hf => ?_)
      have hne : f ≠ g := by
        rintro rfl
        exact hremoves hf
      exact (or_iff_right hne).symm

/-- A purge returns OK, and what is left on disk of the files it gave out is what could
not be removed. -/
theorem purge_spec (db : Db) (oldestSequence : Nat) (delete : FileName → Delete) :
    (db.purgeObsoleteFilesImpl oldestSequence delete).1 = none ∧
      ∀ f ∈ givenOut db oldestSequence,
        (f ∈ (db.purgeObsoleteFilesImpl oldestSequence delete).2.disk ↔
          f ∈ db.disk ∧ (delete f).removes = false) := by
  rw [Db.purgeObsoleteFilesImpl, givenOut]
  by_cases hdisabled : 0 < db.disableFileDeletions
  · rw [if_pos hdisabled, if_pos hdisabled]
    exact ⟨rfl, forall_mem_nil _⟩
  · rw [if_neg hdisabled, if_neg hdisabled]
    obtain ⟨hstatus, hdisk⟩ :=
      foldl_deleteFile delete (db.candidateFiles oldestSequence).dedup db.disk
    refine ⟨hstatus, fun f hf => (hdisk f).trans (and_congr_right fun _ => ?_)⟩
    rw [and_iff_right (mem_dedup.mpr hf), Bool.not_eq_true]

/-- The list of manifests is empty after files were given out. -/
theorem not_kept_manifest {db : Db} {oldestSequence : Nat} {n : UInt64}
    (h : .manifest n ∈ givenOut db oldestSequence) :
    ¬ Kept (db.purgeObsoleteFilesImpl oldestSequence delete).2 (.manifest n) := by
  rw [givenOut] at h
  rw [Kept, Db.purgeObsoleteFilesImpl]
  split
  · rename_i hdisabled
    rw [if_pos hdisabled] at h
    exact absurd h not_mem_nil
  · exact not_mem_nil

/-- A purge reports, or keeps, what it could not delete exactly if it could delete
everything. -/
theorem purge_reported_iff (db : Db) (oldestSequence : Nat) (delete : FileName → Delete) :
    Reported db oldestSequence (db.purgeObsoleteFilesImpl oldestSequence delete).1
        (db.purgeObsoleteFilesImpl oldestSequence delete).2 ↔
      ∀ f ∈ givenOut db oldestSequence, f ∈ db.disk → (delete f).removes = true := by
  obtain ⟨hstatus, hdisk⟩ := purge_spec db oldestSequence delete
  constructor
  · intro h f hf hon
    by_contra hremoves
    have hleft := (hdisk f hf).mpr ⟨hon, Bool.eq_false_iff.mpr hremoves⟩
    cases f with
    | blob n => exact h.gone hstatus n hf hleft
    | manifest n =>
      rcases h.failed _ hf hleft with hreported | hkept
      · exact hreported hstatus
      · exact not_kept_manifest delete hf hkept
  · intro h
    have hgone : ∀ f ∈ givenOut db oldestSequence,
        f ∉ (db.purgeObsoleteFilesImpl oldestSequence delete).2.disk := by
      intro f hf hleft
      obtain ⟨hon, hremoves⟩ := (hdisk f hf).mp hleft
      rw [h f hf hon] at hremoves
      cases hremoves
    exact ⟨fun _ n hn => hgone _ hn, fun f hf hleft => absurd hleft (hgone f hf)⟩

def obsoleteFive : Db where
  set := { columnFamilies := [(0, {
    files := Function.update (fun _ => none) 5 (some ⟨{ fileNumber := 5 }, true⟩)
    obsoleteFiles := [(5, 3)] })] }
  disk := [.blob 5]

/-- The deletion of file 5 fails. The purge returns OK, the file is on disk, and neither
the storage nor the list of obsolete files has it any more. -/
theorem failed_deletion_lost :
    ((obsoleteFive.purgeObsoleteFilesImpl 10 fun _ => .failed ⟨.ioError, "busy"⟩ false).1 = none ∧
      .blob 5 ∈ givenOut obsoleteFive 10 ∧
      (obsoleteFive.purgeObsoleteFilesImpl 10 fun _ => .failed ⟨.ioError, "busy"⟩ false).2.disk = [.blob 5]) ∧
      ∃ st, (obsoleteFive.purgeObsoleteFilesImpl 10
          fun _ => .failed ⟨.ioError, "busy"⟩ false).2.set.columnFamilies = [(0, st)] ∧
        st.files 5 = none ∧ st.obsoleteFiles = [] :=
  ⟨by decide, _, rfl, rfl, rfl⟩

end TitanGC.Manifest.Purging
