import TitanGC.Manifest.Mirror

/-!
# Blob files with their state and live data size

`BlobFileMeta` has, beside what the manifest keeps, a state and the size of its
live data. A file that waits for the LSM (`kPendingLSM`) uses the same counter for
what later compactions have already taken away. The transitions are those of a
build without assertions. `LogAndApply` checks an edit as in `Manifest.Logging`,
where a file is only known to be obsolete or not.
-/

namespace TitanGC.Accounting.Tracking

open Format.Coding List Function Manifest.VersionEdits Manifest.Logging Manifest.Mirror

/-! ## One file -/

inductive FileEvent where
  | init | flushCompleted | compactionCompleted | gcCompleted | gcBegin | gcOutput
  | flushOrCompactionOutput | dbRestart | delete | needMerge | reset
  deriving Repr, DecidableEq

inductive FileState where
  | init | normal | pendingLSM | beingGC | pendingGC | obsolete | toMerge
  deriving Repr, DecidableEq

structure TrackedFile where
  file : BlobFileMeta
  liveDataSize : UInt64 := 0
  state : FileState := .init
  deriving Repr, DecidableEq

namespace TrackedFile

def fileStateTransit (f : TrackedFile) (event : FileEvent) : TrackedFile :=
  match event with
  | .flushCompleted => if f.state = .pendingLSM then { f with state := .normal } else f
  | .gcCompleted => if f.state = .obsolete then f else { f with state := .normal }
  | .compactionCompleted => { f with state := .normal }
  | .gcBegin => { f with state := .beingGC }
  | .gcOutput => { f with state := .pendingGC }
  | .flushOrCompactionOutput => { f with state := .pendingLSM }
  | .dbRestart => { f with state := .normal }
  | .delete => { f with state := .obsolete }
  | .needMerge => if f.state = .toMerge then f else { f with state := .toMerge }
  | .reset => { f with state := .normal }
  | .init => f

def isObsolete (f : TrackedFile) : Bool := f.state == .obsolete

/-- Returns whether the size stayed above zero; it is cut off there. -/
def updateLiveDataSize (f : TrackedFile) (delta : Int64) : Bool × TrackedFile :=
  let result := f.liveDataSize.toInt64 + delta
  if result < 0 then (false, { f with liveDataSize := 0 })
  else (true, { f with liveDataSize := result.toUInt64 })

def noLiveData (f : TrackedFile) : Bool := f.liveDataSize == 0

end TrackedFile

/-! ## The files of a column family -/

structure Storage where
  files : UInt64 → Option TrackedFile := fun _ => none
  obsoleteFiles : List (UInt64 × Nat) := []

/-- An edit while it is in memory: it points to the files it adds. -/
structure Edit where
  columnFamilyId : UInt32 := 0
  addedFiles : List TrackedFile := []
  deletedFiles : List (UInt64 × Nat) := []

def Edit.deleteBlobFile (e : Edit) (number : UInt64) (obsoleteSequence : Nat) : Edit :=
  { e with deletedFiles := e.deletedFiles ++ [(number, obsoleteSequence)] }

def Edit.toVersionEdit (e : Edit) : VersionEdit :=
  { columnFamilyId := e.columnFamilyId
    addedFiles := e.addedFiles.map (·.file)
    deletedFiles := e.deletedFiles }

variable {f : TrackedFile} {st' : BlobStorage}

namespace Storage

def modify (st : Storage) (number : UInt64) (g : TrackedFile → TrackedFile) : Storage :=
  { st with files := update st.files number ((st.files number).map g) }

def addBlobFile (st : Storage) (f : TrackedFile) : Storage :=
  { files := update st.files f.file.fileNumber (some ((st.files f.file.fileNumber).getD f))
    obsoleteFiles := st.obsoleteFiles }

def markFileObsolete (st : Storage) (number : UInt64) (obsoleteSequence : Nat) : Option Storage :=
  match st.files number with
  | none => none
  | some f => some { files := update st.files number (some (f.fileStateTransit .delete))
                     obsoleteFiles := st.obsoleteFiles ++ [(number, obsoleteSequence)] }

def getObsoleteFiles (st : Storage) (oldestSequence : Nat) : Storage :=
  let gone := (st.obsoleteFiles.filter fun f => f.2 < oldestSequence).map (·.1)
  { files := fun n => if n ∈ gone then none else st.files n
    obsoleteFiles := st.obsoleteFiles.filter fun f => ¬ f.2 < oldestSequence }

def initializeAllFiles (st : Storage) : Storage :=
  { st with files := fun n => (st.files n).map (·.fileStateTransit .dbRestart) }

/-- A file that the edit adds and deletes is skipped. -/
def apply (st : Storage) (e : Edit) : Storage :=
  let st := e.addedFiles.foldl (fun st f =>
    if e.deletedFiles.any (·.1 == f.file.fileNumber) then st else st.addBlobFile f) st
  e.deletedFiles.foldl (fun st d =>
    if e.addedFiles.any (·.file.fileNumber == d.1) then st
    else (st.markFileObsolete d.1 d.2).getD st) st

/-- What the manifest knows of the storage. -/
def erase (st : Storage) : BlobStorage :=
  { files := fun n => (st.files n).map fun f => ⟨f.file, f.isObsolete⟩
    obsoleteFiles := st.obsoleteFiles }

/-! ## Agreement with the manifest's storage -/

theorem erase_update (files : UInt64 → Option TrackedFile) (obsolete : List (UInt64 × Nat)) (n : UInt64)
    (f : Option TrackedFile) :
    ({ files := update files n f, obsoleteFiles := obsolete } : Storage).erase.files =
      update (({ files := files, obsoleteFiles := obsolete } : Storage).erase.files) n
        (f.map fun f => ⟨f.file, f.isObsolete⟩) := by
  funext j
  by_cases h : j = n
  · subst h
    simp [erase]
  · simp [erase, update_of_ne h]

theorem erase_addBlobFile (st : Storage) (hf : f.state ≠ .obsolete) :
    (st.addBlobFile f).erase = st.erase.addBlobFile f.file := by
  have hfalse : f.isObsolete = false := by simp [TrackedFile.isObsolete, hf]
  rw [addBlobFile, BlobStorage.addBlobFile, BlobStorage.mk.injEq]
  refine ⟨(erase_update _ _ _ _).trans (congrArg _ ?_), rfl⟩
  cases h : st.files f.file.fileNumber with
  | none => simp [erase, h, hfalse]
  | some g => simp [erase, h]

theorem erase_markFileObsolete (st : Storage) (n : UInt64) (seq : Nat) :
    (st.markFileObsolete n seq).map erase = st.erase.markFileObsolete n seq := by
  rw [markFileObsolete, BlobStorage.markFileObsolete]
  cases h : st.files n with
  | none => simp [erase, h]
  | some f =>
    simp only [erase, h, Option.map_some, Option.some.injEq, BlobStorage.mk.injEq, and_true]
    exact erase_update st.files st.obsoleteFiles n (some (f.fileStateTransit .delete))

theorem erase_addFiles {added : List TrackedFile} (hadded : ∀ f ∈ added, f.state ≠ .obsolete)
    (deleted : List (UInt64 × Nat)) (st : Storage) :
    (added.foldl (fun st f => if deleted.any (·.1 == f.file.fileNumber) then st
      else st.addBlobFile f) st).erase =
      (added.map (·.file)).foldl (fun st f => if deleted.any (·.1 == f.fileNumber) then st
        else st.addBlobFile f) st.erase := by
  induction added generalizing st with
  | nil => rfl
  | cons f added ih =>
    rw [foldl_cons, map_cons, foldl_cons,
      ih fun g hg => hadded g (mem_cons_of_mem f hg)]
    congr 1
    split
    · rfl
    · exact erase_addBlobFile st (hadded f mem_cons_self)

theorem erase_markFiles {c : CFEditCollector} {deleted : List (UInt64 × Nat)} {st : Storage}
    (h : deleted.foldlM c.applyDeleted st.erase = .ok st') :
    (deleted.foldl (fun st d => if c.addedFiles.any (·.fileNumber == d.1) then st
      else (st.markFileObsolete d.1 d.2).getD st) st).erase = st' := by
  induction deleted generalizing st with
  | nil => exact Except.ok.inj h
  | cons d deleted ih =>
    rw [foldlM_cons, CFEditCollector.applyDeleted] at h
    rw [foldl_cons]
    split at h
    · rename_i hany
      rw [if_pos hany]
      exact ih h
    · rename_i hany
      rw [if_neg hany]
      rw [← erase_markFileObsolete] at h
      cases hmark : st.markFileObsolete d.1 d.2 with
      | none => rw [hmark] at h; cases h
      | some st₁ =>
        rw [hmark] at h
        exact ih h

/-- Where the collector applies an edit, this is what it leaves. -/
theorem erase_apply {st : Storage} {e : Edit} (hadded : ∀ f ∈ e.addedFiles, f.state ≠ .obsolete)
    (h : CFEditCollector.apply ⟨e.addedFiles.map (·.file), e.deletedFiles⟩ st.erase = .ok st') :
    (st.apply e).erase = st' := by
  rw [CFEditCollector.apply, CFEditCollector.applyAdded, ← erase_addFiles hadded] at h
  have hmark := erase_markFiles h
  simp only [any_map, comp_def] at hmark
  exact hmark

end Storage

/-! ## All column families -/

structure BlobFiles where
  ids : List UInt32
  storage : UInt32 → Storage

variable (s : BlobFiles)

namespace BlobFiles

def openSet (s : BlobFiles) : OpenSet :=
  { columnFamilies := s.ids.map fun cf => (cf, (s.storage cf).erase) }

def setStorage (s : BlobFiles) (cf : UInt32) (st : Storage) : BlobFiles :=
  { s with storage := update s.storage cf st }

@[simp] theorem setStorage_self (cf : UInt32) (st : Storage) :
    (s.setStorage cf st).storage cf = st := update_self _ _ _

theorem setStorage_of_ne {cf cf' : UInt32} (h : cf' ≠ cf) (st : Storage) :
    (s.setStorage cf st).storage cf' = s.storage cf' := update_of_ne h _ _

/-- A purge leaves only files that were there. -/
theorem purge_files {b : BlobFiles} {cf : UInt32} {oldestSequence : Nat} {cf' : UInt32} {n : UInt64}
    (hf : ((b.setStorage cf ((b.storage cf).getObsoleteFiles oldestSequence)).storage
      cf').files n = some f) : (b.storage cf').files n = some f := by
  by_cases hcf : cf' = cf
  · subst hcf
    rw [BlobFiles.setStorage_self, Storage.getObsoleteFiles] at hf
    dsimp only at hf
    split at hf
    · cases hf
    · exact hf
  · rwa [BlobFiles.setStorage_of_ne _ hcf] at hf

/-- Files stay in one column family: one changes, and a file of it was there or is new. -/
theorem distinct_of_family {b b' : BlobFiles} {used : List UInt64}
    (hdistinct : ∀ cf cf' n, ((b.storage cf).files n).isSome → ((b.storage cf').files n).isSome → cf = cf')
    (hstored : ∀ cf n, ((b.storage cf).files n).isSome → n ∈ used) (cf : UInt32)
    (hother : ∀ cf', cf' ≠ cf → ∀ n, ((b'.storage cf').files n).isSome → ((b.storage cf').files n).isSome)
    (hnew : ∀ n, ((b'.storage cf).files n).isSome → ((b.storage cf).files n).isSome ∨ n ∉ used)
    (cf₁ cf₂ : UInt32) (n : UInt64) (h₁ : ((b'.storage cf₁).files n).isSome)
    (h₂ : ((b'.storage cf₂).files n).isSome) : cf₁ = cf₂ := by
  have hsplit : ∀ cf', cf' ≠ cf → ((b'.storage cf).files n).isSome → ((b'.storage cf').files n).isSome →
      False := by
    intro cf' hcf hhere hthere
    rcases hnew n hhere with hold | hfresh
    · exact hcf (hdistinct cf' cf n (hother cf' hcf n hthere) hold)
    · exact hfresh (hstored cf' n (hother cf' hcf n hthere))
  by_cases hc₁ : cf₁ = cf
  · subst hc₁
    by_contra hne
    exact hsplit cf₂ (Ne.symm hne) h₁ h₂
  · by_cases hc₂ : cf₂ = cf
    · subst hc₂
      exact (hsplit cf₁ hc₁ h₂ h₁).elim
    · exact hdistinct cf₁ cf₂ n (hother cf₁ hc₁ n h₁) (hother cf₂ hc₂ n h₂)

/-- The record that is written is that of `Manifest.Logging`; it is not kept here. -/
def logAndApply (s : BlobFiles) (w : Write) (e : Edit) : Option Status × BlobFiles :=
  match (s.openSet.logAndApply w e.toVersionEdit).1 with
  | some status => (some status, s)
  | none => (none, s.setStorage e.columnFamilyId ((s.storage e.columnFamilyId).apply e))

/-- An edit has the same effect here as on the storages that the manifest describes. -/
theorem openSet_logAndApply (w : Write) {e : Edit}
    (hadded : ∀ f ∈ e.addedFiles, f.state ≠ .obsolete) :
    (s.logAndApply w e).2.openSet.columnFamilies =
      (s.openSet.logAndApply w e.toVersionEdit).2.columnFamilies := by
  rw [logAndApply]
  rcases logAndApply_cases s.openSet w e.toVersionEdit with ⟨status, h⟩ | ⟨hown, hfits, ⟨⟨status, h⟩, -⟩ | h⟩
  · rw [h]
  · rw [h]
    rfl
  · rw [h]
    dsimp only [openSet, setStorage]
    rw [map_map]
    refine map_congr_left fun cf hcf => congrArg (Prod.mk cf) ?_
    have hfit := hfits (cf, (s.storage cf).erase) (mem_map_of_mem hcf)
    rw [gathered_numbered] at hfit
    dsimp only [comp_apply]
    rw [gathered_numbered]
    by_cases heq : e.columnFamilyId = cf
    · subst heq
      rw [update_self]
      refine Storage.erase_apply hadded ?_
      rw [if_pos (show e.toVersionEdit.columnFamilyId = e.columnFamilyId from rfl)] at hfit ⊢
      have honce := hown.addedOnce e.columnFamilyId
      have hdeleted := hown.deletedOnce e.columnFamilyId
      have hg := gathered_numbered s.openSet e.toVersionEdit e.columnFamilyId
      rw [if_pos (show e.toVersionEdit.columnFamilyId = e.columnFamilyId from rfl)] at hg
      have hadds := congrArg CFEditCollector.addedFiles hg
      have hdels := congrArg CFEditCollector.deletedFiles hg
      exact apply_eq hfit (hadds ▸ honce) (hdels ▸ hdeleted)
    · rw [update_of_ne (Ne.symm heq),
        if_neg (show ¬ e.toVersionEdit.columnFamilyId = cf from heq)]
      exact (applied_empty rfl rfl _).symm

/-- File 5 goes and file 7 comes. -/
theorem openSet_logAndApply_replaces :
    ∃ (s : BlobFiles) (e : Edit), (s.logAndApply .ok e).1 = none ∧
      (((s.logAndApply .ok e).2.storage 0).files 5).any (·.isObsolete) ∧
      (((s.logAndApply .ok e).2.storage 0).files 7).isSome ∧
      (s.logAndApply .ok e).2.openSet.columnFamilies =
        (s.openSet.logAndApply .ok e.toVersionEdit).2.columnFamilies := by
  let s : BlobFiles := ⟨[0], fun _ =>
    { files := fun n => if n = 5 then some { file := { fileNumber := 5 }, state := .normal } else none }⟩
  exact ⟨s, { addedFiles := [{ file := { fileNumber := 7 } }], deletedFiles := [(5, 3)] }, rfl, rfl, rfl,
    openSet_logAndApply _ .ok (by simp)⟩

end BlobFiles

end TitanGC.Accounting.Tracking
