import TitanGC.Format.Coding

/-!
# The manifest: version edits and their replay

`EditCollector` gathers the edits of a batch, checks them against the blob
storages of the open column families (`Seal`) and applies them (`Apply`);
`Recover` replays all records of the manifest into empty storages and then drops
what is obsolete. The hash maps of the source are lists here; nothing depends on
their order. The statistics and the key ranges of `BlobStorage` are left out.
-/

namespace TitanGC.Manifest.VersionEdits

open Lib.ByteCoding Function Format.Coding

structure BlobFileMeta where
  fileNumber : UInt64
  fileSize : UInt64 := 0
  fileEntries : UInt64 := 0
  fileLevel : UInt32 := 0
  smallestKey : Bytes := []
  largestKey : Bytes := []
  deriving Repr, DecidableEq

structure VersionEdit where
  nextFileNumber : Option UInt64 := none
  columnFamilyId : UInt32 := 0
  addedFiles : List BlobFileMeta := []
  /-- File numbers with the sequence number at which each became obsolete. -/
  deletedFiles : List (UInt64 × Nat) := []
  deriving Repr, DecidableEq

/-! ## Blob storage -/

structure StoredFile where
  file : BlobFileMeta
  isObsolete : Bool := false
  deriving Repr, DecidableEq

structure BlobStorage where
  files : UInt64 → Option StoredFile := fun _ => none
  obsoleteFiles : List (UInt64 × Nat) := []

namespace BlobStorage

/-- `files_.emplace` keeps an entry that is already there. -/
def addBlobFile (st : BlobStorage) (file : BlobFileMeta) : BlobStorage :=
  { files := update st.files file.fileNumber
      (some ((st.files file.fileNumber).getD ⟨file, false⟩)),
    obsoleteFiles := st.obsoleteFiles }

def markFileObsolete (st : BlobStorage) (number : UInt64) (obsoleteSequence : Nat) :
    Option BlobStorage :=
  match st.files number with
  | none => none
  | some f => some { files := update st.files number (some { f with isObsolete := true })
                     obsoleteFiles := st.obsoleteFiles ++ [(number, obsoleteSequence)] }

/-- Files that became obsolete before the oldest snapshot leave the storage. -/
def getObsoleteFiles (st : BlobStorage) (oldestSequence : Nat) : BlobStorage × List UInt64 :=
  let gone := (st.obsoleteFiles.filter fun f => f.2 < oldestSequence).map (·.1)
  ({ files := fun f => if f ∈ gone then none else st.files f
     obsoleteFiles := st.obsoleteFiles.filter fun f => ¬ f.2 < oldestSequence }, gone)

end BlobStorage

abbrev BlobFileSet := List (UInt32 × BlobStorage)

/-! ## Collecting edits -/

structure CFEditCollector where
  addedFiles : List BlobFileMeta := []
  deletedFiles : List (UInt64 × Nat) := []
  deriving Repr, DecidableEq

namespace CFEditCollector

def addFile (c : CFEditCollector) (file : BlobFileMeta) : Except Status CFEditCollector :=
  if c.addedFiles.any (·.fileNumber == file.fileNumber) then
    .error (corruption ("Blob file " ++ toString file.fileNumber ++ " has been added twice"))
  else .ok { c with addedFiles := c.addedFiles ++ [file] }

def deleteFile (c : CFEditCollector) (f : UInt64 × Nat) : Except Status CFEditCollector :=
  if c.deletedFiles.any (·.1 == f.1) then
    .error (corruption ("Blob file " ++ toString f.1 ++ " has been deleted twice"))
  else .ok { c with deletedFiles := c.deletedFiles ++ [f] }

def checkAdded (st : BlobStorage) (file : BlobFileMeta) : Except Status Unit :=
  match st.files file.fileNumber with
  | none => .ok ()
  | some f =>
    if f.isObsolete then .error
      (corruption ("Blob file " ++ toString file.fileNumber ++ " has been deleted before"))
    else .error (corruption ("Blob file " ++ toString file.fileNumber ++ " has been added before"))

def checkDeleted (c : CFEditCollector) (st : BlobStorage) (f : UInt64 × Nat) : Except Status Unit :=
  if c.addedFiles.any (·.fileNumber == f.1) then .ok ()
  else match st.files f.1 with
    | none => .error (corruption ("Blob file " ++ toString f.1 ++ " doesn't exist before"))
    | some g =>
      if g.isObsolete then .error (corruption ("Blob file " ++ toString f.1 ++ " has been deleted already"))
      else .ok ()

def check (c : CFEditCollector) (st : BlobStorage) : Except Status Unit := do
  c.addedFiles.forM (checkAdded st)
  c.deletedFiles.forM (c.checkDeleted st)

/-- A file that the batch adds and deletes is skipped. -/
def applyAdded (c : CFEditCollector) (st : BlobStorage) : BlobStorage :=
  c.addedFiles.foldl (fun st file =>
    if c.deletedFiles.any (·.1 == file.fileNumber) then st else st.addBlobFile file) st

def applyDeleted (c : CFEditCollector) (st : BlobStorage) (f : UInt64 × Nat) :
    Except Status BlobStorage :=
  if c.addedFiles.any (·.fileNumber == f.1) then .ok st
  else match st.markFileObsolete f.1 f.2 with
    | none => .error ⟨.notFound, "Invalid file number " ++ toString f.1⟩
    | some st => .ok st

def apply (c : CFEditCollector) (st : BlobStorage) : Except Status BlobStorage :=
  c.deletedFiles.foldlM c.applyDeleted (c.applyAdded st)

end CFEditCollector

structure EditCollector where
  columnFamilies : UInt32 → CFEditCollector := fun _ => {}
  isSealed : Bool := false
  nextFileNumber : Option UInt64 := none

namespace EditCollector

def addNextFileNumber (current : Option UInt64) : Option UInt64 → Except Status (Option UInt64)
  | none => .ok current
  | some next =>
    if next < current.getD 0 then
      .error (corruption ("Edit has a smaller next file number " ++ toString next ++
        " than current " ++ toString (current.getD 0)))
    else .ok (some next)

def addEdit (c : EditCollector) (edit : VersionEdit) : Except Status EditCollector := do
  if c.isSealed then
    throw ⟨.incomplete, "Should be not called after Sealed() is called"⟩
  let cf ← edit.addedFiles.foldlM CFEditCollector.addFile (c.columnFamilies edit.columnFamilyId)
  let cf ← edit.deletedFiles.foldlM CFEditCollector.deleteFile cf
  let next ← addNextFileNumber c.nextFileNumber edit.nextFileNumber
  pure { c with columnFamilies := update c.columnFamilies edit.columnFamilyId cf
                nextFileNumber := next }

/-- `Seal`: column families that are not open are skipped. -/
def checkEdits (c : EditCollector) (set : BlobFileSet) : Except Status EditCollector := do
  set.forM fun s => (c.columnFamilies s.1).check s.2
  pure { c with isSealed := true }

def apply (c : EditCollector) (set : BlobFileSet) : Except Status BlobFileSet :=
  if c.isSealed then
    set.mapM fun s => do pure (s.1, ← (c.columnFamilies s.1).apply s.2)
  else .error ⟨.incomplete, "Should be not called until Sealed() is called"⟩

def getNextFileNumber (c : EditCollector) : Except Status UInt64 :=
  match c.nextFileNumber with
  | some n => .ok n
  | none => .error (corruption "No next file number in manifest file")

end EditCollector

/-! ## Recovery -/

/-- `BlobFileSet::Recover` from the decoded records: the recovered storages, with
obsolete files gone, and the next file number. -/
def recover (columnFamilies : List UInt32) (records : List VersionEdit) :
    Except Status (BlobFileSet × UInt64) := do
  let collector ← records.foldlM EditCollector.addEdit {}
  let set := columnFamilies.map fun cf => (cf, {})
  let collector ← collector.checkEdits set
  let set ← collector.apply set
  let next ← collector.getNextFileNumber
  pure (set.map fun s => (s.1, (s.2.getObsoleteFiles kMaxSequenceNumber).1), next)

end TitanGC.Manifest.VersionEdits
