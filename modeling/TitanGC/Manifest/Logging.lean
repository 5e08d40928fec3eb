import TitanGC.Manifest.EditCodec
import TitanGC.Manifest.Families

/-!
# The set of blob files while the database is open

`BlobFileSet` after `Open`: the storages of the open column families, the next
file number, and the records of the current manifest. `LogAndApply` checks an
edit against the storages, appends it to the manifest and then applies it; the
append or the sync after it may fail, and a record that failed may be durable
nevertheless. The order in which a hash map is iterated is a parameter.
-/

namespace TitanGC.Manifest.Logging

open Lib.ByteCoding Format.Coding
open List hiding set
open VersionEdits

/-- `files_` as the loops over it see it: every entry once. -/
def Iterates (st : BlobStorage) (entries : List (UInt64 × StoredFile)) : Prop :=
  (entries.map (·.1)).Nodup ∧ ∀ n f, (n, f) ∈ entries ↔ st.files n = some f

/-- One order to iterate in: by file number. -/
def byNumber (st : BlobStorage) : List (UInt64 × StoredFile) :=
  ((List.range (2 ^ 64)).map UInt64.ofNat).filterMap fun n => (st.files n).map (n, ·)

theorem iterates_byNumber (st : BlobStorage) : Iterates st (byNumber st) := by
  have hnumbers : ((List.range (2 ^ 64)).map UInt64.ofNat).Nodup := by
    refine List.Nodup.map_on (fun a ha b hb h => ?_) nodup_range
    rw [← UInt64.toNat_ofNat_of_lt' (mem_range.mp ha), h,
      UInt64.toNat_ofNat_of_lt' (mem_range.mp hb)]
  refine ⟨?_, fun n f => ?_⟩
  · rw [byNumber, map_filterMap]
    refine hnumbers.filterMap fun a b n ha hb => ?_
    simp only [Option.map_map, Function.comp_def, Option.mem_def, Option.map_eq_some_iff] at ha hb
    obtain ⟨-, -, rfl⟩ := ha
    obtain ⟨-, -, rfl⟩ := hb
    rfl
  · simp only [byNumber, mem_filterMap, mem_map, mem_range, Option.map_eq_some_iff,
      Prod.mk.injEq]
    constructor
    · intro ⟨_, _, _, hg, hk, hgf⟩
      exact hk ▸ hgf ▸ hg
    · intro h
      exact ⟨n, ⟨n.toNat, n.toNat_lt, UInt64.ofNat_toNat⟩, f, h, rfl, rfl⟩

theorem byNumber_empty : byNumber {} = [] := by simp [byNumber]

structure OpenSet where
  columnFamilies : BlobFileSet := []
  /-- The column families whose storage is marked `destroyed_`. -/
  destroyed : List UInt32 := []
  obsoleteColumns : List UInt32 := []
  nextFileNumber : UInt64 := 1
  manifest : List Bytes := []

/-- How the append and the sync of a manifest record end. A failed one has its
status, and the record may or may not survive a restart. -/
inductive Write where
  | ok
  | failed (status : Status) (durable : Bool)
  deriving Repr, DecidableEq

namespace OpenSet

def newFileNumber (s : OpenSet) : UInt64 × OpenSet :=
  (s.nextFileNumber, { s with nextFileNumber := s.nextFileNumber + 1 })

/-- `emplace` keeps a column family that is there. -/
def addFamily (set : BlobFileSet) (id : UInt32) : BlobFileSet :=
  if set.any (·.1 == id) then set else set ++ [(id, ({} : BlobStorage))]

def addColumnFamilies (s : OpenSet) (ids : List UInt32) : OpenSet :=
  { s with columnFamilies := ids.foldl addFamily s.columnFamilies }

def addRecord (s : OpenSet) (edit : VersionEdit) : OpenSet :=
  { s with manifest := s.manifest ++ [edit.encodeTo] }

/-- The checks of `LogAndApply`, made before anything is written. -/
def checked (s : OpenSet) (edit : VersionEdit) : Except Status EditCollector := do
  let collector ← ({} : EditCollector).addEdit edit
  collector.checkEdits s.columnFamilies

def logAndApply (s : OpenSet) (w : Write) (edit : VersionEdit) : Option Status × OpenSet :=
  let edit := { edit with nextFileNumber := some s.nextFileNumber }
  match s.checked edit with
  | .error status => (some status, s)
  | .ok collector =>
    match w with
    | .failed status durable => (some status, if durable then s.addRecord edit else s)
    | .ok =>
      match collector.apply s.columnFamilies with
      | .error status => (some status, s.addRecord edit)
      | .ok set => (none, { s.addRecord edit with columnFamilies := set })

/-- The edit of `DropColumnFamilies`: every file that is not obsolete yet. -/
def dropEdit (cf : UInt32) (obsoleteSequence : Nat) (entries : List (UInt64 × StoredFile)) : VersionEdit :=
  { columnFamilyId := cf
    deletedFiles := (entries.filter fun f => !f.2.isObsolete).map fun f => (f.1, obsoleteSequence) }

/-- One turn of the loop of `DropColumnFamilies`. -/
def dropColumnFamily (s : OpenSet) (iterate : BlobStorage → List (UInt64 × StoredFile)) (w : Write)
    (cf : UInt32) (obsoleteSequence : Nat) : Option Status × OpenSet :=
  match s.columnFamilies.find? (·.1 == cf) with
  | none => (some ⟨.notFound, "invalid column family"⟩, s)
  | some (_, st) =>
    match s.logAndApply w (dropEdit cf obsoleteSequence (iterate st)) with
    | (some status, s) => (some status, s)
    | (none, s) => (none, { s with obsoleteColumns := cf :: s.obsoleteColumns })

def erase (s : OpenSet) (cf : UInt32) : OpenSet :=
  { s with columnFamilies := s.columnFamilies.filter (·.1 != cf)
           destroyed := s.destroyed.filter (· != cf) }

def maybeDestroyColumnFamily (s : OpenSet) (cf : UInt32) : Option Status × OpenSet :=
  let s := { s with obsoleteColumns := s.obsoleteColumns.filter (· != cf) }
  match s.columnFamilies.find? (·.1 == cf) with
  | none => (some ⟨.notFound, "invalid column family"⟩, s)
  | some (_, st) =>
    let s := { s with destroyed := cf :: s.destroyed }
    (none, if st.obsoleteFiles.isEmpty then s.erase cf else s)

/-- Files of a dropped column family stay until its handle is destroyed; a
destroyed column family goes when its last file has gone. -/
def purgeFamily (s : OpenSet) (oldestSequence : Nat) (f : UInt32 × BlobStorage) :
    Option (UInt32 × BlobStorage) :=
  if f.1 ∈ s.obsoleteColumns then some f
  else
    let st := (f.2.getObsoleteFiles oldestSequence).1
    if f.1 ∈ s.destroyed ∧ st.obsoleteFiles = [] then none else some (f.1, st)

def getObsoleteFiles (s : OpenSet) (oldestSequence : Nat) : List UInt64 × OpenSet :=
  let set := s.columnFamilies.filterMap (s.purgeFamily oldestSequence)
  ((s.columnFamilies.filter (·.1 ∉ s.obsoleteColumns)).flatMap fun f =>
      (f.2.getObsoleteFiles oldestSequence).2,
   { s with columnFamilies := set
            destroyed := s.destroyed.filter fun cf => set.any (·.1 == cf) })

/-- The record of one column family in a snapshot; obsolete files are skipped. -/
def familyRecord (cf : UInt32) (entries : List (UInt64 × StoredFile)) : VersionEdit :=
  { columnFamilyId := cf
    addedFiles := (entries.filter fun f => !f.2.isObsolete).map (·.2.file) }

def writeSnapshot (s : OpenSet) (iterate : BlobStorage → List (UInt64 × StoredFile)) : List VersionEdit :=
  { nextFileNumber := some s.nextFileNumber } ::
    s.columnFamilies.map fun f => familyRecord f.1 (iterate f.2)

/-- `OpenManifest(NewFileNumber())` when every write of it succeeds. -/
def openManifest (s : OpenSet) (iterate : BlobStorage → List (UInt64 × StoredFile)) : OpenSet :=
  let s := s.newFileNumber.2
  { s with manifest := (s.writeSnapshot iterate).map (·.encodeTo) }

end OpenSet

end TitanGC.Manifest.Logging
