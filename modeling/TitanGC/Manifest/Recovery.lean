import TitanGC.Manifest.Logging

/-!
# Opening a database

`BlobFileSet::Open` and `Recover`: the records of the current manifest are read
and collected, the storages of the given column families are built from them, a
new manifest is written, and every blob file and manifest of the directory that
is not alive is deleted. The log reader reports corruptions into the status
variable that the read loop tests, and that `Seal` overwrites after the loop.
-/

namespace TitanGC.Manifest.Recovery

open Lib.ByteCoding Format.Coding
open List hiding set
open VersionEdits Families Logging

/-! ## The environment -/

/-- A call of `ReadRecord` that returns a record, with what it reported before. -/
structure LogRead where
  reports : List Status := []
  record : Bytes

inductive FileType where
  | blobFile | descriptorFile | other
  deriving Repr, DecidableEq

/-- A name in the directory, and what `ParseFileName` says of it. -/
structure DirFile where
  name : String
  parsed : Option (UInt64 × FileType)
  deriving Repr, DecidableEq

/-- The file system as `Open` finds it: what each call returns, in order. -/
structure Env where
  /-- `FileExists` of `CURRENT`. -/
  fileExists : Option Status := none
  /-- `ReadFileToString` of `CURRENT`. -/
  current : Except Status Bytes
  newSequentialFile : Option Status := none
  reads : List LogRead
  /-- Reports of the call of `ReadRecord` that finds the end of the file. -/
  atEnd : List Status := []
  newWritableFile : Option Status := none
  writeSnapshot : Option Status := none
  sync : Option Status := none
  setCurrentFile : Option Status := none
  iterate : BlobStorage → List (UInt64 × StoredFile)
  children : List DirFile

structure Outcome where
  status : Option Status
  /-- Names that were deleted from the directory. -/
  deleted : List DirFile := []
  /-- Records of the manifest that became current. -/
  manifest : Option (List VersionEdit) := none

/-! ## The functions -/

/-- `LogReporter::Corruption` keeps the first report. -/
def corruptions (s : Option Status) (reports : List Status) : Option Status :=
  reports.foldl (fun s r => s.or (some r)) s

def collect (collector : EditCollector) (record : Bytes) : Except Status EditCollector := do
  let edit ← VersionEdit.decodeFrom record
  collector.addEdit edit

/-- The read loop: the collector, and the status variable after the loop. -/
def readEdits (atEnd : List Status) :
    List LogRead → EditCollector → Option Status → Except Status (EditCollector × Option Status)
  | [], collector, s => .ok (collector, corruptions s atEnd)
  | read :: reads, collector, s =>
    match corruptions s read.reports with
    -- `ReadRecord` returned a record, but the status is no longer OK
    | some s => .ok (collector, some s)
    | none => do
      let collector ← collect collector read.record
      readEdits atEnd reads collector none

def failWith {α : Type} (s : Option Status) (next : Except Status α) : Except Status α :=
  match s with
  | some s => .error s
  | none => next

def openManifest (env : Env) (set : OpenSet) : Except Status (List VersionEdit) :=
  failWith env.newWritableFile <| failWith env.writeSnapshot <| failWith env.sync <|
    failWith env.setCurrentFile <| .ok (set.writeSnapshot env.iterate)

def build (ids : List UInt32) (collector : EditCollector) : Except Status (BlobFileSet × UInt64) := do
  let set : BlobFileSet := ids.map fun cf => (cf, {})
  let collector ← collector.checkEdits set
  let set ← collector.apply set
  let next ← collector.getNextFileNumber
  pure (set, next)

/-- The storages and the next file number that the manifest gives. -/
def replayManifest (env : Env) (ids : List UInt32) : Except Status (BlobFileSet × UInt64) := do
  let manifest ← env.current
  if manifest.getLast? ≠ some 10 then
    throw (corruption "CURRENT file does not end with newline")
  failWith env.newSequentialFile (.ok ())
  -- what the reporter left in the status is lost: `s = collector.Seal(*this)`
  let (collector, _) ← readEdits env.atEnd env.reads {} none
  build ids collector

/-- The loop over the directory that deletes what is not alive. -/
def purge (env : Env) (set : BlobFileSet) (manifestNumber : UInt64) : List DirFile :=
  env.children.filter fun f =>
    match f.parsed with
    | none => false
    | some (n, type) =>
      !(n == manifestNumber || set.any fun s => (s.2.files n).isSome) &&
        (type == .blobFile || type == .descriptorFile)

def recoverSet (env : Env) (ids : List UInt32) : Outcome :=
  match replayManifest env ids with
  | .error s => { status := some s }
  | .ok (set, next) =>
    let (manifestNumber, opened) :=
      ({ columnFamilies := set, nextFileNumber := next } : OpenSet).newFileNumber
    match openManifest env opened with
    | .error s => { status := some s }
    | .ok records =>
      let alive : BlobFileSet := set.map fun s => (s.1, (s.2.getObsoleteFiles kMaxSequenceNumber).1)
      { status := none, deleted := purge env alive manifestNumber, manifest := some records }

def openSet (env : Env) (ids : List UInt32) : Outcome :=
  match env.fileExists with
  | none => recoverSet env ids
  | some s =>
    if s.code ≠ .notFound then { status := some s }
    else
      match openManifest env (({} : OpenSet).addColumnFamilies ids).newFileNumber.2 with
      | .error s => { status := some s }
      | .ok records => { status := none, manifest := some records }

/-! ## Reading the manifest -/

/-- The records that are read before the first report. -/
def recordsBefore (env : Env) : List Bytes :=
  (env.reads.takeWhile (·.reports.isEmpty)).map (·.record)

theorem corruptions_none (reports : List Status) :
    corruptions none reports = none ↔ reports = [] := by
  have hsome : ∀ (reports : List Status) (s : Status), corruptions (some s) reports = some s := by
    intro reports
    induction reports with
    | nil => exact fun _ => rfl
    | cons r reports ih => exact fun s => ih s
  cases reports with
  | nil => exact ⟨fun _ => rfl, fun _ => rfl⟩
  | cons r reports =>
    have h : corruptions none (r :: reports) = some r := hsome reports r
    rw [h]
    exact ⟨nofun, nofun⟩

/-- The loop collects the records before the first report, and no others. -/
theorem readEdits_eq (atEnd : List Status) (reads : List LogRead) (c : EditCollector) :
    (readEdits atEnd reads c none).map (·.1) =
      ((reads.takeWhile (·.reports.isEmpty)).map (·.record)).foldlM collect c := by
  induction reads generalizing c with
  | nil => rfl
  | cons read reads ih =>
    rw [readEdits]
    cases hreports : read.reports with
    | cons r rs =>
      obtain ⟨s, hs⟩ := Option.ne_none_iff_exists'.mp
        (mt (corruptions_none (r :: rs)).mp (cons_ne_nil r rs))
      rw [hs, takeWhile_cons_of_neg (by simp [hreports])]
      rfl
    | nil =>
      rw [takeWhile_cons_of_pos (by simp [hreports]), map_cons, foldlM_cons]
      change Except.map _ (collect c read.record >>= _) = _
      cases collect c read.record with
      | error s => rfl
      | ok c' => exact ih c'

variable {log : List VersionEdit}

theorem foldlM_decoded {records : List Bytes} (h : records.mapM VersionEdit.decodeFrom = .ok log)
    (c : EditCollector) : records.foldlM collect c = log.foldlM EditCollector.addEdit c := by
  induction records generalizing log c with
  | nil =>
    cases h
    rfl
  | cons record records ih =>
    rw [mapM_cons] at h
    obtain ⟨edit, hrecord, h⟩ := bind_ok.mp h
    obtain ⟨rest, hrest, h⟩ := bind_ok.mp h
    cases h
    rw [foldlM_cons, foldlM_cons, collect, hrecord, ok_bind]
    cases c.addEdit edit with
    | error s => rfl
    | ok c' => exact ih hrest c'

theorem decoded_of_foldlM {records : List Bytes} {c c' : EditCollector}
    (h : records.foldlM collect c = .ok c') :
    ∃ log, records.mapM VersionEdit.decodeFrom = .ok log := by
  induction records generalizing c with
  | nil => exact ⟨[], rfl⟩
  | cons record records ih =>
    rw [foldlM_cons] at h
    obtain ⟨c'', hcollect, h⟩ := bind_ok.mp h
    obtain ⟨edit, hrecord, -⟩ := bind_ok.mp hcollect
    obtain ⟨log, hlog⟩ := ih h
    refine ⟨edit :: log, ?_⟩
    rw [mapM_cons, hrecord, ok_bind, hlog]
    rfl

/-- `recover` is the same up to the purge of its last line. -/
theorem recover_eq_build (ids : List UInt32) (log : List VersionEdit) :
    recover ids log = (log.foldlM EditCollector.addEdit {} >>= build ids).map fun r =>
      (r.1.map fun s => (s.1, (s.2.getObsoleteFiles kMaxSequenceNumber).1), r.2) := by
  rw [recover]
  cases log.foldlM EditCollector.addEdit {} with
  | error s => rfl
  | ok c =>
    rw [ok_bind, ok_bind, build]
    dsimp only
    cases c.checkEdits (ids.map fun cf => (cf, {})) with
    | error s => rfl
    | ok c' =>
      rw [ok_bind, ok_bind]
      cases c'.apply (ids.map fun cf => (cf, {})) with
      | error s => rfl
      | ok set =>
        rw [ok_bind, ok_bind]
        cases c'.getNextFileNumber with
        | error s => rfl
        | ok next => rfl

variable {ids : List UInt32}

/-- A replayable log is collected, checked and applied. -/
theorem build_ok (h : Replayable ids log) :
    ∃ next, lastNext log = some next ∧ log.foldlM EditCollector.addEdit {} >>= build ids
      = .ok (ids.map fun cf => (cf, replayed log cf), next) := by
  obtain ⟨c, hrun, hc⟩ := addEdits_ok h.toConsistent
  obtain ⟨next, hnext⟩ := Option.isSome_iff_exists.mp h.hasNext
  refine ⟨next, hnext, ?_⟩
  have hnum : EditCollector.getNextFileNumber { c with isSealed := true } = .ok next := by
    simp [EditCollector.getNextFileNumber, hc.next, hnext]
  rw [hrun, ok_bind, build, checkEdits_ok hc h.paired, ok_bind, apply_ok hc h.paired, ok_bind, hnum]
  rfl

/-- A log that gives storages is replayable. -/
theorem replayable_of_build {r : BlobFileSet × UInt64}
    (h : log.foldlM EditCollector.addEdit {} >>= build ids = .ok r) : Replayable ids log := by
  by_contra hnot
  obtain ⟨s, hs, -⟩ := recover_error hnot
  rw [recover_eq_build, h] at hs
  cases hs

structure Reading (env : Env) : Prop where
  current : ∃ name, env.current = .ok name ∧ name.getLast? = some 10
  opened : env.newSequentialFile = none

section

variable {env : Env} {ids : List UInt32} (hreading : Reading env)
include hreading

theorem replayManifest_eq :
    replayManifest env ids = (recordsBefore env).foldlM collect {} >>= build ids := by
  obtain ⟨name, hname, hnewline⟩ := hreading.current
  rw [recordsBefore, ← readEdits_eq env.atEnd, replayManifest, hname, ok_bind, hreading.opened]
  simp only [hnewline, ne_eq, not_true_eq_false, ↓reduceIte]
  cases readEdits env.atEnd env.reads {} none with
  | error s => rfl
  | ok r => rfl

theorem replayManifest_ok (hlog : (recordsBefore env).mapM VersionEdit.decodeFrom = .ok log)
    (h : Replayable ids log) :
    ∃ next, replayManifest env ids = .ok (ids.map fun cf => (cf, replayed log cf), next) := by
  obtain ⟨next, -, hbuild⟩ := build_ok h
  exact ⟨next, by rw [replayManifest_eq hreading, foldlM_decoded hlog, hbuild]⟩

theorem replayManifest_error (hlog : (recordsBefore env).mapM VersionEdit.decodeFrom = .ok log)
    (h : ¬ Replayable ids log) : Corrupt (replayManifest env ids) := by
  obtain ⟨s, hs, hcode⟩ := recover_error h
  rw [recover_eq_build] at hs
  rw [replayManifest_eq hreading, foldlM_decoded hlog]
  cases hbuild : log.foldlM EditCollector.addEdit {} >>= build ids with
  | error e =>
    rw [hbuild] at hs
    cases hs
    exact ⟨_, rfl, hcode⟩
  | ok r =>
    rw [hbuild] at hs
    cases hs

theorem replayManifest_undecoded
    (h : ∀ log, (recordsBefore env).mapM VersionEdit.decodeFrom ≠ .ok log) :
    ∃ s, replayManifest env ids = .error s := by
  rw [replayManifest_eq hreading]
  cases hfold : (recordsBefore env).foldlM collect {} with
  | error s => exact ⟨s, rfl⟩
  | ok c =>
    obtain ⟨log, hlog⟩ := decoded_of_foldlM hfold
    exact absurd hlog (h log)

end

/-! ## Reported corruptions -/

def Env.Writes (env : Env) : Prop :=
  env.newWritableFile = none ∧ env.writeSnapshot = none ∧ env.sync = none ∧ env.setCurrentFile = none

variable {env : Env}

theorem openManifest_ok (h : env.Writes) (set : OpenSet) :
    openManifest env set = .ok (set.writeSnapshot env.iterate) := by
  obtain ⟨h₁, h₂, h₃, h₄⟩ := h
  simp only [openManifest, failWith, h₁, h₂, h₃, h₄]

theorem openManifest_error (h : ¬ env.Writes) (set : OpenSet) :
    ∃ s, openManifest env set = .error s ∧ (env.newWritableFile = some s ∨
      env.writeSnapshot = some s ∨ env.sync = some s ∨ env.setCurrentFile = some s) := by
  cases h₁ : env.newWritableFile with
  | some s => exact ⟨s, by simp only [openManifest, failWith, h₁], .inl rfl⟩
  | none =>
    cases h₂ : env.writeSnapshot with
    | some s => exact ⟨s, by simp only [openManifest, failWith, h₁, h₂], .inr (.inl rfl)⟩
    | none =>
      cases h₃ : env.sync with
      | some s =>
        exact ⟨s, by simp only [openManifest, failWith, h₁, h₂, h₃], .inr (.inr (.inl rfl))⟩
      | none =>
        cases h₄ : env.setCurrentFile with
        | some s =>
          exact ⟨s, by simp only [openManifest, failWith, h₁, h₂, h₃, h₄],
            .inr (.inr (.inr rfl))⟩
        | none => exact absurd ⟨h₁, h₂, h₃, h₄⟩ h

section

variable {env : Env} {ids : List UInt32} (hreading : Reading env)

theorem recoverSet_of_error {s : Status} (h : replayManifest env ids = .error s) :
    recoverSet env ids = { status := some s } := by
  rw [recoverSet, h]

include hreading in
/-- Recovery that reads a replayable log ends well, or fails to write its manifest. -/
theorem recoverSet_of_replayable (hlog : (recordsBefore env).mapM VersionEdit.decodeFrom = .ok log)
    (h : Replayable ids log) :
    (¬ env.Writes ∧ ∃ s, recoverSet env ids = { status := some s } ∧ (env.newWritableFile = some s ∨
      env.writeSnapshot = some s ∨ env.sync = some s ∨ env.setCurrentFile = some s)) ∨
    env.Writes ∧ ∃ next : UInt64, recoverSet env ids =
      { status := none
        deleted := purge env (ids.map fun cf => (cf, replayed log cf)) next
        manifest := some (OpenSet.writeSnapshot
          { columnFamilies := ids.map fun cf => (cf, replayed log cf), nextFileNumber := next + 1 }
          env.iterate) } := by
  obtain ⟨next, hreplay⟩ := replayManifest_ok hreading hlog h
  rw [recoverSet, hreplay]
  dsimp only [OpenSet.newFileNumber]
  by_cases hwrites : env.Writes
  · refine .inr ⟨hwrites, next, ?_⟩
    rw [openManifest_ok hwrites]
    simp only [map_map, Function.comp_def, replayed, getObsoleteFiles_applyAdded]
  · obtain ⟨s, hs, hcause⟩ := openManifest_error hwrites
      { columnFamilies := ids.map fun cf => (cf, replayed log cf), nextFileNumber := next + 1 }
    refine .inl ⟨hwrites, s, ?_, hcause⟩
    rw [hs]

end

def Reports (env : Env) : Prop := (∃ read ∈ env.reads, read.reports ≠ []) ∨ env.atEnd ≠ []

/-- A reported corruption makes recovery fail, and delete nothing, exactly when the
records before the report do not make a manifest of their own or the new manifest
cannot be written. -/
theorem reported_corruption_fails_iff {env : Env} (ids : List UInt32) (hreading : Reading env) :
    (Reports env → (recoverSet env ids).status.isSome ∧ (recoverSet env ids).deleted = []) ↔
      (Reports env → ¬ env.Writes ∨ ∀ log, (recordsBefore env).mapM VersionEdit.decodeFrom = .ok log →
        ¬ Replayable ids log) := by
  refine imp_congr_right fun _ => ⟨fun ⟨hstatus, _⟩ => ?_, fun hcond => ?_⟩
  · by_contra hnot
    push Not at hnot
    obtain ⟨hwrites, log, hlog, hreplay⟩ := hnot
    rcases recoverSet_of_replayable hreading hlog hreplay with ⟨hfails, -⟩ | ⟨-, next, heq⟩
    · exact hfails hwrites
    · rw [heq] at hstatus
      cases hstatus
  · have herror : ∀ s, recoverSet env ids = { status := some s } →
        (recoverSet env ids).status.isSome ∧ (recoverSet env ids).deleted = [] := by
      intro s heq
      rw [heq]
      exact ⟨rfl, rfl⟩
    by_cases hdecodes : ∃ log, (recordsBefore env).mapM VersionEdit.decodeFrom = .ok log
    · obtain ⟨log, hlog⟩ := hdecodes
      by_cases hreplay : Replayable ids log
      · rcases recoverSet_of_replayable hreading hlog hreplay with ⟨-, s, heq, -⟩ | ⟨hwrites, -⟩
        · exact herror s heq
        · exact (hcond.resolve_left (not_not_intro hwrites) log hlog hreplay).elim
      · obtain ⟨s, hs, -⟩ := replayManifest_error hreading hlog hreplay
        exact herror s (recoverSet_of_error hs)
    · obtain ⟨s, hs⟩ := replayManifest_undecoded hreading fun log hlog => hdecodes ⟨log, hlog⟩
      exact herror s (recoverSet_of_error hs)

/-- `CURRENT` holds `MANIFEST-000001` and a newline. -/
def currentFile : Bytes :=
  [77, 65, 78, 73, 70, 69, 83, 84, 45, 48, 48, 48, 48, 48, 49, 10]

def blob (n : UInt64) (name : String) : DirFile := ⟨name, some (n, .blobFile)⟩

/-- A manifest that adds file 2; then the reader drops the rest of a block, with the
record that adds file 3, and finds the end. -/
def truncated : Env where
  current := .ok currentFile
  reads := [{ record := ({ nextFileNumber := some 4 } : VersionEdit).encodeTo },
    { record := ({ addedFiles := [{ fileNumber := 2 }] } : VersionEdit).encodeTo }]
  atEnd := [corruption "checksum mismatch"]
  iterate := byNumber
  children := [blob 2 "000002.blob", blob 3 "000003.blob"]

theorem truncated_reading : Reading truncated := ⟨⟨currentFile, rfl, by decide⟩, rfl⟩

/-- Recovery returns OK and deletes the blob file that the lost record adds. -/
theorem reported_corruption_accepted :
    Reading truncated ∧ Reports truncated ∧ (recoverSet truncated [0]).status = none ∧
      (recoverSet truncated [0]).deleted = [blob 3 "000003.blob"] :=
  ⟨truncated_reading, .inr (cons_ne_nil _ _), rfl, rfl⟩

/-- The same manifest with nothing before the report. -/
theorem reported_corruption_fails_no_records :
    (recoverSet { truncated with reads := [] } [0]).status.isSome ∧
      (recoverSet { truncated with reads := [] } [0]).deleted = [] :=
  (reported_corruption_fails_iff [0]
    (⟨⟨currentFile, rfl, by decide⟩, rfl⟩ : Reading { truncated with reads := [] })).mpr
    (fun _ => .inr fun log hlog h => by
      cases hlog
      exact absurd h.hasNext (by decide)) (.inr (cons_ne_nil _ _))

/-! ## Column families that are not opened -/

/-- A live blob file of a column family that is not opened. -/
def Foreign (ids : List UInt32) (log : List VersionEdit) (cf : UInt32) (f : BlobFileMeta) : Prop :=
  cf ∉ ids ∧ f ∈ addedTo cf log ∧ f.fileNumber ∉ (deletedFrom cf log).map (·.1)

/-- `Open` reports corruption, and keeps the file on disk and in the manifest. -/
def Protected (env : Env) (ids : List UInt32) (cf : UInt32) (f : BlobFileMeta) : Prop :=
  (∃ s, (openSet env ids).status = some s ∧ s.code = .corruption) ∧
  (∀ d ∈ (openSet env ids).deleted, d.parsed ≠ some (f.fileNumber, .blobFile)) ∧
  ∀ records, (openSet env ids).manifest = some records → f ∈ addedTo cf records

/-- Live files of column families that are not opened are protected exactly when
the manifest cannot be replayed for another reason. -/
theorem foreign_files_protected_iff {env : Env} {ids : List UInt32} {log : List VersionEdit}
    (hexists : env.fileExists = none) (hreading : Reading env)
    (hlog : (recordsBefore env).mapM VersionEdit.decodeFrom = .ok log)
    (hio : ∀ s, env.newWritableFile = some s ∨ env.writeSnapshot = some s ∨ env.sync = some s ∨
      env.setCurrentFile = some s → s.code ≠ .corruption) :
    (∀ cf f, Foreign ids log cf f → Protected env ids cf f) ↔
      ((∃ cf f, Foreign ids log cf f) → ¬ Replayable ids log) := by
  have hopen : openSet env ids = recoverSet env ids := by
    rw [openSet, hexists]
  constructor
  · rintro hprotected ⟨cf, f, hforeign⟩ hreplay
    obtain ⟨⟨s, hs, hcode⟩, -⟩ := hprotected cf f hforeign
    rw [hopen] at hs
    rcases recoverSet_of_replayable hreading hlog hreplay with ⟨-, s', heq, hcause⟩ | ⟨-, next, heq⟩
    · rw [heq] at hs
      cases hs
      exact hio _ hcause hcode
    · rw [heq] at hs
      cases hs
  · intro hcond cf f hforeign
    obtain ⟨s, hs, hcode⟩ := replayManifest_error hreading hlog (hcond ⟨cf, f, hforeign⟩)
    rw [Protected, hopen, recoverSet_of_error hs]
    exact ⟨⟨s, rfl, hcode⟩, (fun d hd => by cases hd), fun records hr => by cases hr⟩

/-- A manifest with a live file of column family 9. -/
def twoFamilies : Env where
  current := .ok currentFile
  reads := [{ record := ({ nextFileNumber := some 4 } : VersionEdit).encodeTo },
    { record := ({ columnFamilyId := 9, addedFiles := [{ fileNumber := 3 }] } : VersionEdit).encodeTo }]
  iterate := byNumber
  children := [blob 3 "000003.blob"]

def twoFamiliesLog : List VersionEdit :=
  [{ nextFileNumber := some 4 }, { columnFamilyId := 9, addedFiles := [{ fileNumber := 3 }] }]

/-- Opened with column family 0 only: `Open` returns OK, the blob file is deleted
and the new manifest does not have it. -/
theorem foreign_file_deleted :
    Foreign [0] twoFamiliesLog 9 { fileNumber := 3 } ∧
    (openSet twoFamilies [0]).status = none ∧
    (openSet twoFamilies [0]).deleted = [blob 3 "000003.blob"] ∧
    ∃ records, (openSet twoFamilies [0]).manifest = some records ∧ addedTo 9 records = [] :=
  ⟨⟨by decide, by decide, by decide⟩, rfl, rfl, _, rfl, rfl⟩

/-- The same manifest without its first record has no next file number. -/
def unnumbered : Env := { twoFamilies with reads := twoFamilies.reads.tail }

theorem foreign_files_protected_unnumbered :
    Foreign [0] twoFamiliesLog.tail 9 { fileNumber := 3 } ∧
      Protected unnumbered [0] 9 { fileNumber := 3 } := by
  have hforeign : Foreign [0] twoFamiliesLog.tail 9 { fileNumber := 3 } :=
    ⟨by decide, by decide, by decide⟩
  have hreplay : ¬ Replayable [0] twoFamiliesLog.tail := fun h => absurd h.hasNext (by decide)
  exact ⟨hforeign, (foreign_files_protected_iff rfl ⟨⟨currentFile, rfl, by decide⟩, rfl⟩ rfl
    (by rintro s (h | h | h | h) <;> cases h)).mpr (fun _ => hreplay) 9 _ hforeign⟩

/-! ## What is left in the directory -/

def Live (set : BlobFileSet) (n : UInt64) : Prop := ∃ s ∈ set, (s.2.files n).isSome

/-- Of the blob files that were there, those of the storages are left; of the manifests,
the one with the given number. -/
structure Exact (env : Env) (set : BlobFileSet) (manifestNumber : UInt64) (o : Outcome) : Prop where
  blobs : ∀ f ∈ env.children, ∀ n, f.parsed = some (n, .blobFile) → (f ∉ o.deleted ↔ Live set n)
  manifests : ∀ f ∈ env.children, ∀ n, f.parsed = some (n, .descriptorFile) →
    (f ∉ o.deleted ↔ n = manifestNumber)

/-- No blob file that is not live has the number of the new manifest, and no other
manifest the number of a live blob file. -/
structure Apart (env : Env) (set : BlobFileSet) (manifestNumber : UInt64) : Prop where
  blobs : ∀ f ∈ env.children, f.parsed = some (manifestNumber, .blobFile) → Live set manifestNumber
  manifests : ∀ f ∈ env.children, ∀ n, f.parsed = some (n, .descriptorFile) → Live set n →
    n = manifestNumber

/-- The purge goes by the number alone. -/
theorem not_mem_purge_iff {set : BlobFileSet} {manifestNumber n : UInt64} {type : FileType}
    {f : DirFile} (hf : f ∈ env.children) (hparsed : f.parsed = some (n, type))
    (htype : type = .blobFile ∨ type = .descriptorFile) :
    f ∉ purge env set manifestNumber ↔ n = manifestNumber ∨ Live set n := by
  have htype' : (type == .blobFile || type == .descriptorFile) = true := by
    rcases htype with rfl | rfl <;> rfl
  rw [purge, mem_filter, and_iff_right hf, hparsed]
  dsimp only
  rw [htype', Bool.and_true, Bool.not_eq_true', Bool.not_eq_false, Bool.or_eq_true, beq_iff_eq,
    any_eq_true, Live]

theorem purge_exact_iff (env : Env) (set : BlobFileSet) (manifestNumber : UInt64) (o : Outcome)
    (ho : o.deleted = purge env set manifestNumber) :
    Exact env set manifestNumber o ↔ Apart env set manifestNumber := by
  constructor
  · intro h
    refine ⟨fun f hf hparsed => ?_, fun f hf n hparsed hlive => ?_⟩
    · have hkept : f ∉ purge env set manifestNumber :=
        (not_mem_purge_iff hf hparsed (.inl rfl)).mpr (.inl rfl)
      exact (h.blobs f hf manifestNumber hparsed).mp (ho ▸ hkept)
    · have hkept : f ∉ purge env set manifestNumber :=
        (not_mem_purge_iff hf hparsed (.inr rfl)).mpr (.inr hlive)
      exact (h.manifests f hf n hparsed).mp (ho ▸ hkept)
  · intro h
    refine ⟨fun f hf n hparsed => ?_, fun f hf n hparsed => ?_⟩
    · rw [ho, not_mem_purge_iff hf hparsed (.inl rfl)]
      constructor
      · rintro (rfl | hlive)
        · exact h.blobs f hf hparsed
        · exact hlive
      · exact .inr
    · rw [ho, not_mem_purge_iff hf hparsed (.inr rfl)]
      constructor
      · rintro (heq | hlive)
        · exact heq
        · exact h.manifests f hf n hparsed hlive
      · exact .inl

/-- A recovery that succeeds leaves exactly the live blob files and the new manifest if
and only if no number of a blob file meets one of a manifest across the two kinds. -/
theorem recovered_exact_iff {env : Env} {ids : List UInt32} (h : (recoverSet env ids).status = none) :
    ∃ set next, replayManifest env ids = .ok (set, next) ∧
      (Exact env (set.map fun s => (s.1, (s.2.getObsoleteFiles kMaxSequenceNumber).1)) next
          (recoverSet env ids) ↔
        Apart env (set.map fun s => (s.1, (s.2.getObsoleteFiles kMaxSequenceNumber).1)) next) := by
  cases hreplay : replayManifest env ids with
  | error s =>
    rw [recoverSet_of_error hreplay] at h
    cases h
  | ok r =>
    obtain ⟨set, next⟩ := r
    refine ⟨set, next, rfl, purge_exact_iff env _ next _ ?_⟩
    rw [recoverSet, hreplay] at h ⊢
    dsimp only [OpenSet.newFileNumber] at h ⊢
    cases hmanifest : openManifest env { columnFamilies := set, nextFileNumber := next + 1 } with
    | error s =>
      rw [hmanifest] at h
      cases h
    | ok records => rfl

/-- A manifest that adds file 2, whose next file number is 4. The new manifest gets this
number. -/
def crashed (children : List DirFile) : Env where
  current := .ok currentFile
  reads := [{ record := ({ nextFileNumber := some 4 } : VersionEdit).encodeTo },
    { record := ({ addedFiles := [{ fileNumber := 2 }] } : VersionEdit).encodeTo }]
  iterate := byNumber
  children := children

/-- A blob file was given the number 3 and was not logged before a crash: it is deleted. -/
theorem recovered_exact_crash :
    ∃ set next, replayManifest (crashed [blob 2 "000002.blob", blob 3 "000003.blob"]) [0] = .ok (set, next) ∧
      Exact (crashed [blob 2 "000002.blob", blob 3 "000003.blob"])
        (set.map fun s => (s.1, (s.2.getObsoleteFiles kMaxSequenceNumber).1)) next
        (recoverSet (crashed [blob 2 "000002.blob", blob 3 "000003.blob"]) [0]) := by
  have hstatus : (recoverSet (crashed [blob 2 "000002.blob", blob 3 "000003.blob"]) [0]).status = none := rfl
  obtain ⟨set, next, hreplay, hiff⟩ := recovered_exact_iff hstatus
  refine ⟨set, next, hreplay, hiff.mpr ⟨fun f hf hparsed => ?_, fun f hf n hparsed => ?_⟩⟩
  · have hnext : next = 4 := by
      have hvalue : replayManifest (crashed [blob 2 "000002.blob", blob 3 "000003.blob"]) [0] =
        .ok (_, 4) := rfl
      exact (Prod.mk.inj (Except.ok.inj (hreplay.symm.trans hvalue))).2
    subst hnext
    rcases mem_cons.mp hf with rfl | hf
    · cases hparsed
    · obtain rfl := mem_singleton.mp hf
      cases hparsed
  · rcases mem_cons.mp hf with rfl | hf
    · cases hparsed
    · obtain rfl := mem_singleton.mp hf
      cases hparsed

/-- A blob file was given the number 4, the next one of the manifest, and was not logged
before a crash. The new manifest gets the same number, and the blob file stays although
no storage has it. -/
theorem orphan_with_manifest_number_left :
    (recoverSet (crashed [blob 2 "000002.blob", blob 4 "000004.blob"]) [0]).status = none ∧
      (recoverSet (crashed [blob 2 "000002.blob", blob 4 "000004.blob"]) [0]).deleted = [] ∧
      ∃ st, replayManifest (crashed [blob 2 "000002.blob", blob 4 "000004.blob"]) [0] = .ok ([(0, st)], 4) ∧
        (st.files 4).isSome = false :=
  ⟨rfl, rfl, _, rfl, rfl⟩

end TitanGC.Manifest.Recovery
