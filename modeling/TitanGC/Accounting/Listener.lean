import TitanGC.Accounting.SizeCollector
import TitanGC.Accounting.Tracking

/-!
# Keeping the live data sizes up to date

`OnFlushCompleted`, `OnCompactionCompleted`, the accounting of
`DeleteFilesInRanges`, and `InitializeGC`. Each turns the properties of some tables
into a map of differences and goes through it, one blob file at a time; files
without live data are put into an edit, which under `level_merge` is applied. The
edits never get a column family id, so they are for column family 0.

Left out: statistics and log messages, the bitmaps (a part of
`OnCompactionCompleted` of its own), and the scheduling of garbage collections when
`level_merge` is off. Whether the discardable ratio of a file is above
`blob_file_discardable_ratio` is computed in floating point; it is an option here.
-/

namespace TitanGC.Accounting.Listener

open Lib.ByteCoding Lib.OrderedMap List Function Format.Coding Manifest.Logging
open SizeCollector Tracking

structure CFOptions where
  levelMerge : Bool := false
  rangeMerge : Bool := false
  numLevels : Int := 7
  maxSortedRuns : Nat := 20
  /-- `GetDiscardableRatio() > blob_file_discardable_ratio`. -/
  discardable : TrackedFile → Bool := fun _ => false

/-! ## The loop over the differences -/

/-- What is decided about one blob file. -/
structure Verdict where
  file : TrackedFile
  delete : Bool := false
  candidate : Bool := false

structure Pass where
  storage : Storage
  edit : Edit := {}
  toMergeCandidates : List UInt64 := []

def Pass.step (verdict : Int64 → TrackedFile → Verdict) (latestSequence : Nat) (pass : Pass)
    (fileDiff : UInt64 × Int64) : Pass :=
  match pass.storage.files fileDiff.1 with
  | none => pass
  | some f =>
    let v := verdict fileDiff.2 f
    { storage := pass.storage.modify fileDiff.1 fun _ => v.file
      edit := if v.delete then pass.edit.deleteBlobFile fileDiff.1 latestSequence else pass.edit
      toMergeCandidates :=
        if v.candidate then pass.toMergeCandidates ++ [fileDiff.1] else pass.toMergeCandidates }

def accountFiles (verdict : Int64 → TrackedFile → Verdict) (latestSequence : Nat)
    (diff : List (UInt64 × Int64)) (st : Storage) : Pass :=
  diff.foldl (Pass.step verdict latestSequence) { storage := st }

/-! ## Flushes -/

def flushFile (delta : Int64) (f : TrackedFile) : Verdict :=
  if f.state ≠ .pendingLSM then { file := f }
  else
    let delta := if delta < 0 then 0 else delta
    let delta := if f.liveDataSize ≠ 0 then delta - f.liveDataSize.toInt64 else delta
    { file := { f with liveDataSize := delta.toUInt64 }.fileStateTransit .flushCompleted }

structure FlushJobInfo where
  cfId : UInt32
  tableProperties : List (String × Bytes)

def onFlushCompleted (s : BlobFiles) (info : FlushJobInfo) : BlobFiles :=
  let diff := (extractGCStatsFromTableProperty info.tableProperties true []).toOption.getD []
  if info.cfId ∉ s.ids then s
  else s.setStorage info.cfId (accountFiles flushFile 0 diff (s.storage info.cfId)).storage

/-! ## Compactions -/

structure CompactionJobInfo where
  cfId : UInt32
  status : Option Status := none
  inputFiles : List UInt64
  outputFiles : List UInt64
  outputLevel : Int
  tableProperties : UInt64 → Option (List (String × Bytes))

def updateDiff (properties : UInt64 → Option (List (String × Bytes))) (toAdd : Bool)
    (diff : List (UInt64 × Int64)) (file : UInt64) : List (UInt64 × Int64) :=
  match properties file with
  | none => diff
  | some p => (extractGCStatsFromTableProperty p toAdd diff).toOption.getD diff

def CompactionJobInfo.blobFileSizeDiff (info : CompactionJobInfo) : List (UInt64 × Int64) :=
  let diff := info.inputFiles.foldl (updateDiff info.tableProperties false) []
  info.outputFiles.foldl (updateDiff info.tableProperties true) diff

def compactFile (o : CFOptions) (countSortedRun : Bool) (delta : Int64) (f : TrackedFile) : Verdict :=
  if f.isObsolete then { file := f }
  else if f.state = .pendingLSM then
    if delta ≤ 0 then { file := (f.updateLiveDataSize (-delta)).2 }
    else
      let delta := if f.liveDataSize ≠ 0 then delta - f.liveDataSize.toInt64 else delta
      let f := { f with liveDataSize := delta.toUInt64 }.fileStateTransit .compactionCompleted
      { file := f, delete := f.noLiveData, candidate := true }
  else if f.state = .normal ∨ f.state = .toMerge then
    let f := (f.updateLiveDataSize delta).2
    if o.levelMerge then
      if f.noLiveData then { file := f, delete := true }
      else if f.file.fileLevel.toInt32.toInt ≥ o.numLevels - 2 ∧ o.discardable f then
        { file := f.fileStateTransit .needMerge }
      else { file := f, candidate := countSortedRun }
    else { file := f }
  else { file := f }

def CFOptions.countSortedRun (o : CFOptions) (outputLevel : Int) : Bool :=
  o.levelMerge && o.rangeMerge && o.numLevels - 1 == outputLevel

def compactionPass (o : CFOptions) (info : CompactionJobInfo) (latestSequence : Nat) (st : Storage) : Pass :=
  accountFiles (compactFile o (o.countSortedRun info.outputLevel)) latestSequence info.blobFileSizeDiff st

/-! ## Sorted runs -/

/-- The key of one end of a blob file; `true` is the smallest end. -/
def endKey (st : Storage) (e : UInt64 × Bool) : Bytes :=
  match st.files e.1 with
  | none => []
  | some f => if e.2 then f.file.smallestKey else f.file.largestKey

/-- `blob_ends_cmp`: by key; a largest key comes before an equal smallest key. -/
def endBefore (st : Storage) (a b : UInt64 × Bool) : Bool :=
  if endKey st a = endKey st b then !a.2 && b.2 else decide (endKey st a < endKey st b)

/-- The loop over the sorted ends, with the files whose range is open. -/
def sweep (maxSortedRuns : Nat) : List (UInt64 × Bool) → List UInt64 → Storage → Storage
  | [], _, st => st
  | (n, true) :: ends, opened, st =>
    let opened := if n ∈ opened then opened else n :: opened
    let st := if opened.length > maxSortedRuns then
        opened.foldl (fun st n => st.modify n (·.fileStateTransit .needMerge)) st
      else st
    sweep maxSortedRuns ends opened st
  | (n, false) :: ends, opened, st => sweep maxSortedRuns ends (opened.erase n) st

def markFileIfNeedMerge (st : Storage) (files : List UInt64) (maxSortedRuns : Nat) : Storage :=
  let ends := (files.flatMap fun n => [(n, true), (n, false)]).insertionSort
    fun a b => endBefore st b a = false
  sweep maxSortedRuns ends [] st

def onCompactionCompleted (s : BlobFiles) (o : CFOptions) (info : CompactionJobInfo)
    (latestSequence : Nat) (w : Write) : BlobFiles :=
  if info.status.isSome then s
  else if info.cfId ∉ s.ids then s
  else
    let pass := compactionPass o info latestSequence (s.storage info.cfId)
    let s := s.setStorage info.cfId pass.storage
    if o.levelMerge then
      let s := (s.logAndApply w pass.edit).2
      s.setStorage info.cfId
        (markFileIfNeedMerge (s.storage info.cfId) pass.toMergeCandidates o.maxSortedRuns)
    else s

/-! ## Deletion of ranges -/

structure RangePtr where
  start : Option Bytes
  limit : Option Bytes

/-- What the base database says of a version: the tables of a level inside an
interval (`GetCleanInputsWithinInterval`; none if the level does not overlap it),
and which tables are being compacted. -/
structure VersionView where
  cleanInputs : List Table → Option Bytes → Option Bytes → List Table
  beingCompacted : Table → Bool

/-- The tables whose properties `DeleteFilesInRanges` reads: those of the levels from
1 to the last that is not empty. -/
def tablesInRanges (view : VersionView) (version : List Table) (maxLevel : Nat)
    (ranges : List RangePtr) (includeEnd : Bool) : List Table :=
  ranges.foldl (fun props range =>
    (List.range maxLevel).foldl (fun props level =>
      (view.cleanInputs (version.filter (·.level == level + 1)) range.start range.limit).foldl
        (fun props t =>
          if view.beingCompacted t then props
          else if !includeEnd && range.limit == some t.largest then props
          else if props.any (·.number == t.number) then props
          else props ++ [t]) props) props) []

def rangeFile (o : CFOptions) (delta : Int64) (f : TrackedFile) : Verdict :=
  if f.isObsolete then { file := f }
  else
    let f := (f.updateLiveDataSize delta).2
    if o.levelMerge then
      if f.noLiveData then { file := f, delete := true }
      else if o.discardable f then { file := f.fileStateTransit .needMerge }
      else { file := f }
    else { file := f }

def rangeDiff (tables : List Table) : List (UInt64 × Int64) :=
  tables.foldl (fun diff t =>
    (extractGCStatsFromTableProperty t.userCollectedProperties false diff).toOption.getD diff) []

def rangePass (o : CFOptions) (tables : List Table) (latestSequence : Nat) (st : Storage) : Pass :=
  accountFiles (rangeFile o) latestSequence (rangeDiff tables) st

/-- What `DeleteFilesInRanges` does after the base database has deleted its tables. -/
def accountRanges (s : BlobFiles) (o : CFOptions) (cf : UInt32) (tables : List Table)
    (latestSequence : Nat) (w : Write) : BlobFiles :=
  if cf ∉ s.ids then s
  else
    let pass := rangePass o tables latestSequence (s.storage cf)
    let s := s.setStorage cf pass.storage
    if o.levelMerge then (s.logAndApply w pass.edit).2 else s

/-! ## Restart -/

def initializeGC (tables : List Table) (st : Storage) : Except Status Storage := do
  let diff ← tables.foldlM (fun diff t =>
    extractGCStatsFromTableProperty t.userCollectedProperties true diff) []
  let st := diff.foldl (fun st p =>
    st.modify p.1 fun f => { f with liveDataSize := p.2.toUInt64 }) st
  pure st.initializeAllFiles

/-! ## The differences are maps -/

section

variable {properties : List (String × Bytes)}

theorem ordered_extract {toAdd : Bool} {diff diff' : List (UInt64 × Int64)} (h : Ordered diff)
    (hextract : extractGCStatsFromTableProperty properties toAdd diff = .ok diff') :
    Ordered diff' := by
  rw [extractGCStatsFromTableProperty] at hextract
  split at hextract
  · cases hextract
    exact h
  · split at hextract
    · cases hextract
    · rename_i sizes hsizes
      cases hextract
      clear hsizes
      induction sizes generalizing diff with
      | nil => exact h
      | cons p sizes ih => exact ih (ordered_alter h _ _)

theorem ordered_extract_getD {toAdd : Bool} {diff : List (UInt64 × Int64)} (h : Ordered diff) :
    Ordered ((extractGCStatsFromTableProperty properties toAdd diff).toOption.getD diff) := by
  cases hextract : extractGCStatsFromTableProperty properties toAdd diff with
  | error e => exact h
  | ok diff' => exact ordered_extract h hextract

theorem foldl_ordered {α : Type} {step : List (UInt64 × Int64) → α → List (UInt64 × Int64)}
    (hstep : ∀ diff a, Ordered diff → Ordered (step diff a)) (xs : List α)
    {diff : List (UInt64 × Int64)} (h : Ordered diff) : Ordered (xs.foldl step diff) := by
  induction xs generalizing diff with
  | nil => exact h
  | cons x xs ih => exact ih (hstep diff x h)

theorem ordered_updateDiff (properties : UInt64 → Option (List (String × Bytes))) (toAdd : Bool)
    (diff : List (UInt64 × Int64)) (file : UInt64) (h : Ordered diff) :
    Ordered (updateDiff properties toAdd diff file) := by
  rw [updateDiff]
  split
  · exact h
  · exact ordered_extract_getD h

theorem ordered_blobFileSizeDiff (info : CompactionJobInfo) : Ordered info.blobFileSizeDiff :=
  foldl_ordered (ordered_updateDiff _ true) _
    (foldl_ordered (ordered_updateDiff _ false) _ List.Pairwise.nil)

theorem ordered_rangeDiff (tables : List Table) : Ordered (rangeDiff tables) :=
  foldl_ordered (fun _ _ h => ordered_extract_getD h) tables List.Pairwise.nil

end

/-! ## What the loop leaves -/

theorem modify_files (st : Storage) (n : UInt64) (g : TrackedFile → TrackedFile) (k : UInt64) :
    (st.modify n g).files k = if k = n then (st.files k).map g else st.files k := by
  by_cases h : k = n
  · subst h
    rw [if_pos rfl]
    exact update_self _ _ _
  · rw [if_neg h]
    exact update_of_ne h _ _

/-- Every file of a map is changed, once. -/
theorem foldl_modify_files {V : Type} {m : List (UInt64 × V)} (hm : (m.map (·.1)).Nodup)
    (g : V → TrackedFile → TrackedFile) (st : Storage) (n : UInt64) :
    (m.foldl (fun st p => st.modify p.1 (g p.2)) st).files n =
      (m.lookup n).elim (st.files n) fun v => (st.files n).map (g v) := by
  have hfold : ∀ (m : List (UInt64 × V)) (st : Storage),
      (m.foldl (fun st p => st.modify p.1 (g p.2)) st).files =
        m.foldl (fun files p => update files p.1 ((files p.1).map (g p.2))) st.files := by
    intro m
    induction m with
    | nil => exact fun _ => rfl
    | cons p m ih => exact fun st => ih _
  rw [hfold]
  exact foldl_update hm (fun v => Option.map (g v)) st.files n

section

variable (verdict : Int64 → TrackedFile → Verdict) (seq : Nat) {n : UInt64} {diff : List (UInt64 × Int64)}

theorem step_other {k : UInt64} (hne : k ≠ n) (d : Int64) (pass : Pass) :
    (pass.step verdict seq (n, d)).storage.files k = pass.storage.files k := by
  rw [Pass.step]
  cases h : pass.storage.files n with
  | none => rfl
  | some f => exact (modify_files _ _ _ _).trans (if_neg hne)

/-- A file that is not in the map is left alone. -/
theorem foldl_step_other {k : UInt64} (hk : diff.lookup k = none) (pass : Pass) :
    (diff.foldl (Pass.step verdict seq) pass).storage.files k = pass.storage.files k := by
  induction diff generalizing pass with
  | nil => rfl
  | cons p diff ih =>
    obtain ⟨n, d⟩ := p
    have hne : k ≠ n := fun h => by simp [h] at hk
    rw [lookup_cons_of_ne hne] at hk
    rw [foldl_cons, ih hk, step_other verdict seq hne]

/-- Every file of the map gets its verdict, once. -/
theorem foldl_step_files (hnodup : (diff.map (·.1)).Nodup) (pass : Pass) (k : UInt64) :
    (diff.foldl (Pass.step verdict seq) pass).storage.files k =
      (pass.storage.files k).map fun f => (diff.lookup k).elim f fun d => (verdict d f).file := by
  induction diff generalizing pass with
  | nil => exact Option.map_id'.symm ▸ rfl
  | cons p diff ih =>
    obtain ⟨n, d⟩ := p
    rw [map_cons, nodup_cons] at hnodup
    rw [foldl_cons]
    by_cases hk : k = n
    · subst hk
      have hnone : diff.lookup k = none :=
        lookup_eq_none.mpr fun q hq heq => hnodup.1 (mem_map.mpr ⟨q, hq, heq⟩)
      rw [foldl_step_other verdict seq hnone, lookup_cons_self, Pass.step]
      cases h : pass.storage.files k with
      | none => exact h
      | some f =>
        dsimp only
        rw [modify_files, if_pos rfl, h]
        rfl
    · rw [ih hnodup.2, lookup_cons_of_ne hk, step_other verdict seq hk]

def flagged (flag : Verdict → Bool) (files : UInt64 → Option TrackedFile)
    (diff : List (UInt64 × Int64)) : List UInt64 :=
  (diff.filter fun p => ((files p.1).map fun f => flag (verdict p.2 f)).getD false).map (·.1)

theorem flagged_cons (flag : Verdict → Bool) (files : UInt64 → Option TrackedFile) (p : UInt64 × Int64)
    (diff : List (UInt64 × Int64)) :
    flagged verdict flag files (p :: diff) =
      (if ((files p.1).map fun f => flag (verdict p.2 f)).getD false then [p.1] else []) ++
        flagged verdict flag files diff := by
  rw [flagged, filter_cons]
  split
  · rfl
  · rfl

/-- The loop adds the files with the flags to the edit and to the candidates. -/
theorem foldl_step_flagged (hnodup : (diff.map (·.1)).Nodup) (pass : Pass) :
    (diff.foldl (Pass.step verdict seq) pass).edit.deletedFiles = pass.edit.deletedFiles ++
        (flagged verdict (·.delete) pass.storage.files diff).map (·, seq) ∧
    (diff.foldl (Pass.step verdict seq) pass).toMergeCandidates = pass.toMergeCandidates ++
        flagged verdict (·.candidate) pass.storage.files diff := by
  induction diff generalizing pass with
  | nil => exact ⟨(append_nil _).symm, (append_nil _).symm⟩
  | cons p diff ih =>
    obtain ⟨k, d⟩ := p
    rw [map_cons, nodup_cons] at hnodup
    obtain ⟨hedit, hcand⟩ := ih hnodup.2 (pass.step verdict seq (k, d))
    -- the later keys differ from this one, so this step did not touch their files
    have hlater : ∀ flag : Verdict → Bool,
        flagged verdict flag (pass.step verdict seq (k, d)).storage.files diff =
          flagged verdict flag pass.storage.files diff := by
      intro flag
      refine congrArg (List.map _) (filter_congr fun q hq => ?_)
      have hne : q.1 ≠ k := fun heq => hnodup.1 (mem_map.mpr ⟨q, hq, heq⟩)
      rw [step_other verdict seq hne]
    rw [foldl_cons, hedit, hcand, hlater, hlater, flagged_cons, flagged_cons, Pass.step]
    cases h : pass.storage.files k with
    | none => exact ⟨rfl, rfl⟩
    | some f =>
      dsimp only [Option.map_some, Option.getD_some]
      constructor
      · split
        · rw [Edit.deleteBlobFile, append_assoc]
          rfl
        · rfl
      · split
        · rw [append_assoc]
        · rfl

theorem foldl_step_edit (diff : List (UInt64 × Int64)) (pass : Pass) :
    (diff.foldl (Pass.step verdict seq) pass).edit.columnFamilyId = pass.edit.columnFamilyId ∧
      (diff.foldl (Pass.step verdict seq) pass).edit.addedFiles = pass.edit.addedFiles := by
  induction diff generalizing pass with
  | nil => exact ⟨rfl, rfl⟩
  | cons p diff ih =>
    have hstep : (pass.step verdict seq p).edit.columnFamilyId = pass.edit.columnFamilyId ∧
        (pass.step verdict seq p).edit.addedFiles = pass.edit.addedFiles := by
      rw [Pass.step]
      cases pass.storage.files p.1 with
      | none => exact ⟨rfl, rfl⟩
      | some f =>
        dsimp only
        split
        · exact ⟨rfl, rfl⟩
        · exact ⟨rfl, rfl⟩
    rw [foldl_cons, (ih _).1, (ih _).2]
    exact hstep

theorem foldl_step_obsoleteFiles (diff : List (UInt64 × Int64)) (pass : Pass) :
    (diff.foldl (Pass.step verdict seq) pass).storage.obsoleteFiles = pass.storage.obsoleteFiles := by
  induction diff generalizing pass with
  | nil => rfl
  | cons p diff ih =>
    rw [foldl_cons, ih, Pass.step]
    cases pass.storage.files p.1 with
    | none => rfl
    | some f => rfl

theorem mem_flagged {flag : Verdict → Bool} {files : UInt64 → Option TrackedFile} (hordered : Ordered diff) :
    n ∈ flagged verdict flag files diff ↔
      ∃ d f, diff.lookup n = some d ∧ files n = some f ∧ flag (verdict d f) = true := by
  rw [flagged, mem_map]
  constructor
  · intro ⟨p, hp, hn⟩
    subst hn
    obtain ⟨hmem, hflag⟩ := mem_filter.mp hp
    cases hfile : files p.1 with
    | none =>
      rw [hfile] at hflag
      cases hflag
    | some f =>
      rw [hfile] at hflag
      exact ⟨p.2, f, (mem_iff_lookup hordered).mp hmem, rfl, hflag⟩
  · intro ⟨d, f, hlookup, hfile, hflag⟩
    refine ⟨(n, d), mem_filter.mpr ⟨(mem_iff_lookup hordered).mpr hlookup, ?_⟩, rfl⟩
    dsimp only
    rw [hfile]
    exact hflag

def after (diff : List (UInt64 × Int64)) (n : UInt64) (f : TrackedFile) : TrackedFile :=
  (diff.lookup n).elim f fun d => (verdict d f).file

/-- The loop over a map of differences. -/
structure PassOf (diff : List (UInt64 × Int64)) (st : Storage) (pass : Pass) : Prop where
  files : ∀ n, pass.storage.files n = (st.files n).map (after verdict diff n)
  deleted : ∀ x ∈ pass.edit.deletedFiles, ∃ d f, diff.lookup x.1 = some d ∧ st.files x.1 = some f ∧
    (verdict d f).delete = true
  candidates : ∀ n ∈ pass.toMergeCandidates, ∃ d f, diff.lookup n = some d ∧ st.files n = some f ∧
    (verdict d f).candidate = true
  columnFamily : pass.edit.columnFamilyId = 0
  noAdded : pass.edit.addedFiles = []
  obsoleteFiles : pass.storage.obsoleteFiles = st.obsoleteFiles

variable (hordered : Ordered diff) (st : Storage)

include hordered st

/-- The edit deletes exactly the files with the flag, each once. -/
theorem mem_deletedFiles :
    n ∈ (accountFiles verdict seq diff st).edit.deletedFiles.map (·.1) ↔
      ∃ d f, diff.lookup n = some d ∧ st.files n = some f ∧ (verdict d f).delete = true := by
  rw [accountFiles, (foldl_step_flagged verdict seq (nodup_keys hordered) { storage := st }).1,
    ← mem_flagged verdict hordered]
  simp

theorem nodup_deletedFiles : ((accountFiles verdict seq diff st).edit.deletedFiles.map (·.1)).Nodup := by
  rw [accountFiles, (foldl_step_flagged verdict seq (nodup_keys hordered) { storage := st }).1]
  simp only [nil_append, map_map, comp_def, map_id']
  exact (nodup_keys hordered).sublist (filter_sublist.map _)

theorem accountFiles_pass : PassOf verdict diff st (accountFiles verdict seq diff st) := by
  have hnodup := nodup_keys hordered
  obtain ⟨hedit, hcand⟩ := foldl_step_flagged verdict seq hnodup { storage := st }
  refine ⟨foldl_step_files verdict seq hnodup { storage := st }, ?_, ?_,
    (foldl_step_edit verdict seq diff { storage := st }).1,
    (foldl_step_edit verdict seq diff { storage := st }).2,
    foldl_step_obsoleteFiles verdict seq diff { storage := st }⟩
  · intro x hx
    rw [accountFiles, hedit] at hx
    obtain ⟨n, hn, rfl⟩ := mem_map.mp hx
    exact (mem_flagged verdict hordered).mp hn
  · intro n hn
    rw [accountFiles, hcand] at hn
    exact (mem_flagged verdict hordered).mp hn

end

/-! ## What an edit and the marking leave -/

/-- An edit that only deletes makes its files obsolete and does nothing else. -/
theorem apply_deletes (st : Storage) {e : Edit} (hadded : e.addedFiles = []) (n : UInt64) :
    (st.apply e).files n = (st.files n).map fun f =>
      if n ∈ e.deletedFiles.map (·.1) then { f with state := .obsolete } else f := by
  rw [Storage.apply, hadded]
  dsimp only [foldl_nil, any_nil]
  simp only [Bool.false_eq_true, if_false]
  generalize e.deletedFiles = deleted
  induction deleted generalizing st with
  | nil => simp
  | cons d deleted ih =>
    rw [foldl_cons, ih]
    by_cases hn : n = d.1
    · subst hn
      cases hfile : st.files d.1 with
      | none => simp [Storage.markFileObsolete, hfile]
      | some f => simp [Storage.markFileObsolete, hfile, TrackedFile.fileStateTransit]
    · have hother : ((st.markFileObsolete d.1 d.2).getD st).files n = st.files n := by
        cases hfile : st.files d.1 with
        | none => simp [Storage.markFileObsolete, hfile]
        | some f => simp [Storage.markFileObsolete, hfile, hn]
      have hmem : (n ∈ (d :: deleted).map (·.1)) ↔ n ∈ deleted.map (·.1) := by
        rw [map_cons, mem_cons, or_iff_right hn]
      rw [hother]
      refine congrArg (fun g => (st.files n).map g) (funext fun f => ?_)
      exact if_congr hmem.symm rfl rfl

variable {n : UInt64} {g : TrackedFile}

theorem apply_files {st : Storage} {e : Edit} (hadded : e.addedFiles = [])
    (h : (st.apply e).files n = some g) :
    ∃ f, st.files n = some f ∧
      (g = f ∨ n ∈ e.deletedFiles.map (·.1) ∧ g = { f with state := .obsolete }) := by
  rw [apply_deletes st hadded] at h
  obtain ⟨f, hf, rfl⟩ := Option.map_eq_some_iff.mp h
  refine ⟨f, hf, ?_⟩
  split
  · rename_i hn
    exact .inr ⟨hn, rfl⟩
  · exact .inl rfl

theorem logAndApply_storage (s : BlobFiles) (w : Write) (e : Edit) (cf : UInt32) :
    (s.logAndApply w e).2.storage cf = s.storage cf ∨
      cf = e.columnFamilyId ∧ (s.logAndApply w e).2.storage cf = (s.storage cf).apply e := by
  rw [BlobFiles.logAndApply]
  cases (s.openSet.logAndApply w e.toVersionEdit).1 with
  | some status => exact .inl rfl
  | none =>
    by_cases h : cf = e.columnFamilyId
    · subst h
      exact .inr ⟨rfl, update_self _ _ _⟩
    · exact .inl (update_of_ne h _ _)

/-- A pass whose edit is applied. The edit is for column family 0; its files belong
to the column family of the pass, so it changes nothing of another one. -/
theorem logPass_files {verdict : Int64 → TrackedFile → Verdict} {diff : List (UInt64 × Int64)}
    {b : BlobFiles} {cf : UInt32} {pass : Pass} (hpass : PassOf verdict diff (b.storage cf) pass)
    (hdistinct : ∀ cf' n, ((b.storage cf).files n).isSome → ((b.storage cf').files n).isSome → cf = cf')
    (w : Write) {cf' : UInt32}
    (hg : ((((b.setStorage cf pass.storage).logAndApply w pass.edit).2).storage cf').files n = some g) :
    ∃ f, (b.storage cf').files n = some f ∧
      (cf' ≠ cf ∧ g = f ∨ cf' = cf ∧ (g = after verdict diff n f ∨
        ∃ d, diff.lookup n = some d ∧ (verdict d f).delete = true ∧
          g = { (verdict d f).file with state := .obsolete })) := by
  have hset : ∀ f₁, ((b.setStorage cf pass.storage).storage cf').files n = some f₁ →
      ∃ f, (b.storage cf').files n = some f ∧
        (cf' ≠ cf ∧ f₁ = f ∨ cf' = cf ∧ f₁ = after verdict diff n f) := by
    intro f₁ hf₁
    by_cases hcf : cf' = cf
    · subst hcf
      rw [BlobFiles.setStorage_self, hpass.files] at hf₁
      obtain ⟨f, hf, rfl⟩ := Option.map_eq_some_iff.mp hf₁
      exact ⟨f, hf, .inr ⟨rfl, rfl⟩⟩
    · rw [BlobFiles.setStorage_of_ne b hcf] at hf₁
      exact ⟨f₁, hf₁, .inl ⟨hcf, rfl⟩⟩
  rcases logAndApply_storage (b.setStorage cf pass.storage) w pass.edit cf' with heq | ⟨-, heq⟩
  · rw [heq] at hg
    obtain ⟨f, hf, hcase⟩ := hset g hg
    exact ⟨f, hf, hcase.imp_right fun ⟨hcf, h⟩ => ⟨hcf, .inl h⟩⟩
  · rw [heq] at hg
    obtain ⟨f₁, hf₁, hdeleted⟩ := apply_files hpass.noAdded hg
    obtain ⟨f, hf, hcase⟩ := hset f₁ hf₁
    refine ⟨f, hf, ?_⟩
    rcases hdeleted with rfl | ⟨hmem, rfl⟩
    · exact hcase.imp_right fun ⟨hcf, h⟩ => ⟨hcf, .inl h⟩
    · obtain ⟨x, hx, rfl⟩ := mem_map.mp hmem
      obtain ⟨d, f₀, hlookup, hf₀, hdelete⟩ := hpass.deleted x hx
      obtain rfl : cf = cf' := hdistinct cf' x.1 (by rw [hf₀]; rfl) (by rw [hf]; rfl)
      rw [hf] at hf₀
      cases hf₀
      rcases hcase with ⟨hne, -⟩ | ⟨-, rfl⟩
      · exact absurd rfl hne
      · refine .inr ⟨rfl, .inr ⟨d, hlookup, hdelete, ?_⟩⟩
        rw [after, hlookup]
        rfl

theorem apply_deletes_obsoleteFiles (st : Storage) {e : Edit} (hadded : e.addedFiles = []) {x : UInt64 × Nat}
    (hx : x ∈ (st.apply e).obsoleteFiles) :
    x ∈ st.obsoleteFiles ∨ x.1 ∈ e.deletedFiles.map (·.1) := by
  rw [Storage.apply, hadded] at hx
  dsimp only [foldl_nil, any_nil] at hx
  simp only [Bool.false_eq_true, if_false] at hx
  generalize e.deletedFiles = deleted at hx
  induction deleted generalizing st with
  | nil => exact .inl hx
  | cons d deleted ih =>
    rw [foldl_cons] at hx
    rcases ih _ hx with hold | hnew
    · rw [Storage.markFileObsolete] at hold
      cases hfile : st.files d.1 with
      | none =>
        rw [hfile] at hold
        exact .inl hold
      | some f =>
        rw [hfile] at hold
        rcases mem_append.mp hold with hold | hnew
        · exact .inl hold
        · rw [mem_singleton.mp hnew]
          exact .inr mem_cons_self
    · exact .inr (mem_cons_of_mem _ hnew)

theorem logAndApply_ids (s : BlobFiles) (w : Write) (e : Edit) : (s.logAndApply w e).2.ids = s.ids := by
  rw [BlobFiles.logAndApply]
  cases (s.openSet.logAndApply w e.toVersionEdit).1 with
  | some status => rfl
  | none => rfl

variable (f : TrackedFile)

theorem needMerge_eq : f.fileStateTransit .needMerge = { f with state := .toMerge } := by
  rw [TrackedFile.fileStateTransit]
  split
  · rename_i h
    rw [← h]
  · rfl

theorem needMerge_file : (f.fileStateTransit .needMerge).file = f.file ∧
    (f.fileStateTransit .needMerge).liveDataSize = f.liveDataSize ∧
    (f.fileStateTransit .needMerge).state = .toMerge := by
  rw [needMerge_eq]
  exact ⟨rfl, rfl, rfl⟩

theorem updateLiveDataSize_file (delta : Int64) :
    (f.updateLiveDataSize delta).2.file = f.file ∧ (f.updateLiveDataSize delta).2.state = f.state := by
  rw [TrackedFile.updateLiveDataSize]
  split <;> exact ⟨rfl, rfl⟩

def sweptFiles (maxSortedRuns : Nat) : List (UInt64 × Bool) → List UInt64 → List UInt64
  | [], _ => []
  | (n, true) :: ends, opened =>
    let opened := if n ∈ opened then opened else n :: opened
    (if opened.length > maxSortedRuns then opened else []) ++ sweptFiles maxSortedRuns ends opened
  | (n, false) :: ends, opened => sweptFiles maxSortedRuns ends (opened.erase n)

/-- Marking a list of files. -/
theorem markAll_files (opened : List UInt64) (st : Storage) (n : UInt64) :
    (opened.foldl (fun st n => st.modify n (·.fileStateTransit .needMerge)) st).files n =
      (st.files n).map fun f => if n ∈ opened then { f with state := .toMerge } else f := by
  induction opened generalizing st with
  | nil => simp
  | cons k opened ih =>
    rw [foldl_cons, ih, modify_files]
    by_cases hn : n = k
    · simp [hn, needMerge_eq, comp_def]
    · simp [hn]

theorem sweep_files (maxSortedRuns : Nat) (ends : List (UInt64 × Bool)) (opened : List UInt64)
    (st : Storage) (n : UInt64) :
    (sweep maxSortedRuns ends opened st).files n = (st.files n).map fun f =>
      if n ∈ sweptFiles maxSortedRuns ends opened then { f with state := .toMerge } else f := by
  induction ends generalizing opened st with
  | nil => simp [sweep, sweptFiles]
  | cons e ends ih =>
    obtain ⟨k, smallest⟩ := e
    cases smallest with
    | false => exact ih (opened.erase k) st
    | true =>
      rw [sweep, sweptFiles]
      generalize (if k ∈ opened then opened else k :: opened) = opened'
      rw [ih]
      by_cases hmany : opened'.length > maxSortedRuns
      · rw [if_pos hmany, if_pos hmany, markAll_files, Option.map_map]
        refine congrArg (fun g => (st.files n).map g) (funext fun f => ?_)
        by_cases hn : n ∈ opened' <;> simp [hn]
      · rw [if_neg hmany, if_neg hmany, nil_append]

theorem markAll_obsoleteFiles (files : List UInt64) (st : Storage) :
    (files.foldl (fun st n => st.modify n (·.fileStateTransit .needMerge)) st).obsoleteFiles =
      st.obsoleteFiles := by
  induction files generalizing st with
  | nil => rfl
  | cons n files ih => exact ih _

theorem sweep_obsoleteFiles (maxSortedRuns : Nat) (ends : List (UInt64 × Bool)) (opened : List UInt64)
    (st : Storage) : (sweep maxSortedRuns ends opened st).obsoleteFiles = st.obsoleteFiles := by
  induction ends generalizing opened st with
  | nil => rfl
  | cons e ends ih =>
    obtain ⟨k, smallest⟩ := e
    cases smallest with
    | false => exact ih (opened.erase k) st
    | true =>
      rw [sweep]
      generalize (if k ∈ opened then opened else k :: opened) = opened'
      rw [ih]
      split
      · exact markAll_obsoleteFiles opened' st
      · rfl

def sortedEnds (st : Storage) (files : List UInt64) : List (UInt64 × Bool) :=
  (files.flatMap fun n => [(n, true), (n, false)]).insertionSort fun a b => endBefore st b a = false

/-- The order of the ends depends on the keys of the files only. -/
theorem sortedEnds_congr {st st' : Storage}
    (h : ∀ n, (st.files n).map (·.file) = (st'.files n).map (·.file)) (files : List UInt64) :
    sortedEnds st files = sortedEnds st' files := by
  have hkey : endKey st = endKey st' := by
    funext e
    have he := h e.1
    unfold endKey
    cases hf : st.files e.1 with
    | none =>
      rw [hf, Option.map_none] at he
      rw [Option.map_eq_none_iff.mp he.symm]
    | some f =>
      rw [hf, Option.map_some] at he
      obtain ⟨g, hg, hfg⟩ := Option.map_eq_some_iff.mp he.symm
      rw [hg]
      dsimp only at hfg ⊢
      rw [hfg]
  have hbefore : endBefore st = endBefore st' := by
    funext a b
    rw [endBefore, endBefore, hkey]
  exact congrArg (fun g : UInt64 × Bool → UInt64 × Bool → Bool => List.insertionSort
    (fun a b => g b a = false) (files.flatMap fun n => [(n, true), (n, false)])) hbefore

/-- Files that are marked are among those given. -/
def MarkedIn (files : List UInt64) (st st' : Storage) : Prop :=
  ∀ n g, st'.files n = some g →
    ∃ f, st.files n = some f ∧ (g = f ∨ n ∈ files ∧ g = { f with state := .toMerge })

variable {maxSortedRuns : Nat}

theorem mem_of_mem_sweptFiles {files : List UInt64} {ends : List (UInt64 × Bool)}
    (hends : ∀ e ∈ ends, e.1 ∈ files) {opened : List UInt64} (hopened : ∀ k ∈ opened, k ∈ files)
    (h : n ∈ sweptFiles maxSortedRuns ends opened) : n ∈ files := by
  induction ends generalizing opened with
  | nil => cases h
  | cons e ends ih =>
    obtain ⟨k, smallest⟩ := e
    have hk : k ∈ files := hends (k, smallest) mem_cons_self
    have hrest := fun e he => hends e (mem_cons_of_mem (k, smallest) he)
    cases smallest with
    | false => exact ih hrest (fun m hm => hopened m (mem_of_mem_erase hm)) h
    | true =>
      have hadded : ∀ m ∈ (if k ∈ opened then opened else k :: opened), m ∈ files := by
        intro m hm
        split at hm
        · exact hopened m hm
        · rcases mem_cons.mp hm with rfl | hm
          · exact hk
          · exact hopened m hm
      rw [sweptFiles] at h
      generalize (if k ∈ opened then opened else k :: opened) = opened' at hadded h
      rcases mem_append.mp h with h | h
      · split at h
        · exact hadded n h
        · cases h
      · exact ih hrest hadded h

/-- The sweep marks candidates only. -/
theorem mem_of_swept {st : Storage} {files : List UInt64}
    (h : n ∈ sweptFiles maxSortedRuns (sortedEnds st files) []) : n ∈ files := by
  refine mem_of_mem_sweptFiles (fun e he => ?_) (forall_mem_nil _) h
  rw [sortedEnds, (perm_insertionSort _ _).mem_iff, mem_flatMap] at he
  obtain ⟨n, hn, he⟩ := he
  simp only [mem_cons, not_mem_nil, or_false] at he
  rcases he with rfl | rfl
  · exact hn
  · exact hn

theorem markFileIfNeedMerge_files (st : Storage) (files : List UInt64) (maxSortedRuns : Nat) (n : UInt64) :
    (markFileIfNeedMerge st files maxSortedRuns).files n = (st.files n).map fun f =>
      if n ∈ sweptFiles maxSortedRuns (sortedEnds st files) [] then { f with state := .toMerge } else f :=
  sweep_files maxSortedRuns (sortedEnds st files) [] st n

theorem markFileIfNeedMerge_in (st : Storage) (files : List UInt64) (maxSortedRuns : Nat) :
    MarkedIn files st (markFileIfNeedMerge st files maxSortedRuns) := by
  intro n g hg
  rw [markFileIfNeedMerge_files] at hg
  obtain ⟨f, hf, rfl⟩ := Option.map_eq_some_iff.mp hg
  refine ⟨f, hf, ?_⟩
  split
  · rename_i hn
    exact .inr ⟨mem_of_swept hn, rfl⟩
  · exact .inl rfl

end TitanGC.Accounting.Listener
