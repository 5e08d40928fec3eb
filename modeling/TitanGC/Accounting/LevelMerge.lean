import TitanGC.Accounting.Listener
import TitanGC.Manifest.LiveReplay

/-!
# Deletions of level merge

Under `level_merge` the blob files that a compaction or a range deletion leaves
without live data are put into one edit and logged. The edit never gets a column
family id, so it is an edit of column family 0: for the files of another one `Seal`
refuses it, and nobody looks at the status. In column family 0 it is applied and
logged; a file that `MarkFileIfNeedMerge` marks afterwards is no longer obsolete.
-/

namespace TitanGC.Accounting.LevelMerge

open Lib.ByteCoding Lib.OrderedMap Function
open List hiding after
open Manifest.VersionEdits Manifest.Families Manifest.Logging Manifest.Mirror Manifest.LiveReplay
open SizeCollector Tracking Listener BlobFiles

/-! ## Calls and what they leave -/

structure Db where
  blobs : BlobFiles
  nextFileNumber : UInt64
  manifest : List Bytes

def Db.set (d : Db) : OpenSet :=
  { d.blobs.openSet with nextFileNumber := d.nextFileNumber, manifest := d.manifest }

/-- A notification of a compaction, or the accounting of a range deletion. -/
inductive Call where
  | compaction (info : CompactionJobInfo)
  | deleteRange (cf : UInt32) (tables : List Table)

namespace Call

def cf : Call → UInt32
  | compaction info => info.cfId
  | deleteRange cf _ => cf

/-- The differences that the call goes through; a failed compaction has none. -/
def diff : Call → List (UInt64 × Int64)
  | compaction info => if info.status.isSome then [] else info.blobFileSizeDiff
  | deleteRange _ tables => rangeDiff tables

def verdict (o : CFOptions) : Call → Int64 → TrackedFile → Verdict
  | compaction info => compactFile o (o.countSortedRun info.outputLevel)
  | deleteRange _ _ => rangeFile o

def pass (call : Call) (o : CFOptions) (latestSequence : Nat) (st : Storage) : Pass :=
  accountFiles (call.verdict o) latestSequence call.diff st

def ignored : Call → Bool
  | compaction info => info.status.isSome
  | deleteRange _ _ => false

/-- Does the call change the size of this file? A file that waits for the LSM counts
with the compaction that wrote it. -/
def Counts : Call → Int64 → TrackedFile → Prop
  | compaction _, delta, f => f.state = .pendingLSM ∧ 0 < delta ∨ f.state = .normal ∨ f.state = .toMerge
  | deleteRange _ _, _, f => f.state ≠ .obsolete

/-- The live data size of the file becomes zero in the call. -/
def Emptied (call : Call) (o : CFOptions) (st : Storage) (n : UInt64) : Prop :=
  ∃ delta f, call.diff.lookup n = some delta ∧ st.files n = some f ∧ call.Counts delta f ∧
    (call.verdict o delta f).file.liveDataSize = 0

/-- The range of the file is among more than `max_sorted_runs` overlapping ranges of
the candidates of the compaction. -/
def Swept (call : Call) (o : CFOptions) (st : Storage) (n : UInt64) : Prop :=
  match call with
  | compaction _ =>
    n ∈ sweptFiles o.maxSortedRuns (sortedEnds st (call.pass o 0 st).toMergeCandidates) []
  | deleteRange _ _ => False

end Call

/-- The call, with what its `LogAndApply` writes to the manifest. -/
def Db.exec (d : Db) (o : CFOptions) (latestSequence : Nat) (w : Write) (call : Call) : Db :=
  { d with
    blobs := match call with
      | .compaction info => onCompactionCompleted d.blobs o info latestSequence w
      | .deleteRange cf tables => accountRanges d.blobs o cf tables latestSequence w
    manifest :=
      if call.ignored ∨ call.cf ∉ d.blobs.ids ∨ ¬ o.levelMerge then d.manifest
      else
        let pass := call.pass o latestSequence (d.blobs.storage call.cf)
        ({ d with blobs := d.blobs.setStorage call.cf pass.storage }.set.logAndApply w
          pass.edit.toVersionEdit).2.manifest }

/-- The emptied files are obsolete after the call, if the write of the manifest has
succeeded, and are not recovered; other column families are as before. -/
structure Settles (call : Call) (o : CFOptions) (w : Write) (d d' : Db) : Prop where
  deleted : w = .ok → ∀ n, call.Emptied o (d.blobs.storage call.cf) n →
    (∃ f, (d'.blobs.storage call.cf).files n = some f ∧ f.state = .obsolete) ∧
    ∃ log set next, d'.manifest.mapM VersionEdit.decodeFrom = .ok log ∧
      recover d'.blobs.ids log = .ok (set, next) ∧ ∀ st, (call.cf, st) ∈ set → st.files n = none
  others : ∀ cf, cf ≠ call.cf → d'.blobs.storage cf = d.blobs.storage cf

theorem Call.Counts.live {call : Call} {delta : Int64} {f : TrackedFile} (h : call.Counts delta f) :
    f.state ≠ .obsolete := by
  cases call with
  | compaction info => rcases h with ⟨h, -⟩ | h | h <;> simp [h]
  | deleteRange cf tables => exact h

/-! ## The differences are maps -/

theorem Call.ordered_diff (call : Call) : Ordered call.diff := by
  cases call with
  | compaction info =>
    rw [Call.diff]
    split
    · exact List.Pairwise.nil
    · exact ordered_blobFileSizeDiff info
  | deleteRange cf tables => exact ordered_rangeDiff tables

/-! ## Verdicts -/

section

variable {o : CFOptions} (hmerge : o.levelMerge = true) (call : Call) (delta : Int64) (f : TrackedFile)

/-- What the manifest keeps of the file stays, and a file is deleted exactly if it
counts and has no live data left. No verdict makes a file obsolete or revives it. -/
structure VerdictOf (v : Verdict) : Prop where
  file : v.file.file = f.file
  obsolete : v.file.state = .obsolete ↔ f.state = .obsolete
  delete : v.delete = true ↔ call.Counts delta f ∧ v.file.liveDataSize = 0

def updatedVerdict (o : CFOptions) (mark : TrackedFile → Bool) (candidate : Bool) (delta : Int64)
    (f : TrackedFile) : Verdict :=
  let g := (f.updateLiveDataSize delta).2
  if o.levelMerge then
    if g.noLiveData then { file := g, delete := true }
    else if mark g then { file := g.fileStateTransit .needMerge }
    else { file := g, candidate := candidate }
  else { file := g }

include hmerge in
theorem verdictOf_updated (hcounts : call.Counts delta f) (hlive : f.state ≠ .obsolete)
    (mark : TrackedFile → Bool) (candidate : Bool) :
    VerdictOf call delta f (updatedVerdict o mark candidate delta f) := by
  obtain ⟨hfile, hstate⟩ := updateLiveDataSize_file f delta
  rw [updatedVerdict]
  generalize (f.updateLiveDataSize delta).2 = g at hfile hstate
  rw [if_pos hmerge]
  by_cases hnone : g.noLiveData = true
  · rw [if_pos hnone]
    refine ⟨hfile, by rw [hstate], ?_⟩
    have hzero : g.liveDataSize = 0 := by simpa [TrackedFile.noLiveData] using hnone
    simp [hcounts, hzero]
  · have hsome : g.liveDataSize ≠ 0 := by simpa [TrackedFile.noLiveData] using hnone
    rw [if_neg hnone]
    by_cases hmark : mark g = true
    · obtain ⟨hmfile, hmsize, hmstate⟩ := needMerge_file g
      rw [if_pos hmark]
      refine ⟨hmfile.trans hfile, ?_, ?_⟩
      · simp [hmstate, hlive]
      · simp [hmsize, hsome]
    · rw [if_neg hmark]
      exact ⟨hfile, by simp [hstate], by simp [hsome]⟩

include hmerge in
theorem verdictOf_call : VerdictOf call delta f (call.verdict o delta f) := by
  have hskip : ¬ call.Counts delta f → VerdictOf call delta f { file := f } := by
    intro h
    exact ⟨rfl, Iff.rfl, by simp [h]⟩
  cases call with
  | compaction info =>
    have hupdated : f.state = .normal ∨ f.state = .toMerge →
        VerdictOf (.compaction info) delta f (Call.verdict o (.compaction info) delta f) := by
      intro hs
      have hv : Call.verdict o (.compaction info) delta f = updatedVerdict o
          (fun g => g.file.fileLevel.toInt32.toInt ≥ o.numLevels - 2 ∧ o.discardable g)
          (o.countSortedRun info.outputLevel) delta f := by
        rcases hs with hs | hs <;>
          simp [Call.verdict, compactFile, TrackedFile.isObsolete, hs, updatedVerdict]
      have hcounts : Call.Counts (.compaction info) delta f := .inr hs
      rw [hv]
      exact verdictOf_updated hmerge _ delta f hcounts (by rcases hs with hs | hs <;> simp [hs]) _ _
    cases hs : f.state with
    | pendingLSM =>
      by_cases hd : delta ≤ 0
      · obtain ⟨hfile, hstate⟩ := updateLiveDataSize_file f (-delta)
        have hv : Call.verdict o (.compaction info) delta f
            = { file := (f.updateLiveDataSize (-delta)).2 } := by
          simp [Call.verdict, compactFile, TrackedFile.isObsolete, hs, hd]
        rw [hv]
        refine ⟨hfile, by rw [hstate], ?_⟩
        simp [Call.Counts, hs, Int64.not_lt.mpr hd]
      · have hcounts : Call.Counts (.compaction info) delta f := .inl ⟨hs, Int64.not_le.mp hd⟩
        refine ⟨?_, ?_, ?_⟩
        all_goals simp [Call.verdict, compactFile, TrackedFile.isObsolete, hs, hd,
          TrackedFile.fileStateTransit, TrackedFile.noLiveData, hcounts]
    | normal => exact hupdated (.inl hs)
    | toMerge => exact hupdated (.inr hs)
    | _ =>
      have hv : Call.verdict o (.compaction info) delta f = { file := f } := by
        simp [Call.verdict, compactFile, TrackedFile.isObsolete, hs]
      rw [hv]
      exact hskip (by simp [Call.Counts, hs])
  | deleteRange cf tables =>
    by_cases hs : f.state = .obsolete
    · have hv : Call.verdict o (.deleteRange cf tables) delta f = { file := f } := by
        simp [Call.verdict, rangeFile, TrackedFile.isObsolete, hs]
      rw [hv]
      exact hskip (not_not_intro hs)
    · have hv : Call.verdict o (.deleteRange cf tables) delta f
          = updatedVerdict o o.discardable false delta f := by
        simp [Call.verdict, rangeFile, TrackedFile.isObsolete, hs, updatedVerdict]
      have hcounts : Call.Counts (.deleteRange cf tables) delta f := hs
      rw [hv]
      exact verdictOf_updated hmerge _ delta f hcounts hs _ _

end

/-! ## The pass -/

variable {n : UInt64}

section

variable {o : CFOptions} (hmerge : o.levelMerge = true) (call : Call) (seq : Nat) (st : Storage)

theorem pass_of : PassOf (call.verdict o) call.diff st (call.pass o seq st) :=
  accountFiles_pass _ seq call.ordered_diff st

include hmerge in
theorem mem_edit_iff :
    n ∈ (call.pass o seq st).edit.deletedFiles.map (·.1) ↔ call.Emptied o st n := by
  rw [Call.pass, mem_deletedFiles _ seq call.ordered_diff]
  simp only [Call.Emptied, (verdictOf_call hmerge call _ _).delete]

include hmerge in
/-- The pass changes what is kept in memory of a file, and neither the rest nor
whether it is obsolete. -/
theorem pass_file {g : TrackedFile} (h : (call.pass o seq st).storage.files n = some g) :
    ∃ f, st.files n = some f ∧ g.file = f.file ∧ (g.state = .obsolete ↔ f.state = .obsolete) := by
  rw [(pass_of call seq st).files] at h
  obtain ⟨f, hf, rfl⟩ := Option.map_eq_some_iff.mp h
  refine ⟨f, hf, ?_⟩
  rw [after]
  cases call.diff.lookup n with
  | none => exact ⟨rfl, Iff.rfl⟩
  | some delta =>
    have hv := verdictOf_call hmerge call delta f
    exact ⟨hv.file, hv.obsolete⟩

include hmerge in
theorem erase_pass : (call.pass o seq st).storage.erase = st.erase := by
  have hfiles : (call.pass o seq st).storage.erase.files = st.erase.files := by
    funext n
    have hpass := (pass_of (o := o) call seq st).files n
    cases hf : st.files n with
    | none =>
      rw [hf, Option.map_none] at hpass
      simp [Storage.erase, hpass, hf]
    | some f =>
      rw [hf, Option.map_some] at hpass
      obtain ⟨f', hf', hfile, hob⟩ := pass_file hmerge call seq st hpass
      obtain rfl : f = f' := Option.some.inj (hf.symm.trans hf')
      have hflag : (after (call.verdict o) call.diff n f).isObsolete = f.isObsolete := by
        rw [Bool.eq_iff_iff]
        simpa [TrackedFile.isObsolete] using hob
      simp [Storage.erase, hpass, hf, hfile, hflag]
  have hlist : (call.pass o seq st).storage.erase.obsoleteFiles = st.erase.obsoleteFiles :=
    foldl_step_obsoleteFiles _ seq _ _
  rw [BlobStorage.mk.injEq]
  exact ⟨hfiles, hlist⟩

end

/-! ## The edit -/

variable {s : OpenSet} {edit : VersionEdit}

/-- `Seal` has nothing against deletions of files that are there and live. -/
theorem logAndApply_accepts (hadded : edit.addedFiles = [])
    (honce : (edit.deletedFiles.map (·.1)).Nodup)
    (hlive : ∀ f ∈ s.columnFamilies, f.1 = edit.columnFamilyId → ∀ x ∈ edit.deletedFiles,
      ∃ g, f.2.files x.1 = some g ∧ g.isObsolete = false) : (s.logAndApply .ok edit).1 = none := by
  have hown : Consistent ([] ++ [numbered s edit]) := by
    constructor
    · intro cf
      rw [nil_append, addedTo_singleton, show (numbered s edit).addedFiles = [] from hadded]
      simp
    · intro cf
      rw [nil_append, deletedFrom_singleton]
      split
      · exact honce
      · exact nodup_nil
    · simp [numbered]
  obtain ⟨c, hadd, hc⟩ := addEdit_ok (e := numbered s edit) collects_nil hown
  have hchecked : s.checked (numbered s edit) = .ok { c with isSealed := true } := by
    rw [OpenSet.checked, hadd, ok_bind, EditCollector.checkEdits, forM_ok, ok_bind]
    · rfl
    · intro f hf
      rw [hc.families, nil_append, gathered_numbered]
      split
      · rename_i hcf
        rw [CFEditCollector.check, hadded]
        refine forM_ok fun x hx => ?_
        obtain ⟨g, hg, hob⟩ := hlive f hf hcf.symm x hx
        simp [CFEditCollector.checkDeleted, hg, hob]
      · rfl
  rcases logAndApply_cases s .ok edit with ⟨status, hrefused⟩ | ⟨-, -, ⟨-, hw⟩ | happlied⟩
  · -- the checks have passed, so the record is written, whatever follows
    exfalso
    have hlength := congrArg (fun r => r.2.manifest.length) hrefused
    rw [OpenSet.logAndApply] at hlength
    dsimp only at hlength
    rw [← numbered, hchecked] at hlength
    dsimp only at hlength
    split at hlength <;> simp [OpenSet.addRecord] at hlength
  · exact absurd rfl hw
  · rw [happlied]

abbrev Db.pass (d : Db) (o : CFOptions) (call : Call) (seq : Nat) : Pass :=
  call.pass o seq (d.blobs.storage call.cf)

section

variable {o : CFOptions} (hmerge : o.levelMerge = true) (call : Call) (seq : Nat) {d : Db}

theorem mem_columnFamilies {f : UInt32 × BlobStorage} :
    f ∈ d.set.columnFamilies ↔ f.1 ∈ d.blobs.ids ∧ f.2 = (d.blobs.storage f.1).erase := by
  constructor
  · intro h
    obtain ⟨cf, hcf, rfl⟩ := mem_map.mp h
    exact ⟨hcf, rfl⟩
  · intro h
    exact mem_map.mpr ⟨f.1, h.1, by rw [← h.2]⟩

include hmerge in
/-- The edit is checked against the storages as they were before the pass. -/
theorem openSet_pass : (d.blobs.setStorage call.cf
    (d.pass o call seq).storage).openSet = d.blobs.openSet := by
  rw [BlobFiles.openSet, BlobFiles.openSet, OpenSet.mk.injEq]
  refine ⟨map_congr_left fun cf _ => congrArg (Prod.mk cf) ?_, rfl, rfl, rfl, rfl⟩
  by_cases hcf : cf = call.cf
  · subst hcf
    rw [setStorage_self, erase_pass hmerge]
  · rw [setStorage_of_ne _ hcf]

include hmerge in
/-- In column family 0 the edit of the pass is accepted. -/
theorem edit_accepted (hcf : call.cf = 0) (hs : s.columnFamilies = d.set.columnFamilies) :
    (s.logAndApply .ok (d.pass o call seq).edit.toVersionEdit).1 = none := by
  have hpass := pass_of (o := o) call seq (d.blobs.storage call.cf)
  refine logAndApply_accepts ?_ (nodup_deletedFiles _ seq call.ordered_diff _) ?_
  · simp [Edit.toVersionEdit, hpass.noAdded]
  · intro f hf hid x hx
    rw [hs, mem_columnFamilies] at hf
    obtain ⟨delta, g, -, hg, hdelete⟩ := hpass.deleted x hx
    have hzero : f.1 = call.cf := (hid.trans hpass.columnFamily).trans hcf.symm
    have hlive : g.state ≠ .obsolete := ((verdictOf_call hmerge call delta g).delete.mp hdelete).1.live
    refine ⟨⟨g.file, g.isObsolete⟩, ?_, by simp [TrackedFile.isObsolete, hlive]⟩
    rw [hf.2, hzero]
    simp [Storage.erase, hg]

include hmerge in
/-- In another column family an edit with a file is refused. -/
theorem edit_refused (hcf : call.cf ≠ 0) (h0 : 0 ∈ d.blobs.ids)
    (hdistinct : ∀ cf cf' n, ((d.blobs.storage cf).files n).isSome →
      ((d.blobs.storage cf').files n).isSome → cf = cf')
    (hn : call.Emptied o (d.blobs.storage call.cf) n) (hs : s.columnFamilies = d.set.columnFamilies)
    (w : Write) :
    ∃ status, s.logAndApply w (d.pass o call seq).edit.toVersionEdit
      = (some status, s) := by
  rcases logAndApply_cases s w _ with hrefused | ⟨-, hfits, -⟩
  · exact hrefused
  · exfalso
    have hpass := pass_of (o := o) call seq (d.blobs.storage call.cf)
    have hfit := hfits (0, (d.blobs.storage 0).erase) (by
      rw [hs, mem_columnFamilies]
      exact ⟨h0, rfl⟩)
    have hzero : (d.pass o call seq).edit.toVersionEdit.columnFamilyId
        = (0, (d.blobs.storage 0).erase).1 := hpass.columnFamily
    rw [gathered_numbered, if_pos hzero] at hfit
    obtain ⟨x, hx, rfl⟩ := mem_map.mp ((mem_edit_iff hmerge call seq _).mpr hn)
    obtain ⟨delta, f, -, hf, -⟩ := hn
    rcases hfit.deleted x hx with hadded | ⟨g, hg, -⟩
    · simp [Edit.toVersionEdit, hpass.noAdded] at hadded
    · obtain ⟨f₀, hf₀, -⟩ := Option.map_eq_some_iff.mp hg
      exact hcf (hdistinct call.cf 0 x.1 (by rw [hf]; rfl) (by rw [hf₀]; rfl))

end

/-! ## The storages after the call -/

section

variable {o : CFOptions} (hmerge : o.levelMerge = true) (call : Call) (seq : Nat) (w : Write) {d : Db}

def logged (o : CFOptions) (call : Call) (seq : Nat) (w : Write) (d : Db) : BlobFiles :=
  let pass := call.pass o seq (d.blobs.storage call.cf)
  ((d.blobs.setStorage call.cf pass.storage).logAndApply w pass.edit).2

def marked (o : CFOptions) (call : Call) (seq : Nat) (w : Write) (d : Db) : BlobFiles :=
  match call with
  | .compaction _ => (logged o call seq w d).setStorage call.cf
      (markFileIfNeedMerge ((logged o call seq w d).storage call.cf)
        (d.pass o call seq).toMergeCandidates o.maxSortedRuns)
  | .deleteRange _ _ => logged o call seq w d

variable (hignored : call.ignored = false) (hids : call.cf ∈ d.blobs.ids)

include hignored hids in
theorem blobs_exec : (d.exec o seq w call).blobs =
    if o.levelMerge then marked o call seq w d
    else d.blobs.setStorage call.cf (d.pass o call seq).storage := by
  cases call with
  | compaction info =>
    have hstatus : info.status.isSome = false := hignored
    have hmem : info.cfId ∈ d.blobs.ids := hids
    have hpass : (Call.compaction info).pass o seq = compactionPass o info seq := by
      funext st
      simp [Call.pass, Call.diff, Call.verdict, hstatus, compactionPass]
    simp only [Db.exec, onCompactionCompleted, marked, logged, Db.pass, hstatus, hmem, hpass, Call.cf,
      Bool.false_eq_true, not_true_eq_false, ↓reduceIte]
  | deleteRange c tables =>
    have hmem : c ∈ d.blobs.ids := hids
    simp only [Db.exec, accountRanges, hmem, not_true_eq_false, ↓reduceIte]
    rfl

include hmerge hignored hids in
theorem manifest_exec : (d.exec o seq w call).manifest = (d.set.logAndApply w
    (d.pass o call seq).edit.toVersionEdit).2.manifest := by
  have hset := openSet_pass hmerge call seq (d := d)
  simp only [Db.exec, hignored, hids, hmerge, Bool.false_eq_true, not_true_eq_false, or_self,
    ↓reduceIte, Db.set, hset]

include hmerge hignored hids in
theorem storage_exec_of_ne {cf : UInt32} (hcf : cf ≠ call.cf) :
    (d.exec o seq w call).blobs.storage cf = (logged o call seq w d).storage cf := by
  rw [blobs_exec call seq w hignored hids, if_pos hmerge]
  cases call with
  | compaction info => exact setStorage_of_ne _ hcf _
  | deleteRange c tables => rfl

def sweptBy (o : CFOptions) (call : Call) (st : Storage) (candidates : List UInt64) : List UInt64 :=
  match call with
  | .compaction _ => sweptFiles o.maxSortedRuns (sortedEnds st candidates) []
  | .deleteRange _ _ => []

include hmerge hignored hids in
theorem files_exec (n : UInt64) :
    ((d.exec o seq w call).blobs.storage call.cf).files n =
      (((logged o call seq w d).storage call.cf).files n).map fun f =>
        if n ∈ sweptBy o call ((logged o call seq w d).storage call.cf)
          (d.pass o call seq).toMergeCandidates
        then { f with state := .toMerge } else f := by
  rw [blobs_exec call seq w hignored hids, if_pos hmerge]
  cases call with
  | compaction info =>
    rw [marked, setStorage_self]
    exact markFileIfNeedMerge_files _ _ _ n
  | deleteRange c tables =>
    simp only [sweptBy, not_mem_nil, ↓reduceIte, Option.map_id']
    rfl

include hmerge in
/-- Column family 0: the edit is applied. -/
theorem logged_applied (hcf : call.cf = 0) : (logged o call seq .ok d).storage call.cf
    = (d.pass o call seq).storage.apply (d.pass o call seq).edit := by
  have hset := openSet_pass hmerge call seq (d := d)
  have hok := edit_accepted hmerge call seq hcf (d := d) (s := d.blobs.openSet) rfl
  have hid : (d.pass o call seq).edit.columnFamilyId = call.cf :=
    (pass_of call seq _).columnFamily.trans hcf.symm
  rw [logged, BlobFiles.logAndApply, hset, hok]
  dsimp only
  rw [hid, setStorage_self, setStorage_self]

variable (h0 : 0 ∈ d.blobs.ids)
  (hdistinct : ∀ cf cf' n, ((d.blobs.storage cf).files n).isSome →
    ((d.blobs.storage cf').files n).isSome → cf = cf')

include hmerge h0 hdistinct in
/-- Another column family: nothing but the pass has happened. -/
theorem logged_refused (hcf : call.cf ≠ 0) (hn : call.Emptied o (d.blobs.storage call.cf) n) :
    logged o call seq w d
    = d.blobs.setStorage call.cf (d.pass o call seq).storage := by
  have hset := openSet_pass hmerge call seq (d := d)
  obtain ⟨status, hrefused⟩ := edit_refused hmerge call seq hcf h0 hdistinct hn
    (s := d.blobs.openSet) rfl w
  rw [logged, BlobFiles.logAndApply, hset, hrefused]

include hmerge h0 hdistinct in
theorem logged_others {cf : UInt32} (hcf : cf ≠ call.cf) :
    (logged o call seq w d).storage cf = d.blobs.storage cf := by
  have hpass := pass_of (o := o) call seq (d.blobs.storage call.cf)
  by_cases hn : ∃ n, call.Emptied o (d.blobs.storage call.cf) n
  · obtain ⟨n, hn⟩ := hn
    by_cases hzero : call.cf = 0
    · -- the edit is for the column family of the call
      rcases logAndApply_storage (d.blobs.setStorage call.cf _) w _ cf with heq | ⟨hid, -⟩
      · exact heq.trans (setStorage_of_ne _ hcf _)
      · exact absurd (hid.trans (hpass.columnFamily.trans hzero.symm)) hcf
    · rw [logged_refused hmerge call seq w h0 hdistinct hzero hn, setStorage_of_ne _ hcf]
  · -- the edit is empty
    have hnone : (d.pass o call seq).edit.deletedFiles = [] := by
      rw [← map_eq_nil_iff (f := (·.1)), eq_nil_iff_forall_not_mem]
      intro n hmem
      exact hn ⟨n, (mem_edit_iff hmerge call seq _).mp hmem⟩
    rcases logAndApply_storage (d.blobs.setStorage call.cf _) w _ cf with heq | ⟨-, heq⟩
    · exact heq.trans (setStorage_of_ne _ hcf _)
    · refine heq.trans ?_
      rw [Storage.apply, hpass.noAdded, hnone, setStorage_of_ne _ hcf]
      rfl

include hmerge in
theorem logged_file (n : UInt64) :
    (((logged o call seq w d).storage call.cf).files n).map (·.file)
      = ((d.blobs.storage call.cf).files n).map (·.file) := by
  have hpass := pass_of (o := o) call seq (d.blobs.storage call.cf)
  have hkept : ((d.pass o call seq).storage.files n).map (·.file)
      = ((d.blobs.storage call.cf).files n).map (·.file) := by
    rw [hpass.files, Option.map_map]
    refine congrArg (fun g => ((d.blobs.storage call.cf).files n).map g) (funext fun f => ?_)
    rw [comp_apply, after]
    cases call.diff.lookup n with
    | none => rfl
    | some delta => exact (verdictOf_call hmerge call delta f).file
  rcases logAndApply_storage (d.blobs.setStorage call.cf (d.pass o call seq).storage) w
      (d.pass o call seq).edit call.cf with heq | ⟨-, heq⟩
  · rw [logged, heq, setStorage_self, hkept]
  · rw [logged, heq, setStorage_self, apply_deletes _ hpass.noAdded, Option.map_map, ← hkept]
    refine congrArg (fun g => ((d.pass o call seq).storage.files n).map g)
      (funext fun f => ?_)
    rw [comp_apply]
    split <;> rfl

include hmerge in
/-- What is marked at the end is known before the call. -/
theorem mem_sweptBy_iff :
    n ∈ sweptBy o call ((logged o call seq w d).storage call.cf)
        (d.pass o call seq).toMergeCandidates
      ↔ call.Swept o (d.blobs.storage call.cf) n := by
  have hcands : (d.pass o call seq).toMergeCandidates
      = (call.pass o 0 (d.blobs.storage call.cf)).toMergeCandidates := by
    have hnodup := nodup_keys call.ordered_diff
    rw [Db.pass, Call.pass, accountFiles, (foldl_step_flagged _ seq hnodup _).2, Call.pass, accountFiles,
      (foldl_step_flagged _ 0 hnodup _).2]
  have hends := sortedEnds_congr (logged_file hmerge call seq w (d := d))
  cases call with
  | compaction info => rw [sweptBy, Call.Swept, hends, hcands]
  | deleteRange cf tables => simp [sweptBy, Call.Swept]

include hmerge hignored hids in
/-- In column family 0 an emptied file that is not marked at the end is obsolete. -/
theorem emptied_obsolete (hcf : call.cf = 0) (hn : call.Emptied o (d.blobs.storage call.cf) n)
    (hswept : ¬ call.Swept o (d.blobs.storage call.cf) n) :
    ∃ f, ((d.exec o seq .ok call).blobs.storage call.cf).files n = some f ∧ f.state = .obsolete := by
  have hpass := pass_of (o := o) call seq (d.blobs.storage call.cf)
  have hmem := (mem_edit_iff hmerge call seq _).mpr hn
  obtain ⟨delta, f, -, hf, -⟩ := hn
  have hlogged : ((logged o call seq .ok d).storage call.cf).files n
      = some { after (call.verdict o) call.diff n f with state := .obsolete } := by
    rw [logged_applied hmerge call seq hcf, apply_deletes _ hpass.noAdded, hpass.files, hf]
    simp only [Option.map_some, hmem, ↓reduceIte]
  rw [files_exec hmerge call seq .ok hignored hids, hlogged, Option.map_some,
    if_neg fun hmem => hswept ((mem_sweptBy_iff hmerge call seq .ok).mp hmem)]
  exact ⟨_, rfl, rfl⟩

include hmerge hignored hids in
/-- A file that is marked at the end, or whose deletion could not be written, is not
obsolete. -/
theorem emptied_stays (hn : call.Emptied o (d.blobs.storage call.cf) n)
    (hstay : w ≠ .ok ∨ call.Swept o (d.blobs.storage call.cf) n) :
    ∃ f, ((d.exec o seq w call).blobs.storage call.cf).files n = some f ∧ f.state ≠ .obsolete := by
  have hpass := pass_of (o := o) call seq (d.blobs.storage call.cf)
  have hsame := logged_file hmerge call seq w (d := d) n
  obtain ⟨delta, f, hlookup, hf, hcounts, -⟩ := hn
  rw [hf, Option.map_some] at hsame
  obtain ⟨g, hg, -⟩ := Option.map_eq_some_iff.mp hsame
  rw [files_exec hmerge call seq w hignored hids, hg, Option.map_some]
  refine ⟨_, rfl, ?_⟩
  by_cases hswept : call.Swept o (d.blobs.storage call.cf) n
  · rw [if_pos ((mem_sweptBy_iff hmerge call seq w).mpr hswept)]
    exact FileState.noConfusion
  · rw [if_neg fun hmem => hswept ((mem_sweptBy_iff hmerge call seq w).mp hmem)]
    -- the write failed, so only the pass has happened
    obtain ⟨status, hfailed⟩ := logAndApply_failed d.blobs.openSet (hstay.resolve_right hswept)
      (d.pass o call seq).edit.toVersionEdit
    rw [logged, BlobFiles.logAndApply, openSet_pass hmerge, hfailed] at hg
    dsimp only at hg
    rw [setStorage_self] at hg
    obtain ⟨f', hf', -, hiff⟩ := pass_file hmerge call seq _ hg
    obtain rfl : f = f' := Option.some.inj (hf.symm.trans hf')
    exact fun hob => hcounts.live (hiff.mp hob)

end

/-! ## Recovery -/

theorem mem_of_forall₂ {α β : Type} {R : α → β → Prop} {xs : List α} {ys : List β}
    (h : List.Forall₂ R xs ys) {y : β} (hy : y ∈ ys) : ∃ x ∈ xs, R x y := by
  induction h with
  | nil => cases hy
  | cons hxy _ ih =>
    rcases mem_cons.mp hy with rfl | hy
    · exact ⟨_, mem_cons_self, hxy⟩
    · obtain ⟨x, hx, hr⟩ := ih hy
      exact ⟨x, mem_cons_of_mem _ hx, hr⟩

/-- A file that an accepted edit deletes is not recovered. -/
theorem recover_deleted {unused : List UInt64} {log : List VersionEdit}
    (hmirrors : Mirrors ⟨s, unused, []⟩ log) (hadded : edit.addedFiles = [])
    (hknown : edit.columnFamilyId ∈ s.columnFamilies.map (·.1))
    (hok : (s.logAndApply .ok edit).1 = none) (hn : n ∈ edit.deletedFiles.map (·.1)) :
    ∃ log' set next, (s.logAndApply .ok edit).2.manifest.mapM VersionEdit.decodeFrom = .ok log' ∧
      recover (s.columnFamilies.map (·.1)) log' = .ok (set, next) ∧
      ∀ st, (edit.columnFamilyId, st) ∈ set → st.files n = none := by
  obtain ⟨log', hafter, -⟩ := mirrors_logAndApply (w := .ok) hmirrors
    (by simp [VersionEdit.KeysFit, hadded]) (by simp [hadded]) (.inr hknown)
    (fun m _ e he => absurd he not_mem_nil)
  have hset : (State.after ⟨s, unused, []⟩ edit (s.logAndApply .ok edit)).set
      = (s.logAndApply .ok edit).2 := by
    rw [State.after, hok]
  have hfailed : (State.after ⟨s, unused, []⟩ edit (s.logAndApply .ok edit)).failed = [] := by
    rw [State.after, hok]
  obtain ⟨set, next, hrecover, hfiles, -⟩ := recover_of_mirrors hafter
  rw [hset] at hrecover hfiles
  simp only [hfailed] at hfiles
  rcases logAndApply_cases s .ok edit with ⟨status, hrefused⟩ | ⟨-, -, ⟨-, hw⟩ | happlied⟩
  · rw [hrefused] at hok
    cases hok
  · exact absurd rfl hw
  · rw [happlied] at hrecover hfiles
    refine ⟨log', set, next, ?_, ?_, ?_⟩
    · have hrecords := hafter.records
      rwa [hset] at hrecords
    · simpa [map_map, comp_def] using hrecover
    · intro st hst
      obtain ⟨live, hlive, hid, hsame⟩ := mem_of_forall₂ hfiles hst
      rw [hsame n (forall_mem_nil _)]
      obtain ⟨f, -, rfl⟩ := mem_map.mp hlive
      have hcf : edit.columnFamilyId = f.1 := hid
      rw [gathered_numbered, if_pos hcf]
      simp only [applied, hn, hadded, ↓reduceIte, map_nil, not_mem_nil]
      cases f.2.files n <;> rfl

/-! ## The result -/

/-- For every column family and every call: the files that it leaves without live
data are deleted, here and in the manifest, exactly if the column family is the
default one and none of them is marked to be merged at the end. No other column
family changes in any case. -/
theorem level_merge_deletes_iff {o : CFOptions} (hmerge : o.levelMerge = true) (call : Call)
    (seq : Nat) (w : Write) {d : Db} {unused : List UInt64} {log : List VersionEdit}
    (hmirrors : Mirrors ⟨d.set, unused, []⟩ log) (hids : call.cf ∈ d.blobs.ids)
    (h0 : 0 ∈ d.blobs.ids)
    (hdistinct : ∀ cf cf' n, ((d.blobs.storage cf).files n).isSome →
      ((d.blobs.storage cf').files n).isSome → cf = cf') :
    Settles call o w d (d.exec o seq w call) ↔
      (w = .ok → ∀ n, call.Emptied o (d.blobs.storage call.cf) n →
        call.cf = 0 ∧ ¬ call.Swept o (d.blobs.storage call.cf) n) := by
  cases hignored : call.ignored with
  | true =>
    have hnone : ∀ n, ¬ call.Emptied o (d.blobs.storage call.cf) n := by
      intro n hn
      obtain ⟨delta, f, hlookup, -⟩ := hn
      cases call with
      | compaction info =>
        have hstatus : info.status.isSome = true := hignored
        simp [Call.diff, hstatus] at hlookup
      | deleteRange cf tables => cases hignored
    have hblobs : (d.exec o seq w call).blobs = d.blobs := by
      cases call with
      | compaction info => exact if_pos hignored
      | deleteRange cf tables => cases hignored
    constructor
    · intro _ _ n hn
      exact absurd hn (hnone n)
    · intro _
      exact ⟨fun _ n hn => absurd hn (hnone n), fun cf _ => by rw [hblobs]⟩
  | false =>
    have hothers : ∀ cf, cf ≠ call.cf → (d.exec o seq w call).blobs.storage cf = d.blobs.storage cf := by
      intro cf hcf
      rw [storage_exec_of_ne hmerge call seq w hignored hids hcf,
        logged_others hmerge call seq w h0 hdistinct hcf]
    constructor
    · intro h hw n hn
      obtain ⟨⟨f, hf, hob⟩, -⟩ := h.deleted hw n hn
      rw [files_exec hmerge call seq w hignored hids] at hf
      obtain ⟨g, hg, rfl⟩ := Option.map_eq_some_iff.mp hf
      have hnot : ¬ call.Swept o (d.blobs.storage call.cf) n := by
        intro hswept
        rw [if_pos ((mem_sweptBy_iff hmerge call seq w).mpr hswept)] at hob
        cases hob
      refine ⟨?_, hnot⟩
      by_contra hcf
      -- the edit was refused, and the pass makes nothing obsolete
      rw [if_neg fun hmem => hnot ((mem_sweptBy_iff hmerge call seq w).mp hmem)] at hob
      rw [logged_refused hmerge call seq w h0 hdistinct hcf hn, setStorage_self] at hg
      obtain ⟨f₀, hf₀, -, hiff⟩ := pass_file hmerge call seq _ hg
      obtain ⟨delta, f₁, -, hf₁, hcounts, -⟩ := hn
      obtain rfl : f₀ = f₁ := Option.some.inj (hf₀.symm.trans hf₁)
      exact hcounts.live (hiff.mp hob)
    · intro h
      refine ⟨?_, hothers⟩
      intro hw n hn
      subst hw
      obtain ⟨hcf, hswept⟩ := h rfl n hn
      have hpass := pass_of (o := o) call seq (d.blobs.storage call.cf)
      have hmem := (mem_edit_iff hmerge call seq _).mpr hn
      constructor
      · exact emptied_obsolete hmerge call seq hignored hids hcf hn hswept
      · have hid : (d.pass o call seq).edit.toVersionEdit.columnFamilyId
            = call.cf := hpass.columnFamily.trans hcf.symm
        have hfamilies : d.set.columnFamilies.map (·.1) = d.blobs.ids := by
          simp [Db.set, BlobFiles.openSet, comp_def]
        have hexec : (d.exec o seq .ok call).blobs.ids = d.blobs.ids := by
          rw [blobs_exec call seq .ok hignored hids, if_pos hmerge]
          cases call with
          | compaction info => exact logAndApply_ids _ _ _
          | deleteRange cf tables => exact logAndApply_ids _ _ _
        have hrecover := recover_deleted hmirrors (by simp [Edit.toVersionEdit, hpass.noAdded])
          (by rw [hid, hfamilies]; exact hids) (edit_accepted hmerge call seq hcf (d := d) rfl) hmem
        rw [hid, hfamilies] at hrecover
        rw [hexec, manifest_exec hmerge call seq .ok hignored hids]
        exact hrecover

/-! ## One file -/

def oneFile (cf : UInt32) (liveDataSize : UInt64) (state : FileState) : Db where
  blobs := {
    ids := [0, 1]
    storage := fun cf' =>
      { files := fun n =>
          if cf' = cf ∧ n = 3 then some ⟨{ fileNumber := 3 }, liveDataSize, state⟩ else none } }
  nextFileNumber := 4
  manifest := [({ nextFileNumber := some 4, columnFamilyId := cf,
                  addedFiles := [{ fileNumber := 3 }] } : VersionEdit).encodeTo]

section

variable (cf : UInt32) (size : UInt64) (state : FileState)

def oneFileLog : List VersionEdit :=
  [{ nextFileNumber := some 4, columnFamilyId := cf, addedFiles := [{ fileNumber := 3 }] }]

theorem oneFile_consistent : Consistent (oneFileLog cf) where
  addedOnce cf' := by
    rw [oneFileLog, addedTo_singleton]
    split <;> simp
  deletedOnce cf' := by
    rw [oneFileLog, deletedFrom_singleton]
    split <;> simp
  numbered := by simp [oneFileLog]

theorem oneFile_erase (cf' : UInt32) (n : UInt64) (f : StoredFile) :
    ((oneFile cf size state).blobs.storage cf').erase.files n = some f ↔
      (cf' = cf ∧ n = 3) ∧ f = ⟨{ fileNumber := 3 }, state == .obsolete⟩ := by
  by_cases h : cf' = cf ∧ n = 3
  · simp [oneFile, Storage.erase, h, TrackedFile.isObsolete, eq_comm]
  · simp [oneFile, Storage.erase, h]

theorem oneFile_mirrors (hstate : state ≠ .obsolete) :
    Mirrors ⟨(oneFile cf size state).set, [], []⟩ (oneFileLog cf) where
  records := by
    have hkeys : ∀ e ∈ oneFileLog cf, e.KeysFit := by
      simp [oneFileLog, VersionEdit.KeysFit, BlobFileMeta.KeysFit]
    exact decode_records hkeys
  consistent := oneFile_consistent cf
  paired cf' := by
    intro x hx
    rw [gathered, oneFileLog, deletedFrom_singleton] at hx
    simp at hx
  next := by
    refine ⟨4, rfl, UInt64.le_refl 4, ?_⟩
    intro cf' f hf
    rw [oneFileLog, addedTo_singleton] at hf
    split at hf
    · rw [mem_singleton.mp hf]
      decide
    · cases hf
  unused_lt n hn := absurd hn not_mem_nil
  unused_new n hn := absurd hn not_mem_nil
  familiesOnce := by
    show List.Nodup [(0 : UInt32), 1]
    decide
  storage f hf := by
    rw [mem_columnFamilies] at hf
    rw [hf.2]
    refine ⟨?_, forall_mem_nil _, nodup_nil⟩
    intro n g hg
    obtain ⟨⟨-, rfl⟩, rfl⟩ := (oneFile_erase cf size state f.1 n g).mp hg
    refine ⟨rfl, ?_, not_mem_nil, by simp [BlobFileMeta.KeysFit]⟩
    show (3 : UInt64) < 4
    decide
  agrees f hf := by
    intro n _ g
    rw [mem_columnFamilies] at hf
    rw [hf.2, oneFile_erase, replayed_files (oneFile_consistent cf), oneFileLog, addedTo_singleton,
      deletedFrom_singleton]
    have hlive : (state == .obsolete) = false := by simpa using hstate
    rw [hlive]
    obtain ⟨file, ob⟩ := g
    by_cases hcf : cf = f.1
    · subst hcf
      simp only [↓reduceIte, mem_singleton, map_nil, not_mem_nil, not_false_eq_true,
        and_true, true_and, StoredFile.mk.injEq]
      constructor
      · intro h
        obtain ⟨rfl, rfl, rfl⟩ := h
        exact ⟨⟨rfl, rfl, rfl⟩, rfl⟩
      · intro h
        obtain ⟨⟨rfl, rfl, rfl⟩, -⟩ := h
        exact ⟨rfl, rfl, rfl⟩
    · simp [hcf, Ne.symm hcf]

theorem oneFile_distinct (cf₁ cf₂ : UInt32) (n : UInt64)
    (h₁ : (((oneFile cf size state).blobs.storage cf₁).files n).isSome)
    (h₂ : (((oneFile cf size state).blobs.storage cf₂).files n).isSome) : cf₁ = cf₂ := by
  by_cases hcf₁ : cf₁ = cf ∧ n = 3
  · by_cases hcf₂ : cf₂ = cf ∧ n = 3
    · rw [hcf₁.1, hcf₂.1]
    · simp [oneFile, hcf₂] at h₂
  · simp [oneFile, hcf₁] at h₁

end

def indexTable : Table where
  number := 9
  entries := [⟨[1], ({ fileNumber := 3, blobHandle := { size := 10 } } :
    Format.BlobFormat.BlobIndex).encodeTo,
    .blobIndex⟩]

def indexProperties (n : UInt64) : Option (List (String × Bytes)) :=
  if n = 9 then some indexTable.userCollectedProperties else none

def dropTable (cf : UInt32) : CompactionJobInfo where
  cfId := cf
  inputFiles := [9]
  outputFiles := []
  outputLevel := 1
  tableProperties := indexProperties

def writeTable (cf : UInt32) : CompactionJobInfo := { dropTable cf with inputFiles := [], outputFiles := [9] }

/-- Deleting the range of the only table of the default column family. -/
theorem level_merge_deletes_default :
    Call.Emptied (.deleteRange 0 [indexTable]) { levelMerge := true }
      ((oneFile 0 10 .normal).blobs.storage 0) 3 ∧
    Settles (.deleteRange 0 [indexTable]) { levelMerge := true } .ok (oneFile 0 10 .normal)
      ((oneFile 0 10 .normal).exec { levelMerge := true } 7 .ok (.deleteRange 0 [indexTable])) := by
  refine ⟨⟨-10, _, rfl, rfl, ?_, rfl⟩, ?_⟩
  · show FileState.normal ≠ .obsolete
    decide
  · exact (level_merge_deletes_iff rfl (.deleteRange 0 [indexTable]) 7 .ok
      (oneFile_mirrors 0 10 .normal (by decide)) (by decide) (by decide)
      (oneFile_distinct 0 10 .normal)).mpr fun _ n _ => ⟨rfl, id⟩

/-- In column family 1 a compaction drops the only table: its file has no live data,
and stays. In column family 0 a late notification finds that nothing of its file is
left, deletes it and then marks it, so it is not obsolete. -/
theorem emptied_files_stay :
    (Mirrors ⟨(oneFile 1 10 .normal).set, [], []⟩ (oneFileLog 1) ∧
      Call.Emptied (.compaction (dropTable 1)) { levelMerge := true }
        ((oneFile 1 10 .normal).blobs.storage 1) 3 ∧
      ∃ f, (((oneFile 1 10 .normal).exec { levelMerge := true } 7 .ok
        (.compaction (dropTable 1))).blobs.storage 1).files 3 = some f ∧ f.state = .normal) ∧
    Mirrors ⟨(oneFile 0 10 .pendingLSM).set, [], []⟩ (oneFileLog 0) ∧
      Call.Emptied (.compaction (writeTable 0)) { levelMerge := true, maxSortedRuns := 0 }
        ((oneFile 0 10 .pendingLSM).blobs.storage 0) 3 ∧
      ∃ f, (((oneFile 0 10 .pendingLSM).exec { levelMerge := true, maxSortedRuns := 0 } 7 .ok
        (.compaction (writeTable 0))).blobs.storage 0).files 3 = some f ∧ f.state = .toMerge := by
  refine ⟨⟨oneFile_mirrors 1 10 .normal (by decide), ⟨-10, _, rfl, rfl, .inr (.inl rfl), rfl⟩,
    _, rfl, rfl⟩, oneFile_mirrors 0 10 .pendingLSM (by decide),
    ⟨10, _, rfl, rfl, .inl ⟨rfl, by decide⟩, rfl⟩, _, rfl, rfl⟩

end TitanGC.Accounting.LevelMerge
