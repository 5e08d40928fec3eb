import TitanGC.Accounting.GcHistory
import TitanGC.Accounting.Preservation
import TitanGC.Accounting.StorageIndexes
import TitanGC.Scheduling.Jobs

/-!
# The calls of `FileStateTransit`

Flushes, compactions, level merge, garbage collection and the two deletions by range
change the state of a blob file through `FileStateTransit`, whose assertions say in
which states an event may come. A build without assertions makes the transition
anyway. For every step there are the events that it sends to each file, in order; the
state of a file after a step is that before it, with these events applied. Each step
is what one thread does while it holds `mutex_`.
-/

namespace TitanGC.Scheduling.Transitions

open Lib.ByteCoding Lib.OrderedMap
open List hiding after
open Manifest.VersionEdits Manifest.Logging Manifest.Mirror
open Accounting.SizeCollector Accounting.Tracking Accounting.Listener
open Accounting.History (Event notify finishEdit refs Referenced Sane foldl_extract)
open Accounting.Preservation (EventOk EventOk.totals)
open Accounting.StorageIndexes (fits_storage)
open Picker Accounting
open Jobs (Job outputEdit deleteEdit deleteInputsEdit)
open BlobFiles

/-! ## One file -/

def Asserts (s : FileState) : FileEvent → Prop
  | .flushCompleted => s = .pendingLSM ∨ s = .pendingGC ∨ s = .normal ∨ s = .beingGC ∨ s = .obsolete
  -- an obsolete file is left alone before the assertion
  | .gcCompleted => s = .obsolete ∨ s = .pendingGC ∨ s = .beingGC
  | .compactionCompleted => s = .pendingLSM
  | .gcBegin => s = .normal
  | .gcOutput | .flushOrCompactionOutput | .dbRestart => s = .init
  | .delete => s ≠ .obsolete
  | .needMerge => s = .toMerge ∨ s = .normal
  | .reset => True
  | .init => False

instance (s : FileState) (e : FileEvent) : Decidable (Asserts s e) := by
  cases e <;> unfold Asserts <;> infer_instance

def next (s : FileState) (e : FileEvent) : FileState :=
  (({ file := { fileNumber := 0 }, state := s } : TrackedFile).fileStateTransit e).state

theorem fileStateTransit_state (f : TrackedFile) (e : FileEvent) :
    (f.fileStateTransit e).state = next f.state e := by
  cases e with
  | flushCompleted => simp only [next, TrackedFile.fileStateTransit]; split <;> rfl
  | gcCompleted => simp only [next, TrackedFile.fileStateTransit]; split <;> rfl
  | needMerge => simp only [next, TrackedFile.fileStateTransit]; split <;> rfl
  | _ => rfl

/-- The state of a file; one that is not in the storage has just been created. -/
def stateIn (st : Storage) (n : UInt64) : FileState := (st.files n).elim .init (·.state)

def stateOf (b : BlobFiles) (cf : UInt32) (n : UInt64) : FileState := stateIn (b.storage cf) n

variable {st : Storage} {b : BlobFiles} {cf : UInt32} {verdict : Int64 → TrackedFile → Verdict}
  {diff : List (UInt64 × Int64)} {pass : Pass} {e : Edit}

theorem stateIn_some {n : UInt64} {f : TrackedFile} (h : st.files n = some f) : stateIn st n = f.state := by
  rw [stateIn, h]
  rfl

/-! ## The events of a call -/

def flushEvents (f : TrackedFile) : List FileEvent := if f.state ≠ .pendingLSM then [] else [.flushCompleted]

def compactEvents (o : CFOptions) (delta : Int64) (f : TrackedFile) : List FileEvent :=
  if f.isObsolete then []
  else if f.state = .pendingLSM then if delta ≤ 0 then [] else [.compactionCompleted]
  else if f.state = .normal ∨ f.state = .toMerge then
    let f := (f.updateLiveDataSize delta).2
    if o.levelMerge then
      if f.noLiveData then []
      else if f.file.fileLevel.toInt32.toInt ≥ o.numLevels - 2 ∧ o.discardable f then [.needMerge]
      else []
    else []
  else []

def rangeEvents (o : CFOptions) (delta : Int64) (f : TrackedFile) : List FileEvent :=
  if f.isObsolete then []
  else
    let f := (f.updateLiveDataSize delta).2
    if o.levelMerge then
      if f.noLiveData then []
      else if o.discardable f then [.needMerge]
      else []
    else []

/-- The loop over the differences comes to each file once. -/
def passEvents (events : Int64 → TrackedFile → List FileEvent) (diff : List (UInt64 × Int64)) (st : Storage)
    (n : UInt64) : List FileEvent :=
  match diff.lookup n, st.files n with
  | some d, some f => events d f
  | _, _ => []

/-- `MarkFileObsolete`, for the files that an edit deletes. -/
def editEvents (b : BlobFiles) (w : Write) (e : Edit) (cf : UInt32) (n : UInt64) : List FileEvent :=
  if (b.logAndApply w e).1 = none ∧ cf = e.columnFamilyId ∧ n ∈ e.deletedFiles.map (·.1) then [.delete]
  else []

def sweepEvents (st : Storage) (files : List UInt64) (maxSortedRuns : Nat) (n : UInt64) : List FileEvent :=
  replicate ((sweptFiles maxSortedRuns (sortedEnds st files) []).count n) .needMerge

/-- A file that has left the storage was obsolete; what its event leaves is not seen. -/
def transitEvents (st : Storage) (event : FileEvent) (files : List UInt64) (n : UInt64) : List FileEvent :=
  if (st.files n).isSome then replicate (files.count n) event else []

def only (cf : UInt32) (events : UInt64 → List FileEvent) (cf' : UInt32) (n : UInt64) : List FileEvent :=
  if cf' = cf then events n else []

def flushDiff (t : Table) : List (UInt64 × Int64) :=
  (extractGCStatsFromTableProperty t.userCollectedProperties true []).toOption.getD []

def notifyEvents (options : UInt32 → CFOptions) (b : BlobFiles) (cf : UInt32) (latestSequence : Nat)
    (w : Write) :
    Event → UInt32 → UInt64 → List FileEvent
  | .flush t, cf', n =>
    if cf ∉ b.ids then []
    else only cf (passEvents (fun _ => flushEvents) (flushDiff t) (b.storage cf)) cf' n
  | .compaction status inputs outputs outputLevel, cf', n =>
    let o := options cf
    let info := Event.jobInfo cf status inputs outputs outputLevel
    if status.isSome ∨ cf ∉ b.ids then []
    else
      let pass := compactionPass o info latestSequence (b.storage cf)
      let passed := b.setStorage cf pass.storage
      let logged := (passed.logAndApply w pass.edit).2
      only cf (passEvents (compactEvents o) info.blobFileSizeDiff (b.storage cf)) cf' n ++
        if o.levelMerge then
          editEvents passed w pass.edit cf' n ++
            only cf (sweepEvents (logged.storage cf) pass.toMergeCandidates o.maxSortedRuns) cf' n
        else []

def accountRangesEvents (b : BlobFiles) (o : CFOptions) (cf : UInt32) (tables : List Table)
    (latestSequence : Nat) (w : Write) (cf' : UInt32) (n : UInt64) : List FileEvent :=
  if cf ∉ b.ids then []
  else
    let pass := rangePass o tables latestSequence (b.storage cf)
    only cf (passEvents (rangeEvents o) (rangeDiff tables) (b.storage cf)) cf' n ++
      if o.levelMerge then editEvents (b.setStorage cf pass.storage) w pass.edit cf' n else []

/-! ## The events are the transitions -/

/-- From `b` to `b'` no file comes or goes, and each receives its events. -/
structure Sends (sent : UInt32 → UInt64 → List FileEvent) (b b' : BlobFiles) : Prop where
  ids : b'.ids = b.ids
  there : ∀ cf n, ((b'.storage cf).files n).isSome = ((b.storage cf).files n).isSome
  state : ∀ cf n, stateOf b' cf n = (sent cf n).foldl next (stateOf b cf n)
  marked : ∀ cf, ∀ x ∈ (b'.storage cf).obsoleteFiles,
    x ∈ (b.storage cf).obsoleteFiles ∨ .delete ∈ sent cf x.1

theorem Sends.refl (b : BlobFiles) : Sends (fun _ _ => []) b b :=
  ⟨rfl, fun _ _ => rfl, fun _ _ => rfl, fun _ _ hx => .inl hx⟩

theorem Sends.trans {sent sent' : UInt32 → UInt64 → List FileEvent} {b₁ b₂ : BlobFiles}
    (h : Sends sent b b₁) (h' : Sends sent' b₁ b₂) : Sends (fun cf n => sent cf n ++ sent' cf n) b b₂ where
  ids := h'.ids.trans h.ids
  there cf n := (h'.there cf n).trans (h.there cf n)
  state cf n := by rw [foldl_append, ← h.state, h'.state]
  marked cf x hx := by
    rcases h'.marked cf x hx with hx | hx
    · exact (h.marked cf x hx).imp_right (mem_append_left _)
    · exact .inr (mem_append_right _ hx)

/-- Only the files of one column family receive events. -/
theorem sends_family {sent : UInt64 → List FileEvent}
    (hthere : ∀ n, (st.files n).isSome = ((b.storage cf).files n).isSome)
    (hstate : ∀ n, stateIn st n = (sent n).foldl next (stateIn (b.storage cf) n))
    (hmarked : ∀ x ∈ st.obsoleteFiles, x ∈ (b.storage cf).obsoleteFiles ∨ .delete ∈ sent x.1) :
    Sends (only cf sent) b (b.setStorage cf st) := by
  refine ⟨rfl, fun cf' n => ?_, fun cf' n => ?_, fun cf' x hx => ?_⟩
  · by_cases hcf : cf' = cf
    · subst hcf
      rw [setStorage_self]
      exact hthere n
    · rw [setStorage_of_ne b hcf]
  · rw [stateOf, stateOf, only]
    by_cases hcf : cf' = cf
    · subst hcf
      rw [setStorage_self, if_pos rfl]
      exact hstate n
    · rw [setStorage_of_ne b hcf, if_neg hcf]
      rfl
  · rw [only]
    by_cases hcf : cf' = cf
    · subst hcf
      rw [setStorage_self] at hx
      rw [if_pos rfl]
      exact hmarked x hx
    · rw [setStorage_of_ne b hcf] at hx
      exact .inl hx

/-! ### Passes -/

theorem sends_pass {sent : Int64 → TrackedFile → List FileEvent}
    (hverdict : ∀ d f, (verdict d f).file.state = (sent d f).foldl next f.state)
    (hpass : PassOf verdict diff (b.storage cf) pass) :
    Sends (only cf (passEvents sent diff (b.storage cf))) b (b.setStorage cf pass.storage) := by
  refine sends_family (fun n => ?_) (fun n => ?_) fun x hx => .inl (hpass.obsoleteFiles ▸ hx)
  · rw [hpass.files, Option.isSome_map]
  · rw [stateIn, stateIn, hpass.files, passEvents]
    cases hfile : (b.storage cf).files n with
    | none => cases diff.lookup n <;> rfl
    | some f =>
      cases hlookup : diff.lookup n with
      | none => simp [after, hlookup]
      | some d =>
        simp only [Option.map_some, Option.elim_some, after, hlookup]
        exact hverdict d f

theorem flushFile_state (d : Int64) (f : TrackedFile) :
    (flushFile d f).file.state = (flushEvents f).foldl next f.state := by
  rw [flushFile, flushEvents]
  split
  · rfl
  · exact fileStateTransit_state _ .flushCompleted

theorem compactFile_state (o : CFOptions) (run : Bool) (d : Int64) (f : TrackedFile) :
    (compactFile o run d f).file.state = (compactEvents o d f).foldl next f.state := by
  have hlive := (updateLiveDataSize_file f d).2
  rw [compactFile, compactEvents]
  split
  · rfl
  · split
    · split
      · exact (updateLiveDataSize_file f (-d)).2
      · exact fileStateTransit_state _ .compactionCompleted
    · split
      · dsimp only
        generalize (f.updateLiveDataSize d).2 = g at hlive ⊢
        split
        · split
          · exact hlive
          · split
            · rw [← hlive]
              exact fileStateTransit_state g .needMerge
            · exact hlive
        · exact hlive
      · rfl

theorem rangeFile_state (o : CFOptions) (d : Int64) (f : TrackedFile) :
    (rangeFile o d f).file.state = (rangeEvents o d f).foldl next f.state := by
  have hlive := (updateLiveDataSize_file f d).2
  rw [rangeFile, rangeEvents]
  split
  · rfl
  · dsimp only
    generalize (f.updateLiveDataSize d).2 = g at hlive ⊢
    split
    · split
      · exact hlive
      · split
        · rw [← hlive]
          exact fileStateTransit_state g .needMerge
        · exact hlive
    · exact hlive

/-! ### Edits -/

/-- An edit that only deletes and is accepted names files that are there and not obsolete. -/
theorem accepted_deletes {w : Write} (hadded : e.addedFiles = []) (hcf : e.columnFamilyId ∈ b.ids)
    (haccepted : (b.logAndApply w e).1 = none) :
    (b.logAndApply w e).2 = b.setStorage e.columnFamilyId ((b.storage e.columnFamilyId).apply e) ∧
      ∀ n ∈ e.deletedFiles.map (·.1), ∃ f, (b.storage e.columnFamilyId).files n = some f ∧
        f.isObsolete = false := by
  rw [BlobFiles.logAndApply] at haccepted ⊢
  rcases logAndApply_cases b.openSet w e.toVersionEdit with ⟨status, h⟩ | ⟨hown, hfits, ⟨⟨status, h⟩, -⟩ | h⟩
  · rw [h] at haccepted
    cases haccepted
  · rw [h] at haccepted
    cases haccepted
  · rw [h]
    refine ⟨rfl, fun n hn => ?_⟩
    obtain ⟨d, hd, rfl⟩ := mem_map.mp hn
    have hfit := fits_storage hown
      (hfits (e.columnFamilyId, (b.storage e.columnFamilyId).erase) (mem_map_of_mem hcf))
    rcases hfit.2.2.2 d hd with hpaired | hfound
    · rw [hadded] at hpaired
      exact absurd hpaired not_mem_nil
    · exact hfound

theorem refused_same {w : Write} (h : (b.logAndApply w e).1 ≠ none) : (b.logAndApply w e).2 = b := by
  rw [BlobFiles.logAndApply] at h ⊢
  cases hstatus : (b.openSet.logAndApply w e.toVersionEdit).1 with
  | some status => rfl
  | none =>
    rw [hstatus] at h
    exact absurd rfl h

theorem sends_edit (w : Write) (hadded : e.addedFiles = []) (hcf : e.columnFamilyId ∈ b.ids) :
    Sends (editEvents b w e) b (b.logAndApply w e).2 := by
  by_cases haccepted : (b.logAndApply w e).1 = none
  · obtain ⟨hblobs, hthere⟩ := accepted_deletes hadded hcf haccepted
    have hsent : editEvents b w e = only e.columnFamilyId fun n =>
        if n ∈ e.deletedFiles.map (·.1) then [.delete] else [] := by
      funext cf n
      rw [editEvents, only]
      by_cases hfamily : cf = e.columnFamilyId
      · simp only [haccepted, hfamily, true_and, if_true]
      · simp only [hfamily, false_and, and_false, if_false]
    rw [hblobs, hsent]
    refine sends_family (fun n => ?_) (fun n => ?_) fun x hx => ?_
    · rw [apply_deletes _ hadded, Option.isSome_map]
    · rw [stateIn, stateIn, apply_deletes _ hadded]
      split
      · rename_i hn
        obtain ⟨f, hf, -⟩ := hthere n hn
        rw [hf]
        rfl
      · cases (b.storage e.columnFamilyId).files n <;> rfl
    · rcases apply_deletes_obsoleteFiles _ hadded hx with hold | hnew
      · exact .inl hold
      · rw [if_pos hnew]
        exact .inr mem_cons_self
  · have hsent : editEvents b w e = fun _ _ => [] := by
      funext cf n
      rw [editEvents, if_neg fun h => haccepted h.1]
    rw [refused_same haccepted, hsent]
    exact Sends.refl b

/-! ### Marks -/

theorem foldl_needMerge (k : Nat) (s : FileState) :
    (replicate k FileEvent.needMerge).foldl next s = if k = 0 then s else .toMerge := by
  induction k generalizing s with
  | zero => rfl
  | succ k ih =>
    have hnext : next s .needMerge = .toMerge := by cases s <;> rfl
    rw [replicate_succ, foldl_cons, hnext, ih, if_neg (Nat.succ_ne_zero k)]
    split <;> rfl

theorem sends_sweep {files : List UInt64} (maxSortedRuns : Nat)
    (hfiles : ∀ n ∈ files, ((b.storage cf).files n).isSome) :
    Sends (only cf (sweepEvents (b.storage cf) files maxSortedRuns)) b
      (b.setStorage cf (markFileIfNeedMerge (b.storage cf) files maxSortedRuns)) := by
  refine sends_family (fun n => ?_) (fun n => ?_) fun x hx =>
    .inl (sweep_obsoleteFiles maxSortedRuns _ [] (b.storage cf) ▸ hx)
  · rw [markFileIfNeedMerge_files, Option.isSome_map]
  · rw [stateIn, stateIn, markFileIfNeedMerge_files, sweepEvents, foldl_needMerge]
    by_cases hn : n ∈ sweptFiles maxSortedRuns (sortedEnds (b.storage cf) files) []
    · obtain ⟨f, hf⟩ := Option.isSome_iff_exists.mp (hfiles n (mem_of_swept hn))
      rw [hf, if_neg (count_pos_iff.mpr hn).ne']
      simp [hn]
    · rw [if_pos (count_eq_zero.mpr hn)]
      cases (b.storage cf).files n with
      | none => rfl
      | some f => simp [hn]

theorem transitAll_state (event : FileEvent) (files : List UInt64) (st : Storage) (n : UInt64) :
    ((transitAll st event files).files n).isSome = (st.files n).isSome ∧
      stateIn (transitAll st event files) n =
        (transitEvents st event files n).foldl next (stateIn st n) := by
  induction files generalizing st with
  | nil =>
    rw [transitEvents, count_nil, replicate_zero, ite_self]
    exact ⟨rfl, rfl⟩
  | cons k files ih =>
    obtain ⟨hthere, hstate⟩ := ih (st.modify k (·.fileStateTransit event))
    rw [show transitAll st event (k :: files) =
      transitAll (st.modify k (·.fileStateTransit event)) event files
      from rfl, hthere, hstate, modify_files, transitEvents, transitEvents, stateIn, stateIn, modify_files]
    by_cases hn : n = k
    · subst hn
      rw [if_pos rfl]
      cases st.files n with
      | none => exact ⟨rfl, rfl⟩
      | some f =>
        refine ⟨rfl, ?_⟩
        rw [count_cons_self, replicate_succ]
        simp only [if_true, Option.map_some, Option.isSome_some, Option.elim_some, foldl_cons,
          fileStateTransit_state]
    · rw [if_neg hn, count_cons_of_ne (Ne.symm hn)]
      exact ⟨rfl, rfl⟩

theorem sends_transit (b : BlobFiles) (cf : UInt32) (event : FileEvent) (files : List UInt64) :
    Sends (only cf (transitEvents (b.storage cf) event files)) b
      (b.setStorage cf (transitAll (b.storage cf) event files)) :=
  sends_family (fun n => (transitAll_state event files _ n).1) (fun n => (transitAll_state event files _ n).2)
    fun _ hx => .inl (transitAll_obsoleteFiles (b.storage cf) event files ▸ hx)

theorem releaseGcFiles_eq (st : Storage) (j : Job) :
    releaseGcFiles st j.inputs j.outputs = transitAll st .gcCompleted j.files :=
  (foldl_append ..).symm

/-! ### Notifications -/

theorem pass_candidates (hpass : PassOf verdict diff st pass) {n : UInt64} (hn : n ∈ pass.toMergeCandidates) :
    (st.files n).isSome := by
  obtain ⟨d, f, -, hf, -⟩ := hpass.candidates n hn
  rw [hf]
  rfl

/-- A pass whose edit is logged. The edit is for column family 0. -/
theorem sends_logPass {sent : Int64 → TrackedFile → List FileEvent}
    (hverdict : ∀ d f, (verdict d f).file.state = (sent d f).foldl next f.state) (hdefault : 0 ∈ b.ids)
    (hpass : PassOf verdict diff (b.storage cf) pass) (w : Write) :
    Sends (fun cf' n => only cf (passEvents sent diff (b.storage cf)) cf' n ++
        editEvents (b.setStorage cf pass.storage) w pass.edit cf' n) b
      ((b.setStorage cf pass.storage).logAndApply w pass.edit).2 :=
  (sends_pass hverdict hpass).trans (sends_edit w hpass.noAdded (hpass.columnFamily ▸ hdefault))

variable (options : UInt32 → CFOptions)

theorem sends_flush (b : BlobFiles) (cf : UInt32) (latestSequence : Nat) (w : Write) (t : Table) :
    Sends (notifyEvents options b cf latestSequence w (.flush t)) b
      (notify options b cf latestSequence w (.flush t)) := by
  have hordered : Ordered (flushDiff t) := ordered_extract_getD List.Pairwise.nil
  unfold notifyEvents notify onFlushCompleted
  dsimp only
  split
  · exact Sends.refl b
  · exact sends_pass flushFile_state (accountFiles_pass flushFile 0 hordered (b.storage cf))

theorem sends_compaction (hdefault : 0 ∈ b.ids) (cf : UInt32) (latestSequence : Nat) (w : Write)
    (inputs outputs : List Table) (outputLevel : Int) :
    Sends (notifyEvents options b cf latestSequence w (.compaction none inputs outputs outputLevel)) b
      (notify options b cf latestSequence w (.compaction none inputs outputs outputLevel)) := by
  have hpass := accountFiles_pass (compactFile (options cf) ((options cf).countSortedRun outputLevel))
    latestSequence (ordered_blobFileSizeDiff (Event.jobInfo cf none inputs outputs outputLevel))
      (b.storage cf)
  have hstate := compactFile_state (options cf) ((options cf).countSortedRun outputLevel)
  unfold notifyEvents notify onCompactionCompleted
  dsimp only [Event.jobInfo, compactionPass] at hpass ⊢
  by_cases hcf : cf ∈ b.ids
  · simp only [Option.isSome_none, Bool.false_eq_true, hcf, not_true, or_self, if_false]
    cases hmerge : (options cf).levelMerge with
    | false =>
      simp only [Bool.false_eq_true, if_false, append_nil]
      exact sends_pass hstate hpass
    | true =>
      simp only [if_true, ← append_assoc]
      have hlogged := sends_logPass hstate hdefault hpass w
      refine hlogged.trans (sends_sweep _ fun n hn => ?_)
      rw [hlogged.there]
      exact pass_candidates hpass hn
  · simp only [Option.isSome_none, Bool.false_eq_true, hcf, not_false_eq_true, or_true, if_false, if_true]
    exact Sends.refl b

theorem sends_notify (hdefault : 0 ∈ b.ids) (cf : UInt32) (latestSequence : Nat) (w : Write) (e : Event) :
    Sends (notifyEvents options b cf latestSequence w e) b (notify options b cf latestSequence w e) := by
  cases e with
  | flush t => exact sends_flush options b cf latestSequence w t
  | compaction status inputs outputs outputLevel =>
    cases status with
    | none => exact sends_compaction options hdefault cf latestSequence w inputs outputs outputLevel
    | some status => exact Sends.refl b

/-! ### Deletion of ranges -/

theorem sends_accountRanges (hdefault : 0 ∈ b.ids) (o : CFOptions) (cf : UInt32) (tables : List Table)
    (latestSequence : Nat) (w : Write) :
    Sends (accountRangesEvents b o cf tables latestSequence w) b
      (accountRanges b o cf tables latestSequence w) := by
  have hpass := accountFiles_pass (rangeFile o) latestSequence (ordered_rangeDiff tables) (b.storage cf)
  unfold accountRangesEvents accountRanges
  dsimp only [rangePass]
  by_cases hcf : cf ∈ b.ids
  · simp only [hcf, not_true, if_false]
    cases hmerge : o.levelMerge with
    | false =>
      simp only [Bool.false_eq_true, if_false, append_nil]
      exact sends_pass (rangeFile_state o) hpass
    | true =>
      simp only [if_true]
      exact sends_logPass (rangeFile_state o) hdefault hpass w
  · simp only [hcf, not_false_eq_true, if_true]
    exact Sends.refl b

/-! ## Deletion of blob files by range -/

/-- What the loop of `GetBlobFilesInRanges` takes of a range. -/
def inRange (compare : Bytes → Bytes → Ordering) (range : RangePtr) (includeEnd : Bool)
    (f : TrackedFile) : Bool :=
  -- from `lower_bound` of the start to `upper_bound` of the limit
  range.start.all (fun start => compare f.file.smallestKey start != .lt) &&
    range.limit.all (fun limit => compare f.file.smallestKey limit != .gt) &&
    !f.isObsolete && !(f.file.largestKey.isEmpty && range.limit.isSome) &&
    range.limit.all fun limit =>
      if includeEnd then compare f.file.largestKey limit != .gt else compare f.file.largestKey limit == .lt

/-- `GetBlobFilesInRanges` over the files in the order of `blob_ranges_`. -/
def getBlobFilesInRanges (compare : Bytes → Bytes → Ordering) (blobRanges : List TrackedFile)
    (ranges : List RangePtr) (includeEnd : Bool) : List UInt64 :=
  ranges.flatMap fun range => (blobRanges.filter (inRange compare range includeEnd)).map (·.file.fileNumber)

/-! ## The system -/

structure Env where
  options : UInt32 → CFOptions
  compare : Bytes → Bytes → Ordering
  /-- The files of a storage in the order of `blob_ranges_`. -/
  blobRanges : Storage → List TrackedFile
  blobRanges_files : ∀ st, ∀ f ∈ blobRanges st, st.files f.file.fileNumber = some f

/-- A flush or compaction whose notification is to come, and the blob files that it has
written. -/
structure Notification where
  columnFamilyId : UInt32
  event : Event
  created : List UInt64

structure State where
  blobs : BlobFiles
  /-- Blob files of flushes and compactions that are not installed. -/
  finished : List (UInt32 × UInt64) := []
  undelivered : List Notification := []
  jobs : List Job := []
  /-- The file numbers that were ever given out. -/
  used : List UInt64 := []
  /-- The files that garbage collections have written; only their indexes are written to
  memtables. -/
  rewritten : List UInt64 := []

inductive Op where
  | finish (cf : UInt32) (files : List BlobFileMeta) (w : Write)
  /-- A flush or compaction is installed. -/
  | install (p : Notification)
  | deliver (i : Nat) (latestSequence : Nat) (w : Write)
  | purge (cf : UInt32) (oldestSequence : Nat)
  | pick (cf : UInt32) (inputs : List UInt64)
  | installOutputs (i : Nat) (files : List (BlobFileMeta × UInt64)) (w : Write)
  | finishJob (i : Nat) (obsoleteSequence : Nat) (w : Write)
  | failJob (i : Nat)
  /-- The accounting of `DeleteFilesInRanges` for the tables whose properties it has read. -/
  | deleteFilesInRanges (cf : UInt32) (tables : List Table) (latestSequence : Nat) (w : Write)
  | deleteBlobFilesInRanges (cf : UInt32) (ranges : List RangePtr) (includeEnd : Bool)
      (obsoleteSequence : Nat) (w : Write)

section

variable (env : Env)

def Env.filesInRanges (cf : UInt32) (s : State) (ranges : List RangePtr) (includeEnd : Bool) : List UInt64 :=
  getBlobFilesInRanges env.compare (env.blobRanges (s.blobs.storage cf)) ranges includeEnd

def State.releaseJob (s : State) (i : Nat) (j : Job) : State :=
  { s with
    blobs := s.blobs.setStorage j.columnFamilyId
      (releaseGcFiles (s.blobs.storage j.columnFamilyId) j.inputs j.outputs)
    jobs := s.jobs.eraseIdx i }

def State.deleteInputs (s : State) (j : Job) (obsoleteSequence : Nat) (w : Write) : BlobFiles :=
  (s.blobs.logAndApply w (deleteInputsEdit (s.blobs.storage j.columnFamilyId) j obsoleteSequence)).2

def exec (s : State) : Op → State
  | .finish cf files w =>
    let r := s.blobs.logAndApply w (finishEdit cf files)
    { s with
      blobs := r.2
      used := s.used ++ files.map (·.fileNumber)
      finished := if r.1 = none then s.finished ++ files.map fun f => (cf, f.fileNumber) else s.finished }
  | .install p =>
    { s with
      undelivered := s.undelivered ++ [p]
      finished := s.finished.filter fun f => ¬ (f.1 = p.columnFamilyId ∧ f.2 ∈ p.created) }
  | .deliver i latestSequence w =>
    match s.undelivered[i]? with
    | none => s
    | some p =>
      { s with
        blobs := notify env.options s.blobs p.columnFamilyId latestSequence w p.event
        undelivered := s.undelivered.eraseIdx i }
  | .purge cf oldestSequence =>
    { s with blobs := s.blobs.setStorage cf ((s.blobs.storage cf).getObsoleteFiles oldestSequence) }
  | .pick cf inputs =>
    { s with
      blobs := s.blobs.setStorage cf (markFilesBeingGC (s.blobs.storage cf) inputs)
      jobs := s.jobs ++ [⟨cf, inputs, []⟩] }
  | .installOutputs i files w =>
    match s.jobs[i]? with
    | none => s
    | some j =>
      let r := s.blobs.logAndApply w (outputEdit j.columnFamilyId files)
      let numbers := files.map (·.1.fileNumber)
      if r.1 = none then
        { s with
          blobs := r.2
          used := s.used ++ numbers
          rewritten := s.rewritten ++ numbers
          jobs := s.jobs.set i { j with outputs := j.outputs ++ numbers } }
      else { s with used := s.used ++ numbers }
  | .finishJob i obsoleteSequence w =>
    match s.jobs[i]? with
    | none => s
    | some j => { s with blobs := s.deleteInputs j obsoleteSequence w }.releaseJob i j
  | .failJob i =>
    match s.jobs[i]? with
    | none => s
    | some j => s.releaseJob i j
  | .deleteFilesInRanges cf tables latestSequence w =>
    { s with blobs := accountRanges s.blobs (env.options cf) cf tables latestSequence w }
  | .deleteBlobFilesInRanges cf ranges includeEnd obsoleteSequence w =>
    if cf ∉ s.blobs.ids then s
    else
      { s with blobs := (s.blobs.logAndApply w
          (deleteEdit cf (env.filesInRanges cf s ranges includeEnd) obsoleteSequence)).2 }

def releaseEvents (b : BlobFiles) (j : Job) : UInt32 → UInt64 → List FileEvent :=
  only j.columnFamilyId (transitEvents (b.storage j.columnFamilyId) .gcCompleted j.files)

def events (s : State) : Op → UInt32 → UInt64 → List FileEvent
  | .finish cf files _, cf', n =>
    only cf (fun n => replicate ((files.map (·.fileNumber)).count n) .flushOrCompactionOutput) cf' n
  | .deliver i latestSequence w, cf', n =>
    match s.undelivered[i]? with
    | none => []
    | some p => notifyEvents env.options s.blobs p.columnFamilyId latestSequence w p.event cf' n
  | .pick cf inputs, cf', n => only cf (transitEvents (s.blobs.storage cf) .gcBegin inputs) cf' n
  | .installOutputs i files _, cf', n =>
    match s.jobs[i]? with
    | none => []
    | some j => only j.columnFamilyId
        (fun n => replicate ((files.map (·.1.fileNumber)).count n) .gcOutput) cf' n
  | .finishJob i obsoleteSequence w, cf', n =>
    match s.jobs[i]? with
    | none => []
    | some j =>
      editEvents s.blobs w (deleteInputsEdit (s.blobs.storage j.columnFamilyId) j obsoleteSequence) cf' n ++
        releaseEvents (s.deleteInputs j obsoleteSequence w) j cf' n
  | .failJob i, cf', n =>
    match s.jobs[i]? with
    | none => []
    | some j => releaseEvents s.blobs j cf' n
  | .deleteFilesInRanges cf tables latestSequence w, cf', n =>
    accountRangesEvents s.blobs (env.options cf) cf tables latestSequence w cf' n
  | .deleteBlobFilesInRanges cf ranges includeEnd obsoleteSequence w, cf', n =>
    if cf ∉ s.blobs.ids then []
    else editEvents s.blobs w
      (deleteEdit cf (env.filesInRanges cf s ranges includeEnd) obsoleteSequence) cf' n
  | .install _, _, _ | .purge _ _, _, _ => []

end

/-! ## The jobs of `GcHistory` -/

/-- A column family of a history with garbage collection. -/
def view (s : GcHistory.State) (cf : UInt32) : State where
  blobs := s.blobs
  undelivered := (s.family cf).undelivered.map fun p => ⟨cf, p.event, p.created⟩
  jobs := (s.family cf).jobs.map fun j => ⟨cf, j.inputs, j.outputs⟩

/-- The step that a step of the history is; the others write entries or subtract sizes. -/
def transition : GcHistory.Op → Option Op
  | .finish cf files w => some (.finish cf files w)
  | .flush cf _ table created => some (.install ⟨cf, .flush table, created⟩)
  | .compact cf inputs outputs outputLevel created =>
    some (.install ⟨cf, .compaction none inputs outputs outputLevel, created⟩)
  | .compactFailed cf status inputs outputs outputLevel =>
    some (.install ⟨cf, .compaction (some status) inputs outputs outputLevel, []⟩)
  | .deliver _ i latestSequence w => some (.deliver i latestSequence w)
  | .purge cf oldestSequence => some (.purge cf oldestSequence)
  | .pick cf inputs => some (.pick cf inputs)
  | .install _ i files pending w =>
    some (.installOutputs i (files.map fun f => (f, GcHistory.liveDataSize pending f.fileNumber)) w)
  | .finishJob _ i obsoleteSequence w => some (.finishJob i obsoleteSequence w)
  | .failJob _ i => some (.failJob i)
  | .write _ _ | .writeBack _ _ _ | .subtract _ _ => none

/-- The job is as far as the step expects it to be. -/
def Timely (s : GcHistory.State) : GcHistory.Op → Prop
  | .install cf i _ _ _ => ∀ j, (s.family cf).jobs[i]? = some j → j.outputs = []
  | .finishJob cf i _ _ => ∀ j, (s.family cf).jobs[i]? = some j → j.phase = .rewritten
  | _ => True

/-- A history does to the files, the jobs and the notifications what is done here. -/
theorem view_exec (env : Env) {s : GcHistory.State} {op : GcHistory.Op} {op' : Op}
    (hop : transition op = some op') (htimely : Timely s op) :
    ∃ finished used rewritten, view (GcHistory.exec env.options s op) op.columnFamily =
      { exec env (view s op.columnFamily) op' with finished, used, rewritten } := by
  refine ⟨[], [], [], ?_⟩
  cases op with
  | write cf entry | writeBack cf i base | subtract cf i => cases hop
  | deliver cf i latestSequence w =>
    cases hop
    cases hp : (s.family cf).undelivered[i]? <;>
      simp [GcHistory.exec, exec, view, GcHistory.Op.columnFamily, GcHistory.State.setFamily, hp,
        eraseIdx_map]
  | install cf i files pending w =>
    cases hop
    cases hj : (s.family cf).jobs[i]? with
    | none => simp [GcHistory.exec, exec, view, GcHistory.Op.columnFamily, hj]
    | some j =>
      simp only [GcHistory.exec, exec, view, GcHistory.Op.columnFamily, GcHistory.State.setFamily,
        GcHistory.Family.setJob, hj, getElem?_map, Option.map_some]
      split <;> rename_i hok
      · simp [map_set, htimely j hj, Function.comp_def, hok]
      · simp [refused_same hok, hok]
  | finishJob cf i obsoleteSequence w =>
    cases hop
    cases hj : (s.family cf).jobs[i]? with
    | none => simp [GcHistory.exec, exec, view, GcHistory.Op.columnFamily, hj]
    | some j =>
      obtain ⟨inputs, outputs, phase⟩ := j
      obtain rfl := htimely _ hj
      simp [GcHistory.exec, exec, view, GcHistory.Op.columnFamily, GcHistory.State.setFamily, hj,
        GcHistory.State.releaseJob, State.releaseJob, State.deleteInputs, eraseIdx_map]
  | failJob cf i =>
    cases hop
    cases hj : (s.family cf).jobs[i]? <;>
      simp [GcHistory.exec, exec, view, GcHistory.Op.columnFamily, GcHistory.State.setFamily, hj,
        GcHistory.State.releaseJob, State.releaseJob, eraseIdx_map]
  | finish cf files w =>
    cases hop
    simp only [GcHistory.exec, exec, view, GcHistory.Op.columnFamily, GcHistory.State.setFamily]
    split <;> simp
  | _ =>
    cases hop
    simp [GcHistory.exec, exec, view, GcHistory.Op.columnFamily, GcHistory.State.setFamily]

theorem stateIn_subtractDropped (st : Storage) (dropped : List (UInt64 × UInt64)) (n : UInt64) :
    stateIn (GcHistory.subtractDropped st dropped) n = stateIn st n := by
  induction dropped generalizing st with
  | nil => rfl
  | cons d dropped ih =>
    refine (ih _).trans ?_
    rw [stateIn, stateIn, modify_files]
    split
    · cases st.files n with
      | none => rfl
      | some f => exact (updateLiveDataSize_file f _).2
    · rfl

/-- The steps that are none of these leave the states of the files alone. -/
theorem stateOf_exec_silent (options : UInt32 → CFOptions) {s : GcHistory.State} {op : GcHistory.Op}
    (hop : transition op = none) (cf : UInt32) (n : UInt64) :
    stateOf (GcHistory.exec options s op).blobs cf n = stateOf s.blobs cf n := by
  cases op with
  | write cf' entry => rfl
  | writeBack cf' i base =>
    simp only [GcHistory.exec]
    split
    · split
      · rfl
      · split <;> rfl
    · rfl
  | subtract cf' i =>
    simp only [GcHistory.exec]
    split
    · by_cases hcf : cf = cf'
      · subst hcf
        rw [stateOf, stateOf, GcHistory.State.setFamily, setStorage_self]
        exact stateIn_subtractDropped ..
      · rw [stateOf, stateOf, GcHistory.State.setFamily, setStorage_of_ne _ hcf]
    · rfl
  | _ => cases hop

end TitanGC.Scheduling.Transitions
