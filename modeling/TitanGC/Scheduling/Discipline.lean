import TitanGC.Accounting.LiveData
import TitanGC.Scheduling.JobFiles

/-!
# The discipline of the file states

In a run whose steps meet `Sound`, every call of `FileStateTransit` is made in a state
that its assertion allows, an obsolete file stays obsolete, and a file waits for the LSM
until the notification of the flush or compaction that has written it. Under
`level_merge` three steps break this: a compaction whose notification finds that all it
has brought is gone both deletes the file and offers it for merging; a deletion of tables
by range accounts for files that still wait; and a deletion of blob files by range takes
files that still wait.
-/

namespace TitanGC.Scheduling.Discipline

open Lib.OrderedMap Lib.Runs
open List hiding after
open Format.BlobFormat (BlobIndex)
open Manifest.VersionEdits Manifest.Logging
open Accounting.SizeCollector Accounting.Tracking Accounting.Listener
open Accounting.Balance (sub_recorded)
open Accounting.History (Event notify finishEdit refs Referenced Sane refs_eq_zero)
open Accounting.LiveData (inline table allReferenced referenced_le refs_le)
open Accounting.Preservation (EventOk EventOk.totals logAndApply_added)
open Accounting.RangeDeletion (rangeDiff_totals)
open Jobs (Job outputEdit deleteEdit deleteInputsEdit)
open Transitions BlobFiles
open JobFiles hiding Inv

/-! ## Allowed events -/

/-- The step delivers the notification of the flush or compaction that has written the file. -/
def Notifies (s : State) : Op → UInt32 → UInt64 → Prop
  | .deliver i _ _, cf, n => ∃ p, s.undelivered[i]? = some p ∧ p.columnFamilyId = cf ∧ n ∈ p.created
  | _, _, _ => False

/-- One event that comes in state `s`. -/
structure Allowed (notified : Prop) (s : FileState) (e : FileEvent) : Prop where
  asserted : Asserts s e
  obsolete : s = .obsolete → next s e = .obsolete
  waits : s = .pendingLSM → next s e ≠ .pendingLSM → notified

/-- Every event of the step, for every file. -/
def Disciplined (env : Env) (s : State) (op : Op) : Prop :=
  ∀ cf n, Along next (Allowed (Notifies s op cf n)) (stateOf s.blobs cf n) (events env s op cf n)

/-- The state of a file after the step is what the events have made of it. -/
def Traced (env : Env) (s : State) (op : Op) : Prop :=
  ∀ cf n g, ((exec env s op).blobs.storage cf).files n = some g →
    g.state = (events env s op cf n).foldl next (stateOf s.blobs cf n)

/-! ## What the steps need -/

/-- The blob files that a notification can be about. A flush writes indexes of its own files
and of files that garbage collections have written; a compaction adds references to its own
files only. -/
def Owns (rewritten : List UInt64) (p : Notification) : Prop :=
  match p.event with
  | .flush t => ∀ n, Mentions t.entries n → n ∈ p.created ∨ n ∈ rewritten
  | .compaction none inputs outputs _ => ∀ n, n ∉ p.created → refs outputs n ≤ refs inputs n
  | .compaction (some _) _ _ _ => True

/-- What the callers see to: file numbers are new, notifications come from flushes and
compactions that have finished their files, and a job is picked from files in the normal
state. -/
def Promised (s : State) : Op → Prop
  | .finish cf files _ => cf ∈ s.blobs.ids ∧ (files.map (·.fileNumber)).Nodup ∧
      ∀ f ∈ files, f.fileNumber ∉ s.used
  | .install p => EventOk p.event ∧ (∀ n ∈ p.created, (p.columnFamilyId, n) ∈ s.finished) ∧
      Owns s.rewritten p
  | .pick cf inputs => cf ∈ s.blobs.ids ∧ inputs.Nodup ∧ ∀ n ∈ inputs, stateOf s.blobs cf n = .normal
  | .installOutputs _ files _ => (files.map (·.1.fileNumber)).Nodup ∧ ∀ f ∈ files, f.1.fileNumber ∉ s.used
  | .deleteFilesInRanges _ tables _ _ => (∀ t ∈ tables, Sane t) ∧ ∀ n, refs tables n < 2 ^ 63
  | .deliver _ _ _ | .purge _ _ | .finishJob _ _ _ | .failJob _ | .deleteBlobFilesInRanges _ _ _ _ _ => True

/-- The file waits for this notification, and those that came before it have recorded that
all it brings is gone. -/
def Emptied (st : Storage) (n : UInt64) : Event → Prop
  | .compaction none inputs outputs _ => ∃ f, st.files n = some f ∧ f.state = .pendingLSM ∧
      refs inputs n < refs outputs n ∧ refs outputs n = refs inputs n + f.liveDataSize.toNat
  | _ => False

def Sound (env : Env) (s : State) : Op → Prop
  | .deliver i _ _ => ∀ p, s.undelivered[i]? = some p → p.columnFamilyId = 0 →
      (env.options 0).levelMerge = true → ∀ n, ¬ Emptied (s.blobs.storage 0) n p.event
  | .deleteFilesInRanges cf tables _ _ => (env.options cf).levelMerge = true →
      ∀ n f, Referenced tables n → (s.blobs.storage cf).files n = some f →
        f.state = .normal ∨ f.state = .toMerge ∨ f.state = .obsolete
  | .deleteBlobFilesInRanges cf ranges includeEnd _ _ =>
    ∀ n ∈ env.filesInRanges cf s ranges includeEnd, stateOf s.blobs cf n ≠ .pendingLSM
  | _ => True

structure Opened (s : State) : Prop where
  default : 0 ∈ s.blobs.ids
  restarted : ∀ cf n f, (s.blobs.storage cf).files n = some f → f.state = .normal
  stored : ∀ cf n, ((s.blobs.storage cf).files n).isSome → n ∈ s.used
  distinct : ∀ cf cf' n, ((s.blobs.storage cf).files n).isSome →
    ((s.blobs.storage cf').files n).isSome → cf = cf'
  quiet : s.finished = [] ∧ s.undelivered = [] ∧ s.jobs = [] ∧ s.rewritten = []

structure Inv (s : State) : Prop where
  files : JobFiles.Inv s
  notifications : ∀ p ∈ s.undelivered, EventOk p.event ∧ Owns s.rewritten p
  rewritten : ∀ n ∈ s.rewritten, n ∈ s.used ∧ ∀ cf, stateOf s.blobs cf n ≠ .pendingLSM

theorem Opened.files {s : State} (h : Opened s) : JobFiles.Inv s := by
  obtain ⟨-, -, hjobs, -⟩ := h.quiet
  refine ⟨h.default, h.stored, h.distinct, ?_, ?_, fun cf n hbeing => ?_⟩
  · rw [hjobs]
    exact nodup_nil
  · rw [hjobs]
    exact forall_mem_nil _
  · obtain ⟨f, hf⟩ := Option.isSome_iff_exists.mp
      (isSome_of_state (hbeing.symm ▸ (by decide : FileState.beingGC ≠ FileState.init)))
    rw [stateOf, stateIn_some hf, h.restarted cf n f hf] at hbeing
    cases hbeing

theorem Opened.inv {s : State} (h : Opened s) : Inv s := by
  obtain ⟨-, hundelivered, -, hrewritten⟩ := h.quiet
  refine ⟨h.files, ?_, ?_⟩
  · rw [hundelivered]
    exact forall_mem_nil _
  · rw [hrewritten]
    exact forall_mem_nil _

variable {used : List UInt64} {j : Job}

/-! ## Events that concern no job -/

/-- The events of notifications, of level merge and of deletions. -/
def isCalm : FileEvent → Bool
  | .flushCompleted | .compactionCompleted | .needMerge | .delete => true
  | _ => false

abbrev AllCalm (sent : List FileEvent) : Prop := ∀ e ∈ sent, isCalm e = true

variable {s' : FileState} {sent : List FileEvent} {cf' : UInt32} {n : UInt64} {latestSequence : Nat}
  {o : CFOptions} {run : Bool} {d : Int64} {f : TrackedFile} {inputs outputs : List Table}
  {outputLevel : Int}

variable {s : FileState}

theorem calm_next {e : FileEvent} (he : isCalm e = true) (h : Asserts s e) : Calm s (next s e) := by
  revert he h
  cases s <;> cases e <;> decide

variable {notified : Prop}

theorem calm_of_allowed (hcalm : AllCalm sent) (h : Along next (Allowed notified) s sent) :
    Calm s (sent.foldl next s) := by
  induction sent generalizing s with
  | nil => exact .inl rfl
  | cons e sent ih =>
    refine (calm_next (hcalm e mem_cons_self) h.1.asserted).trans ?_
    exact ih (fun e' he' => hcalm e' (mem_cons_of_mem e he')) h.2

/-- Steps that send calm events and leave jobs and file numbers alone. -/
theorem Inv.calm {s s' : State} (h : Inv s) {sent : UInt32 → UInt64 → List FileEvent}
    (hsends : Sends sent s.blobs s'.blobs)
    (hcalm : ∀ cf n, Calm (stateOf s.blobs cf n) ((sent cf n).foldl next (stateOf s.blobs cf n)))
    (hjobs : s'.jobs = s.jobs) (hused : s'.used = s.used) (hrewritten : s'.rewritten = s.rewritten)
    (hundelivered : ∀ p ∈ s'.undelivered, p ∈ s.undelivered) : Inv s' := by
  have hstate : ∀ cf n, Calm (stateOf s.blobs cf n) (stateOf s'.blobs cf n) := by
    intro cf n
    rw [hsends.state]
    exact hcalm cf n
  refine ⟨h.files.calm hsends hstate hjobs hused, fun p hp => ?_, fun n hn => ?_⟩
  · rw [hrewritten]
    exact h.notifications p (hundelivered p hp)
  · rw [hrewritten] at hn
    rw [hused]
    exact ⟨(h.rewritten n hn).1, fun cf => (hstate cf n).waits ((h.rewritten n hn).2 cf)⟩

/-! ## The events of one file -/

variable {d : Int64} {w : Write} {event : FileEvent}

section

variable {notified : Prop} {f : TrackedFile} {n : UInt64}

theorem allowed_flushEvents (h : f.state = .pendingLSM → notified) :
    Along next (Allowed notified) f.state (flushEvents f) := by
  rw [flushEvents]
  split
  · trivial
  · rename_i hstate
    have hwaits : f.state = .pendingLSM := not_not.mp hstate
    refine ⟨⟨.inl hwaits, fun hobs => ?_, fun _ _ => h hwaits⟩, trivial⟩
    rw [hwaits] at hobs
    cases hobs

theorem allowed_needMerge (h : s = .normal ∨ s = .toMerge) : Allowed notified s .needMerge := by
  refine ⟨h.symm, fun hobs => ?_, fun hwaits => ?_⟩
  · rw [hobs] at h
    exact absurd h (by decide)
  · rw [hwaits] at h
    exact absurd h (by decide)

theorem allowed_compactEvents {o : CFOptions} (h : f.state = .pendingLSM → ¬ d ≤ 0 → notified) :
    Along next (Allowed notified) f.state (compactEvents o d f) := by
  rw [compactEvents]
  split
  · trivial
  · split
    · rename_i hwaits
      split
      · trivial
      · rename_i hpos
        refine ⟨⟨hwaits, fun hobs => ?_, fun _ _ => h hwaits hpos⟩, trivial⟩
        rw [hwaits] at hobs
        cases hobs
    · split
      · rename_i hsettled
        dsimp only
        repeat' split
        all_goals first | trivial | exact ⟨allowed_needMerge hsettled, trivial⟩
      · trivial

theorem allowed_rangeEvents {o : CFOptions}
    (h : o.levelMerge = true → f.state = .normal ∨ f.state = .toMerge ∨ f.state = .obsolete) :
    Along next (Allowed notified) f.state (rangeEvents o d f) := by
  rw [rangeEvents]
  split
  · trivial
  · rename_i hlive
    dsimp only
    split
    · rename_i hmerge
      have hsettled : f.state = .normal ∨ f.state = .toMerge := by
        rcases h hmerge with hnormal | htoMerge | hobs
        · exact .inl hnormal
        · exact .inr htoMerge
        · rw [TrackedFile.isObsolete, hobs] at hlive
          exact absurd rfl hlive
      repeat' split
      all_goals first | trivial | exact ⟨allowed_needMerge hsettled, trivial⟩
    · trivial

theorem allowed_pass {sent : Int64 → TrackedFile → List FileEvent} {diff : List (UInt64 × Int64)}
    {st : Storage} (h : ∀ d f, diff.lookup n = some d → st.files n = some f →
      Along next (Allowed notified) f.state (sent d f)) :
    Along next (Allowed notified) (stateIn st n) (passEvents sent diff st n) := by
  rw [passEvents]
  split
  · rename_i d f hlookup hfile
    rw [stateIn_some hfile]
    exact h d f hlookup hfile
  · trivial

theorem allowed_only {cf cf' : UInt32} {sent : UInt64 → List FileEvent}
    (h : cf' = cf → Along next (Allowed notified) s (sent n)) :
    Along next (Allowed notified) s (only cf sent cf' n) := by
  rw [only]
  split
  · rename_i hcf
    exact h hcf
  · trivial

/-- The files of an edit that is accepted are not obsolete. -/
theorem allowed_edit {b : BlobFiles} {e : Edit} (hadded : e.addedFiles = [])
    (hfamily : e.columnFamilyId ∈ b.ids) {cf : UInt32}
    (h : cf = e.columnFamilyId → n ∈ e.deletedFiles.map (·.1) → ∀ f, (b.storage cf).files n = some f →
      f.state = .pendingLSM → notified) :
    Along next (Allowed notified) (stateOf b cf n) (editEvents b w e cf n) := by
  rw [editEvents]
  split
  · rename_i hsent
    obtain ⟨haccepted, hcf, hn⟩ := hsent
    obtain ⟨f, hf, hlive⟩ := (accepted_deletes hadded hfamily haccepted).2 n hn
    rw [← hcf] at hf
    have hstate : f.state ≠ .obsolete := by simpa [TrackedFile.isObsolete] using hlive
    rw [stateOf, stateIn_some hf]
    exact ⟨⟨hstate, fun hobs => absurd hobs hstate, fun hwaits _ => h hcf hn f hf hwaits⟩, trivial⟩
  · trivial

theorem allowed_marks {k : Nat} (h : k ≠ 0 → s = .normal ∨ s = .toMerge) :
    Along next (Allowed notified) s (replicate k .needMerge) := by
  induction k generalizing s with
  | zero => trivial
  | succ k ih =>
    have hs := h (Nat.succ_ne_zero k)
    refine ⟨allowed_needMerge hs, ih fun _ => .inr ?_⟩
    rcases hs with rfl | rfl <;> rfl

/-- One event, sent to each file of a list once. -/
theorem allowed_once {files : List UInt64} (hnodup : files.Nodup)
    (h : n ∈ files → Allowed notified s event) :
    Along next (Allowed notified) s (replicate (files.count n) event) := by
  by_cases hn : n ∈ files
  · rw [count_eq_one_of_mem hnodup hn]
    exact ⟨h hn, trivial⟩
  · rw [count_eq_zero.mpr hn]
    trivial

theorem allowed_transit {files : List UInt64} (hnodup : files.Nodup) {st : Storage}
    (h : n ∈ files → (st.files n).isSome → Allowed notified (stateIn st n) event) :
    Along next (Allowed notified) (stateIn st n) (transitEvents st event files n) := by
  rw [transitEvents]
  split
  · rename_i hthere
    exact allowed_once hnodup fun hn => h hn hthere
  · trivial

end

/-! ## Which events are calm -/

theorem calm_flushEvents (f : TrackedFile) : AllCalm (flushEvents f) := by
  rw [flushEvents]
  split <;> simp [AllCalm, isCalm]

theorem calm_compactEvents (o : CFOptions) (d : Int64) (f : TrackedFile) : AllCalm (compactEvents o d f) := by
  rw [compactEvents]
  dsimp only
  repeat' split
  all_goals simp [AllCalm, isCalm]

theorem calm_rangeEvents (o : CFOptions) (d : Int64) (f : TrackedFile) : AllCalm (rangeEvents o d f) := by
  rw [rangeEvents]
  dsimp only
  repeat' split
  all_goals simp [AllCalm, isCalm]

theorem calm_pass {sent : Int64 → TrackedFile → List FileEvent} (h : ∀ d f, AllCalm (sent d f))
    (diff : List (UInt64 × Int64)) (st : Storage) (n : UInt64) : AllCalm (passEvents sent diff st n) := by
  rw [passEvents]
  split
  · exact h _ _
  · exact forall_mem_nil _

theorem calm_only {cf : UInt32} {sent : UInt64 → List FileEvent} (h : AllCalm (sent n)) :
    AllCalm (only cf sent cf' n) := by
  rw [only]
  split
  · exact h
  · exact forall_mem_nil _

theorem calm_edit (b : BlobFiles) (w : Write) (e : Edit) (cf : UInt32) (n : UInt64) :
    AllCalm (editEvents b w e cf n) := by
  rw [editEvents]
  split <;> simp [AllCalm, isCalm]

theorem calm_sweep (st : Storage) (files : List UInt64) (maxSortedRuns : Nat) (n : UInt64) :
    AllCalm (sweepEvents st files maxSortedRuns n) := by
  intro e he
  rw [eq_of_mem_replicate he]
  rfl

variable {sent' : List FileEvent}

theorem calm_append (h : AllCalm sent) (h' : AllCalm sent') : AllCalm (sent ++ sent') :=
  forall_mem_append.mpr ⟨h, h'⟩

theorem calm_ite {c : Prop} [Decidable c] (h : AllCalm sent) (h' : AllCalm sent') :
    AllCalm (if c then sent else sent') := by
  split
  · exact h
  · exact h'

theorem calm_nil : AllCalm [] := forall_mem_nil _

theorem calm_notify (options : UInt32 → CFOptions) (b : BlobFiles) (cf : UInt32)
    (latestSequence : Nat) (w : Write)
    (e : Event) (cf' : UInt32) (n : UInt64) :
    AllCalm (notifyEvents options b cf latestSequence w e cf' n) := by
  cases e with
  | flush t =>
    exact calm_ite calm_nil (calm_only (calm_pass (fun _ => calm_flushEvents) _ _ n))
  | compaction status inputs outputs outputLevel =>
    refine calm_ite calm_nil (calm_append (calm_only (calm_pass (calm_compactEvents _) _ _ n)) ?_)
    exact calm_ite (calm_append (calm_edit _ w _ cf' n) (calm_only (calm_sweep _ _ _ n))) calm_nil

/-! ## Notifications -/

variable {options : UInt32 → CFOptions}

/-- The differences of a flush. -/
theorem flushDiff_totals {t : Table} (he : EventOk (.flush t)) :
    Totals Int64.ofInt (Mentions t.entries) (fun n => (referenced t.entries n : ℤ)) (flushDiff t) := by
  obtain ⟨diff, hextract, htotals⟩ := extract_totals he.1.1 (fun n => (he.2 n).trans (by norm_num))
    (Totals.empty Int64.ofInt) true
  rw [flushDiff, hextract]
  exact htotals.congr (fun n => by simp) fun n => by simp

theorem allowed_flush {b : BlobFiles} {cf : UInt32} {t : Table} (he : EventOk (.flush t))
    (h : cf' = cf → Mentions t.entries n → stateOf b cf n = .pendingLSM → notified) :
    Along next (Allowed notified) (stateOf b cf' n)
      (notifyEvents options b cf latestSequence w (.flush t) cf' n) := by
  rw [show notifyEvents options b cf latestSequence w (.flush t) cf' n = if cf ∉ b.ids then []
    else only cf (passEvents (fun _ => flushEvents) (flushDiff t) (b.storage cf)) cf' n from rfl]
  split
  · trivial
  · refine allowed_only fun hcf => ?_
    subst hcf
    refine allowed_pass fun d f hlookup hfile => allowed_flushEvents fun hwaits => ?_
    refine h rfl ?_ ((stateIn_some hfile).trans hwaits)
    by_contra hnot
    rw [((flushDiff_totals he).absent n hnot).1] at hlookup
    cases hlookup

/-- A file that is deleted or offered for merging has left the LSM's waiting state. -/
theorem compactFile_settled
    (h : (compactFile o run d f).delete = true ∨ (compactFile o run d f).candidate = true) :
    (compactFile o run d f).file.state = .normal ∨ (compactFile o run d f).file.state = .toMerge := by
  have hlive := (updateLiveDataSize_file f d).2
  revert h
  rw [compactFile]
  split
  · simp
  · split
    · split
      · simp
      · exact fun _ => .inl rfl
    · split
      · rename_i hsettled
        rw [← hlive] at hsettled
        dsimp only
        generalize (f.updateLiveDataSize d).2 = g at hsettled ⊢
        split
        · split
          · exact fun _ => hsettled
          · split
            · simp
            · exact fun _ => hsettled
        · simp
      · simp

/-- Only a file that has waited is deleted and offered for merging at once. -/
theorem compactFile_both (hdelete : (compactFile o run d f).delete = true)
    (hcandidate : (compactFile o run d f).candidate = true) :
    f.state = .pendingLSM ∧ ¬ d ≤ 0 ∧
      (if f.liveDataSize ≠ 0 then d - f.liveDataSize.toInt64 else d).toUInt64 = 0 := by
  revert hdelete hcandidate
  rw [compactFile]
  split
  · simp
  · split
    · rename_i hwaits
      split
      · simp
      · rename_i hpos
        intro hdelete _
        exact ⟨hwaits, hpos, beq_iff_eq.mp hdelete⟩
    · split
      · dsimp only
        repeat' split
        all_goals simp
      · simp

theorem toUInt64_eq_zero {x : ℤ} (hlow : -2 ^ 64 < x) (hhigh : x < 2 ^ 63)
    (h : (Int64.ofInt x).toUInt64 = 0) : x = 0 := by
  have hzero : Int64.ofInt x = 0 := by simpa using congrArg UInt64.toInt64 h
  have hint : (Int64.ofInt x).toInt = 0 := by
    rw [hzero]
    rfl
  rw [Int64.toInt_ofInt] at hint
  obtain ⟨k, hk⟩ := Int.dvd_of_bmod_eq_zero hint
  norm_num [Int64.size] at hk
  omega

/-- With the differences of a compaction, such a file is emptied. -/
theorem emptied_of_both {st : Storage} (hfile : st.files n = some f)
    (he : EventOk (.compaction none inputs outputs outputLevel))
    (hd : d = Int64.ofInt ((refs outputs n : ℤ) - refs inputs n))
    (hdelete : (compactFile o run d f).delete = true)
    (hcandidate : (compactFile o run d f).candidate = true) :
    Emptied st n (.compaction none inputs outputs outputLevel) := by
  obtain ⟨hwaits, hpos, hzero⟩ := compactFile_both hdelete hcandidate
  have hsmall := he.2.2 n
  have hsize := f.liveDataSize.toNat_lt
  subst hd
  have hincrease : (0 : ℤ) < (refs outputs n : ℤ) - refs inputs n := by
    rw [TitanGC.Accounting.Balance.ofInt_nonpos (by omega) (by omega)] at hpos
    omega
  rw [sub_recorded] at hzero
  have hnone := toUInt64_eq_zero (by omega) (by omega) hzero
  exact ⟨f, hfile, hwaits, by omega, by omega⟩

theorem rangeFile_delete (h : (rangeFile o d f).delete = true) :
    o.levelMerge = true ∧ (rangeFile o d f).file.state = f.state := by
  have hlive := (updateLiveDataSize_file f d).2
  revert h
  rw [rangeFile]
  split
  · simp
  · dsimp only
    split
    · rename_i hmerge
      split
      · exact fun _ => ⟨hmerge, hlive⟩
      · split <;> simp
    · simp

variable {n : UInt64}

section

variable {b : BlobFiles} {cf : UInt32} (hdefault : 0 ∈ b.ids)
  (hdistinct : ∀ cf cf' n, ((b.storage cf).files n).isSome → ((b.storage cf').files n).isSome → cf = cf')
  {verdict : Int64 → TrackedFile → Verdict} {diff : List (UInt64 × Int64)} {pass : Pass}
  (hpass : PassOf verdict diff (b.storage cf) pass)

include hpass

/-- What the pass leaves of a file that it goes through. -/
theorem pass_after {f : TrackedFile} (hlookup : diff.lookup n = some d)
    (hfile : (b.storage cf).files n = some f) :
    stateOf (b.setStorage cf pass.storage) cf n = (verdict d f).file.state := by
  have hafter : pass.storage.files n = some (verdict d f).file := by
    rw [hpass.files, hfile, Option.map_some, after, hlookup, Option.elim_some]
  rw [stateOf, setStorage_self, stateIn_some hafter]

include hdefault hdistinct

/-- The edit of a pass, if no file that it deletes waits. -/
theorem allowed_logPass {cf' : UInt32}
    (hsettled : ∀ d f, diff.lookup n = some d → (b.storage cf).files n = some f →
      (verdict d f).delete = true → (verdict d f).file.state ≠ .pendingLSM) :
    Along next (Allowed notified) (stateOf (b.setStorage cf pass.storage) cf' n)
      (editEvents (b.setStorage cf pass.storage) w pass.edit cf' n) := by
  have hfamily : pass.edit.columnFamilyId ∈ (b.setStorage cf pass.storage).ids := by
    rw [hpass.columnFamily]
    exact hdefault
  refine allowed_edit hpass.noAdded hfamily fun _ hn g hg hwaits => ?_
  obtain ⟨x, hx, rfl⟩ := mem_map.mp hn
  obtain ⟨d, f, hlookup, hfile, hdelete⟩ := hpass.deleted x hx
  -- the edit finds the file in the column family of the pass
  have hcf : cf = cf' := by
    by_contra hne
    rw [setStorage_of_ne b (Ne.symm hne)] at hg
    exact hne (hdistinct cf cf' x.1 (by rw [hfile]; rfl) (by rw [hg]; rfl))
  subst hcf
  refine absurd ?_ (hsettled d f hlookup hfile hdelete)
  rw [← pass_after hpass hlookup hfile, stateOf, stateIn_some hg]
  exact hwaits

omit hpass

/-- Under `level_merge`: the edit, and the marks of the candidates. A file that is deleted and
offered at once would be marked when it is obsolete. -/
theorem allowed_merge (hpass : PassOf (compactFile o run) diff (b.storage cf) pass)
    {maxSortedRuns : Nat}
    (h : cf = 0 → ∀ d f, diff.lookup n = some d → (b.storage cf).files n = some f →
      (compactFile o run d f).delete = true → (compactFile o run d f).candidate = true → False) :
    Along next (Allowed notified) (stateOf (b.setStorage cf pass.storage) cf' n)
      (editEvents (b.setStorage cf pass.storage) w pass.edit cf' n ++
        only cf (sweepEvents ((((b.setStorage cf pass.storage).logAndApply w pass.edit).2).storage cf)
          pass.toMergeCandidates maxSortedRuns) cf' n) := by
  refine along_append.mpr ⟨?_, ?_⟩
  · refine allowed_logPass hdefault hdistinct hpass fun d f _ _ hdelete hwaits => ?_
    have hsettled := compactFile_settled (.inl hdelete)
    rw [hwaits] at hsettled
    exact absurd hsettled (by decide)
  · refine allowed_only fun hcf => ?_
    subst hcf
    refine allowed_marks fun hcount => ?_
    have hn := mem_of_swept (count_pos_iff.mp (Nat.pos_of_ne_zero hcount))
    obtain ⟨d, f, hlookup, hfile, hcandidate⟩ := hpass.candidates n hn
    have hkept : editEvents (b.setStorage cf' pass.storage) w pass.edit cf' n = [] := by
      refine if_neg fun hsent => ?_
      obtain ⟨x, hx, rfl⟩ := mem_map.mp hsent.2.2
      obtain ⟨d', f', hlookup', hfile', hdelete⟩ := hpass.deleted x hx
      obtain rfl := Option.some.inj (hlookup.symm.trans hlookup')
      obtain rfl := Option.some.inj (hfile.symm.trans hfile')
      exact h (hsent.2.1.trans hpass.columnFamily) d f hlookup hfile hdelete hcandidate
    rw [hkept, foldl_nil, pass_after hpass hlookup hfile]
    exact compactFile_settled (.inr hcandidate)

theorem allowed_compaction (he : EventOk (.compaction none inputs outputs outputLevel))
    (h : cf' = cf → stateOf b cf n = .pendingLSM → refs inputs n < refs outputs n → notified)
    (hsound : cf = 0 → (options 0).levelMerge = true →
      ¬ Emptied (b.storage 0) n (.compaction none inputs outputs outputLevel)) :
    Along next (Allowed notified) (stateOf b cf' n)
      (notifyEvents options b cf latestSequence w (.compaction none inputs outputs outputLevel) cf' n) := by
  have htotals := he.totals cf
  -- the difference that the loop finds for a file
  have hdiff : ∀ d, (Event.jobInfo cf none inputs outputs outputLevel).blobFileSizeDiff.lookup n = some d →
      d = Int64.ofInt ((refs outputs n : ℤ) - refs inputs n) := by
    intro d hlookup
    by_cases hr : Referenced (inputs ++ outputs) n
    · rw [htotals.present n hr] at hlookup
      exact (Option.some.inj hlookup).symm
    · rw [(htotals.absent n hr).1] at hlookup
      cases hlookup
  have hpass := accountFiles_pass (compactFile (options cf) ((options cf).countSortedRun outputLevel))
    latestSequence htotals.ordered (b.storage cf)
  have hstate := compactFile_state (options cf) ((options cf).countSortedRun outputLevel)
  have hfirst : Along next (Allowed notified) (stateOf b cf' n)
    (only cf (passEvents (compactEvents (options cf))
      (Event.jobInfo cf none inputs outputs outputLevel).blobFileSizeDiff (b.storage cf)) cf' n) := by
    refine allowed_only fun hcf => ?_
    subst hcf
    refine allowed_pass fun d f hlookup hfile => allowed_compactEvents fun hwaits hpos => ?_
    refine h rfl ((stateIn_some hfile).trans hwaits) ?_
    have hsmall := he.2.2 n
    rw [hdiff d hlookup, TitanGC.Accounting.Balance.ofInt_nonpos (by omega) (by omega)] at hpos
    omega
  unfold notifyEvents
  dsimp only [compactionPass]
  split
  · trivial
  · refine along_append.mpr ⟨hfirst, ?_⟩
    rw [← (sends_pass hstate hpass).state]
    split
    · rename_i hmerge
      refine allowed_merge hdefault hdistinct hpass fun hcf d f hlookup hfile hdelete hcandidate => ?_
      subst hcf
      exact hsound rfl hmerge (emptied_of_both hfile he (hdiff d hlookup) hdelete hcandidate)
    · trivial

/-! ## Deletion of ranges -/

theorem allowed_accountRanges {tables : List Table} (hsane : ∀ t ∈ tables, Sane t)
    (hsmall : ∀ n, refs tables n < 2 ^ 63)
    (h : o.levelMerge = true → ∀ f, Referenced tables n → (b.storage cf).files n = some f →
      f.state = .normal ∨ f.state = .toMerge ∨ f.state = .obsolete) :
    Along next (Allowed notified) (stateOf b cf' n)
      (accountRangesEvents b o cf tables latestSequence w cf' n) := by
  have htotals := rangeDiff_totals hsane hsmall
  have hpass := accountFiles_pass (rangeFile o) latestSequence htotals.ordered (b.storage cf)
  have hreferenced : ∀ d, (rangeDiff tables).lookup n = some d → Referenced tables n := by
    intro d hlookup
    by_contra hnot
    rw [(htotals.absent n hnot).1] at hlookup
    cases hlookup
  rw [accountRangesEvents]
  split
  · trivial
  · refine along_append.mpr ⟨?_, ?_⟩
    · refine allowed_only fun hcf => ?_
      subst hcf
      refine allowed_pass fun d f hlookup hfile => allowed_rangeEvents fun hmerge => ?_
      exact h hmerge f (hreferenced d hlookup) hfile
    · rw [← (sends_pass (rangeFile_state o) hpass).state]
      split
      · refine allowed_logPass hdefault hdistinct hpass fun d f hlookup hfile hdelete hwaits => ?_
        obtain ⟨hmerge, hsame⟩ := rangeFile_delete hdelete
        have hsettled := h hmerge f (hreferenced d hlookup) hfile
        rw [← hsame, hwaits] at hsettled
        exact absurd hsettled (by decide)
      · trivial

end

theorem calm_accountRanges (b : BlobFiles) (o : CFOptions) (cf : UInt32) (tables : List Table)
    (latestSequence : Nat) (w : Write) (cf' : UInt32) (n : UInt64) :
    AllCalm (accountRangesEvents b o cf tables latestSequence w cf' n) := by
  refine calm_ite calm_nil (calm_append (calm_only (calm_pass (calm_rangeEvents o) _ _ n)) ?_)
  exact calm_ite (calm_edit _ w _ cf' n) calm_nil

/-! ## Steps -/

structure Kept (env : Env) (s : State) (op : Op) : Prop where
  traced : Traced env s op
  disciplined : Disciplined env s op
  inv : Inv (exec env s op)

variable {latestSequence : Nat} {st : FileState} {g : TrackedFile}

section

variable {env : Env} {s : State} {op : Op} {s' : State} {p : Notification}

theorem traced_of_sends (h : Sends (events env s op) s.blobs (exec env s op).blobs) : Traced env s op := by
  intro cf n g hg
  rw [← h.state, stateOf, stateIn_some hg]

/-- A step with its events and its result given. -/
theorem kept_of_eq {sent : UInt32 → UInt64 → List FileEvent} (hexec : exec env s op = s')
    (hevents : events env s op = sent) (hsends : Sends sent s.blobs s'.blobs)
    (hallowed : ∀ cf n, Along next (Allowed (Notifies s op cf n)) (stateOf s.blobs cf n) (sent cf n))
    (hinv : Inv s') : Kept env s op := by
  subst hexec hevents
  exact ⟨traced_of_sends hsends, hallowed, hinv⟩

/-- A step that sends calm events only. -/
theorem kept_of_calm (h : Inv s) {sent : UInt32 → UInt64 → List FileEvent} (hexec : exec env s op = s')
    (hevents : events env s op = sent) (hsends : Sends sent s.blobs s'.blobs)
    (hallowed : ∀ cf n, Along next (Allowed (Notifies s op cf n)) (stateOf s.blobs cf n) (sent cf n))
    (hcalm : ∀ cf n, AllCalm (sent cf n)) (hjobs : s'.jobs = s.jobs) (hused : s'.used = s.used)
    (hrewritten : s'.rewritten = s.rewritten) (hundelivered : ∀ p ∈ s'.undelivered, p ∈ s.undelivered) :
    Kept env s op :=
  kept_of_eq hexec hevents hsends hallowed
    (h.calm hsends (fun cf n => calm_of_allowed (hcalm cf n) (hallowed cf n)) hjobs hused hrewritten
      hundelivered)

/-- A step that does nothing. -/
theorem kept_of_same (h : Inv s) (hexec : exec env s op = s) (hevents : ∀ cf n, events env s op cf n = []) :
    Kept env s op :=
  kept_of_eq hexec (funext fun cf => funext fun n => hevents cf n) (Sends.refl _) (fun _ _ => trivial) h

theorem allowed_deliver (h : Inv s) {i : Nat} (hi : s.undelivered[i]? = some p)
    (hsound : Sound env s (.deliver i latestSequence w)) (cf : UInt32) (n : UInt64) :
    Along next (Allowed (Notifies s (.deliver i latestSequence w) cf n)) (stateOf s.blobs cf n)
      (notifyEvents env.options s.blobs p.columnFamilyId latestSequence w p.event cf n) := by
  obtain ⟨he, howns⟩ := h.notifications p (mem_of_getElem? hi)
  have hsound' := hsound p hi
  have hnotified : cf = p.columnFamilyId → n ∈ p.created → Notifies s (.deliver i latestSequence w) cf n :=
    fun hcf hn => ⟨p, hi, hcf.symm, hn⟩
  rw [Owns] at howns
  cases hevent : p.event with
  | flush t =>
    rw [hevent] at he howns
    refine allowed_flush he fun hcf hm hwaits => ?_
    rcases howns n hm with hcreated | hrewritten
    · exact hnotified hcf hcreated
    · exact absurd hwaits ((h.rewritten n hrewritten).2 _)
  | compaction status inputs outputs outputLevel =>
    cases status with
    | some status => trivial
    | none =>
      rw [hevent] at he howns hsound'
      refine allowed_compaction h.files.default h.files.distinct he (fun hcf _ hmore => ?_)
        fun hcf hmerge => ?_
      · refine hnotified hcf ?_
        by_contra hnot
        exact absurd (howns n hnot) (by omega)
      · exact hsound' hcf hmerge n

theorem kept_deliver (h : Inv s) (i : Nat) (latestSequence : Nat) (w : Write)
    (hsound : Sound env s (.deliver i latestSequence w)) : Kept env s (.deliver i latestSequence w) := by
  cases hi : s.undelivered[i]? with
  | none =>
    refine kept_of_same h ?_ fun cf n => ?_
    · rw [exec, hi]
    · rw [events, hi]
  | some p =>
    have hexec : exec env s (.deliver i latestSequence w) =
        { s with
          blobs := notify env.options s.blobs p.columnFamilyId latestSequence w p.event
          undelivered := s.undelivered.eraseIdx i } := by
      rw [exec, hi]
    have hevents : events env s (.deliver i latestSequence w) =
        notifyEvents env.options s.blobs p.columnFamilyId latestSequence w p.event := by
      funext cf n
      rw [events, hi]
    refine kept_of_calm h hexec hevents ?_ (allowed_deliver h hi hsound) (calm_notify _ _ _ _ _ _) rfl rfl rfl
      fun q hq => mem_of_mem_eraseIdx hq
    exact sends_notify env.options h.files.default _ _ w p.event

theorem kept_deleteFilesInRanges (h : Inv s) {cf : UInt32} {tables : List Table}
    (hpromised : Promised s (.deleteFilesInRanges cf tables latestSequence w))
    (hsound : Sound env s (.deleteFilesInRanges cf tables latestSequence w)) :
    Kept env s (.deleteFilesInRanges cf tables latestSequence w) := by
  obtain ⟨hsane, hsmall⟩ := hpromised
  refine kept_of_calm h rfl rfl ?_ (fun cf' n => ?_) (fun cf' n => ?_) rfl rfl rfl fun q hq => hq
  · exact sends_accountRanges h.files.default _ cf tables latestSequence w
  · exact allowed_accountRanges h.files.default h.files.distinct hsane hsmall fun hmerge f =>
      hsound hmerge n f
  · exact calm_accountRanges _ _ _ _ _ _ cf' n

theorem kept_deleteBlobFilesInRanges (h : Inv s) {cf : UInt32} {ranges : List RangePtr}
    {includeEnd : Bool} {obsoleteSequence : Nat}
    (hsound : Sound env s (.deleteBlobFilesInRanges cf ranges includeEnd obsoleteSequence w)) :
    Kept env s (.deleteBlobFilesInRanges cf ranges includeEnd obsoleteSequence w) := by
  by_cases hcf : cf ∈ s.blobs.ids
  · have hexec : exec env s (.deleteBlobFilesInRanges cf ranges includeEnd obsoleteSequence w) =
        { s with blobs := (s.blobs.logAndApply w
            (deleteEdit cf (env.filesInRanges cf s ranges includeEnd) obsoleteSequence)).2 } := by
      rw [exec, if_neg (not_not_intro hcf)]
    have hevents : events env s (.deleteBlobFilesInRanges cf ranges includeEnd obsoleteSequence w) =
        editEvents s.blobs w (deleteEdit cf (env.filesInRanges cf s ranges includeEnd) obsoleteSequence) := by
      funext cf' n
      rw [events, if_neg (not_not_intro hcf)]
    refine kept_of_calm h hexec hevents (sends_edit w rfl hcf) (fun cf' n => ?_) (calm_edit _ _ _) rfl rfl rfl
      fun q hq => hq
    refine allowed_edit rfl hcf fun hfamily hn f hf hwaits => ?_
    rw [deleteEdit, map_map] at hn
    obtain ⟨m, hm, rfl⟩ := mem_map.mp hn
    refine absurd ?_ (hsound m hm)
    subst hfamily
    exact (stateIn_some hf).trans hwaits
  · refine kept_of_same h ?_ fun cf' n => ?_
    · rw [exec, if_pos hcf]
    · rw [events, if_pos hcf]

/-! ### Jobs -/

theorem allowed_gcBegin : Allowed notified .normal .gcBegin where
  asserted := rfl
  obsolete h := by cases h
  waits h := by cases h

theorem allowed_pick {cf : UInt32} {inputs : List UInt64} (hnodup : inputs.Nodup)
    (hnormal : ∀ n ∈ inputs, stateOf s.blobs cf n = .normal) (cf' : UInt32) (n : UInt64) :
    Along next (Allowed notified) (stateOf s.blobs cf' n)
      (only cf (transitEvents (s.blobs.storage cf) .gcBegin inputs) cf' n) := by
  refine allowed_only fun hfamily => ?_
  subst hfamily
  refine allowed_transit hnodup fun hn _ => ?_
  rw [show stateIn (s.blobs.storage cf') n = .normal from hnormal n hn]
  exact allowed_gcBegin

theorem kept_pick (h : Inv s) {cf : UInt32} {inputs : List UInt64}
    (hpromised : Promised s (.pick cf inputs)) :
    Kept env s (.pick cf inputs) := by
  obtain ⟨hcf, hnodup, hnormal⟩ := hpromised
  have hsends : Sends (events env s (.pick cf inputs)) s.blobs (exec env s (.pick cf inputs)).blobs :=
    sends_transit s.blobs cf .gcBegin inputs
  refine ⟨traced_of_sends hsends, fun cf' n => ?_,
    h.files.pick env hnodup hnormal hcf, h.notifications, fun n hn => ⟨(h.rewritten n hn).1, fun cf' => ?_⟩⟩
  · exact allowed_pick hnodup hnormal cf' n
  · rw [pick_state env hnodup hnormal]
    split
    · decide
    · exact (h.rewritten n hn).2 cf'

theorem allowed_gcCompleted (h : st = .beingGC ∨ st = .pendingGC ∨ st = .obsolete) :
    Allowed notified st .gcCompleted := by
  rcases h with rfl | rfl | rfl
  · exact ⟨.inr (.inr rfl), (by intro h; cases h), (by intro h; cases h)⟩
  · exact ⟨.inr (.inl rfl), (by intro h; cases h), (by intro h; cases h)⟩
  · exact ⟨.inl rfl, fun _ => rfl, (by intro h; cases h)⟩

section

variable {i : Nat} {j : Job} (hi : s.jobs[i]? = some j)

include hi

theorem allowed_release (h : JobFiles.Inv s) (cf : UInt32) (n : UInt64) :
    Along next (Allowed notified) (stateOf s.blobs cf n) (releaseEvents s.blobs j cf n) := by
  have hj := mem_of_getElem? hi
  refine allowed_only fun hfamily => ?_
  subst hfamily
  refine allowed_transit ?_ fun hn hthere => allowed_gcCompleted ((h.jobs j hj).held hn hthere)
  exact (nodup_flatMap.mp h.once).1 j hj

theorem Inv.releaseJob (h : Inv s) : Inv (s.releaseJob i j) := by
  refine ⟨h.files.releaseJob hi, h.notifications, fun n hn => ⟨(h.rewritten n hn).1, fun cf => ?_⟩⟩
  rw [release_state hi h.files]
  have hwaits := (h.rewritten n hn).2 cf
  split
  · revert hwaits
    cases stateOf s.blobs cf n <;> decide
  · exact hwaits

end

theorem kept_failJob (h : Inv s) (i : Nat) : Kept env s (.failJob i) := by
  cases hi : s.jobs[i]? with
  | none =>
    refine kept_of_same h ?_ fun cf n => ?_
    · rw [exec, hi]
    · rw [events, hi]
  | some j =>
    refine kept_of_eq (by rw [exec, hi]) ?_ (sends_release s i j) (allowed_release hi h.files)
      (h.releaseJob hi)
    funext cf n
    rw [events, hi]

/-- The inputs of a job do not wait. -/
theorem allowed_deleteInputs (h : JobFiles.Inv s) {i : Nat} (hi : s.jobs[i]? = some j)
    (obsoleteSequence : Nat) (w : Write) (cf : UInt32) (n : UInt64) :
    Along next (Allowed notified) (stateOf s.blobs cf n)
      (editEvents s.blobs w (deleteInputsEdit (s.blobs.storage j.columnFamilyId) j obsoleteSequence)
        cf n) := by
  have hjob := h.jobs j (mem_of_getElem? hi)
  refine allowed_edit rfl hjob.family fun hfamily hn f hf hwaits => ?_
  rw [deleteInputsEdit, deleteEdit, map_map] at hn
  obtain ⟨m, hm, rfl⟩ := mem_map.mp hn
  subst hfamily
  have hfile : (s.blobs.storage j.columnFamilyId).files m = some f := hf
  have hheld := hjob.inputs m (mem_filter.mp hm).1 (by rw [hfile]; rfl)
  rw [stateOf, stateIn_some hfile, hwaits] at hheld
  exact absurd hheld (by decide)

theorem kept_finishJob (h : Inv s) (i : Nat) (obsoleteSequence : Nat) (w : Write) :
    Kept env s (.finishJob i obsoleteSequence w) := by
  cases hi : s.jobs[i]? with
  | none =>
    refine kept_of_same h ?_ fun cf n => ?_
    · rw [exec, hi]
    · rw [events, hi]
  | some j =>
    have hdeletes : Sends _ s.blobs (s.deleteInputs j obsoleteSequence w) :=
      sends_edit w rfl (h.files.jobs j (mem_of_getElem? hi)).family
    have hallowed : ∀ cf n, Along next (Allowed (Notifies s (.finishJob i obsoleteSequence w) cf n)) _ _ :=
      fun cf n => allowed_deleteInputs h.files hi obsoleteSequence w cf n
    have hdeleted : Inv { s with blobs := s.deleteInputs j obsoleteSequence w } :=
      h.calm hdeletes (fun cf n => calm_of_allowed (calm_edit _ _ _ cf n) (hallowed cf n)) rfl rfl rfl
        fun p hp => hp
    have hi' : { s with blobs := s.deleteInputs j obsoleteSequence w }.jobs[i]? = some j := hi
    have hexec : exec env s (.finishJob i obsoleteSequence w) =
        { s with blobs := s.deleteInputs j obsoleteSequence w }.releaseJob i j := by rw [exec, hi]
    have hevents : events env s (.finishJob i obsoleteSequence w) = fun cf n =>
        editEvents s.blobs w (deleteInputsEdit (s.blobs.storage j.columnFamilyId) j obsoleteSequence) cf n ++
          releaseEvents (s.deleteInputs j obsoleteSequence w) j cf n := by
      funext cf n
      rw [events, hi]
    refine kept_of_eq hexec hevents ?_ (fun cf n => along_append.mpr ⟨hallowed cf n, ?_⟩)
      (hdeleted.releaseJob hi')
    · exact hdeletes.trans (sends_release { s with blobs := s.deleteInputs j obsoleteSequence w } i j)
    · rw [← hdeletes.state]
      exact allowed_release hi' hdeleted.files cf n

/-! ### New files -/

/-- Files that were known do not come to wait. -/
theorem Inv.mono (h : Inv s) (hfiles : JobFiles.Inv s') (hused : ∀ n ∈ s.used, n ∈ s'.used)
    (hrewritten : s'.rewritten = s.rewritten) (hundelivered : s'.undelivered = s.undelivered)
    (hold : ∀ cf n g, n ∈ s.used → (s'.blobs.storage cf).files n = some g →
      (s.blobs.storage cf).files n = some g) : Inv s' := by
  refine ⟨hfiles, ?_, fun n hn => ?_⟩
  · rw [hundelivered, hrewritten]
    exact h.notifications
  · rw [hrewritten] at hn
    obtain ⟨hknown, hwaits⟩ := h.rewritten n hn
    refine ⟨hused n hknown, fun cf hstate => hwaits cf ?_⟩
    obtain ⟨g, hg⟩ := Option.isSome_iff_exists.mp
      (isSome_of_state (hstate.symm ▸ (by decide : FileState.pendingLSM ≠ FileState.init)))
    rw [stateOf, stateIn_some hg] at hstate
    rw [stateOf, stateIn_some (hold cf n g hknown hg), hstate]

section

variable {w : Write} {e : Edit} {numbers : List UInt64} (hdeleted : e.deletedFiles = [])
  (hnumbers : ∀ g ∈ e.addedFiles, g.file.fileNumber ∈ numbers) (hnew : ∀ n ∈ numbers, n ∉ s.used)

include hnew in
theorem state_new (h : JobFiles.Inv s) (hn : n ∈ numbers) (cf : UInt32) : stateOf s.blobs cf n = .init := by
  by_contra hstate
  exact hnew n hn (h.stored cf n (isSome_of_state hstate))

include hnew in
theorem allowed_added (h : JobFiles.Inv s) (hnodup : numbers.Nodup) (hevent : Asserts .init event)
    (cf cf' : UInt32) (n : UInt64) :
    Along next (Allowed notified) (stateOf s.blobs cf' n)
      (only cf (fun n => replicate (numbers.count n) event) cf' n) := by
  refine allowed_only fun _ => allowed_once hnodup fun hn => ?_
  rw [state_new hnew h hn]
  exact ⟨hevent, (by intro hobs; cases hobs), (by intro hwaits; cases hwaits)⟩

include hdeleted hnumbers hnew

theorem traced_added (h : JobFiles.Inv s) (hnodup : numbers.Nodup)
    (hstate : ∀ g ∈ e.addedFiles, g.state = next .init event) {cf : UInt32}
    (hg : ((s.blobs.logAndApply w e).2.storage cf).files n = some g) :
    g.state = (only e.columnFamilyId (fun n => replicate (numbers.count n) event) cf n).foldl next
      (stateOf s.blobs cf n) := by
  rcases logAndApply_added s.blobs w hdeleted hg with hold | ⟨rfl, -, hadded, rfl⟩
  · have hnot : n ∉ numbers := fun hn => hnew n hn (h.stored cf n (by rw [hold]; rfl))
    rw [only, count_eq_zero.mpr hnot, replicate_zero, ite_self, stateOf, stateIn_some hold]
    rfl
  · have hn := hnumbers g hadded
    rw [only, if_pos rfl, count_eq_one_of_mem hnodup hn, state_new hnew h hn, hstate g hadded]
    rfl

end

theorem kept_finish (h : Inv s) {cf : UInt32} {files : List BlobFileMeta}
    (hpromised : Promised s (.finish cf files w)) : Kept env s (.finish cf files w) := by
  obtain ⟨-, hnodup, hfresh⟩ := hpromised
  have hnumbers : ∀ g ∈ (finishEdit cf files).addedFiles, g.file.fileNumber ∈ files.map (·.fileNumber) :=
    forall_mem_map.mpr fun f hf => mem_map_of_mem hf
  have hnew : ∀ n ∈ files.map (·.fileNumber), n ∉ s.used := forall_mem_map.mpr hfresh
  refine ⟨fun cf' n g hg => ?_, fun cf' n => ?_, ?_⟩
  · exact traced_added rfl hnumbers hnew h.files hnodup (forall_mem_map.mpr fun _ _ => rfl) hg
  · exact allowed_added hnew h.files hnodup (show Asserts .init .flushOrCompactionOutput from rfl) cf cf' n
  · exact h.mono (h.files.finish env hfresh) (fun n hn => mem_append_left _ hn) rfl rfl
      fun cf n g hn hg => old_file rfl hnumbers hnew hg hn

theorem kept_install (h : Inv s) (hpromised : Promised s (.install p)) : Kept env s (.install p) := by
  refine ⟨traced_of_sends (Sends.refl s.blobs), fun _ _ => trivial, ?_⟩
  exact ⟨{ h.files with }, forall_mem_append.mpr ⟨h.notifications, forall_mem_singleton.mpr
    ⟨hpromised.1, hpromised.2.2⟩⟩, h.rewritten⟩

theorem kept_purge (h : Inv s) (cf : UInt32) (oldestSequence : Nat) :
    Kept env s (.purge cf oldestSequence) := by
  have hfiles : ∀ cf' n g, ((exec env s (.purge cf oldestSequence)).blobs.storage cf').files n = some g →
      (s.blobs.storage cf').files n = some g := fun _ _ _ hg => purge_files hg
  refine ⟨fun cf' n g hg => ?_, fun _ _ => trivial, ?_⟩
  · rw [stateOf, stateIn_some (hfiles cf' n g hg)]
    rfl
  · exact h.mono (h.files.purge env cf oldestSequence) (fun _ hn => hn) rfl rfl
      fun cf' n g _ hg => hfiles cf' n g hg

theorem Owns.mono {rewritten more : List UInt64} (h : Owns rewritten p) : Owns (rewritten ++ more) p := by
  unfold Owns at h ⊢
  split at h
  · exact fun n hn => (h n hn).imp_right (mem_append_left _)
  · exact h
  · trivial

theorem kept_installOutputs (h : Inv s) {i : Nat} {files : List (BlobFileMeta × UInt64)}
    (hpromised : Promised s (.installOutputs i files w)) :
    Kept env s (.installOutputs i files w) := by
  obtain ⟨hnodup, hfresh⟩ := hpromised
  cases hi : s.jobs[i]? with
  | none =>
    refine kept_of_same h ?_ fun cf n => ?_
    · rw [exec, hi]
    · rw [events, hi]
  | some j =>
    have hadded : ∀ g ∈ (outputEdit j.columnFamilyId files).addedFiles,
        g.file.fileNumber ∈ files.map (·.1.fileNumber) ∧ g.state = .pendingGC :=
      forall_mem_map.mpr fun f hf => ⟨mem_map_of_mem hf, rfl⟩
    have hnew : ∀ n ∈ files.map (·.1.fileNumber), n ∉ s.used := forall_mem_map.mpr hfresh
    have hevents : events env s (.installOutputs i files w) = only j.columnFamilyId
        (fun n => replicate ((files.map (·.1.fileNumber)).count n) .gcOutput) := by
      funext cf n
      rw [events, hi]
    have hblobs : (exec env s (.installOutputs i files w)).blobs =
        (s.blobs.logAndApply w (outputEdit j.columnFamilyId files)).2 := by
      rw [exec, hi]
      dsimp only
      split
      · rfl
      · rename_i hrefused
        exact (refused_same hrefused).symm
    have hundelivered : (exec env s (.installOutputs i files w)).undelivered = s.undelivered := by
      rw [exec, hi]
      dsimp only
      split <;> rfl
    have hused : (exec env s (.installOutputs i files w)).used = s.used ++ files.map (·.1.fileNumber) := by
      rw [exec, hi]
      dsimp only
      split <;> rfl
    have hrewritten : ∃ more, (exec env s (.installOutputs i files w)).rewritten = s.rewritten ++ more ∧
        ∀ n ∈ more, n ∈ files.map (·.1.fileNumber) := by
      rw [exec, hi]
      dsimp only
      split
      · exact ⟨_, rfl, fun n hn => hn⟩
      · exact ⟨[], (append_nil _).symm, forall_mem_nil _⟩
    refine ⟨fun cf n g hg => ?_, fun cf n => ?_, ?_⟩
    · rw [hevents]
      rw [hblobs] at hg
      have hstate : ∀ g ∈ (outputEdit j.columnFamilyId files).addedFiles, g.state = next .init .gcOutput :=
        fun g hg => (hadded g hg).2
      exact traced_added rfl (fun g hg => (hadded g hg).1) hnew h.files hnodup hstate hg
    · rw [hevents]
      exact allowed_added hnew h.files hnodup (show Asserts .init .gcOutput from rfl) _ cf n
    · have hfiles := h.files.installOutputs env (i := i) (w := w) hnodup hfresh
      obtain ⟨more, hmore, hnumbers⟩ := hrewritten
      -- the files that were known before
      have hbefore : Inv { exec env s (.installOutputs i files w) with rewritten := s.rewritten } := by
        refine h.mono { hfiles with } (fun n hn => hused ▸ mem_append_left _ hn) rfl hundelivered
          fun cf n g hn hg => old_file (w := w) rfl (fun g hg => (hadded g hg).1) hnew ?_ hn
        rw [← hblobs]
        exact hg
      refine ⟨hfiles, fun p hp => ?_, fun n hn => ?_⟩
      · rw [hmore]
        exact (hbefore.notifications p hp).imp_right Owns.mono
      · rw [hmore] at hn
        rcases mem_append.mp hn with hn | hn
        · exact hbefore.rewritten n hn
        · refine ⟨hused ▸ mem_append_right _ (hnumbers n hn), fun cf hstate => ?_⟩
          obtain ⟨g, hg⟩ := Option.isSome_iff_exists.mp
            (isSome_of_state (hstate.symm ▸ (by decide : FileState.pendingLSM ≠ FileState.init)))
          rw [stateOf, stateIn_some hg] at hstate
          rw [hblobs] at hg
          rcases logAndApply_added _ _ rfl hg with hold | ⟨-, -, hmem, -⟩
          · exact hnew n (hnumbers n hn) (h.files.stored cf n (by rw [hold]; rfl))
          · rw [(hadded g hmem).2] at hstate
            cases hstate

/-! ## Runs -/

theorem kept (h : Inv s) (hpromised : Promised s op) (hsound : Sound env s op) : Kept env s op := by
  cases op with
  | finish cf files w => exact kept_finish h hpromised
  | install p => exact kept_install h hpromised
  | deliver i latestSequence w => exact kept_deliver h i latestSequence w hsound
  | purge cf oldestSequence => exact kept_purge h cf oldestSequence
  | pick cf inputs => exact kept_pick h hpromised
  | installOutputs i files w => exact kept_installOutputs h hpromised
  | finishJob i obsoleteSequence w => exact kept_finishJob h i obsoleteSequence w
  | failJob i => exact kept_failJob h i
  | deleteFilesInRanges cf tables latestSequence w => exact kept_deleteFilesInRanges h hpromised hsound
  | deleteBlobFilesInRanges cf ranges includeEnd obsoleteSequence w =>
      exact kept_deleteBlobFilesInRanges h hsound

end

/-- In every run from an opened database whose steps meet `Sound`, with notifications in any
order and jobs that run at the same time: the events of each step are what happens to the
states, and each of them is allowed where it comes. -/
theorem states_disciplined (env : Env) {s₀ : State} (hopened : Opened s₀) {ops : List Op}
    (h : Along (exec env) (fun s op => Promised s op ∧ Sound env s op) s₀ ops) :
    Along (exec env) (fun s op => Traced env s op ∧ Disciplined env s op) s₀ ops := by
  refine Along.imp Inv (fun s op hinv hop => ?_) (fun s op hinv hop => ?_) hopened.inv h
  · exact (kept hinv hop.1 hop.2).inv
  · have hkept : Kept env s op := kept hinv hop.1 hop.2
    exact ⟨hkept.traced, hkept.disciplined⟩

/-! ## Examples -/

def fresh : State := { blobs := { ids := [0], storage := fun _ => {} } }

theorem fresh_opened : Opened fresh where
  default := mem_singleton.mpr rfl
  restarted cf n f hf := by cases hf
  stored cf n hn := by cases hn
  distinct cf cf' n hn := by cases hn
  quiet := ⟨rfl, rfl, rfl, rfl⟩

/-- A storage with one file has it in `blob_ranges_`. -/
def onlyFile (st : Storage) : List TrackedFile := (st.files 3).toList.filter (·.file.fileNumber == 3)

theorem onlyFile_files (st : Storage) : ∀ f ∈ onlyFile st, st.files f.file.fileNumber = some f := by
  intro f hf
  obtain ⟨hmem, hn⟩ := mem_filter.mp hf
  rw [beq_iff_eq.mp hn]
  exact Option.mem_toList.mp hmem

def merging : Env where
  options _ := { levelMerge := true, maxSortedRuns := 1, discardable := fun _ => true }
  compare := compareOn List.length
  blobRanges := onlyFile
  blobRanges_files := onlyFile_files

def indexIn (file : UInt64) (key : UInt8) : Entry where
  key := [key]
  value := ({ fileNumber := file, blobHandle := { size := 10 } } : BlobIndex).encodeTo
  type := .blobIndex

variable {created : List UInt64}

/-- What is promised of a flush, checked for the files that its table mentions. -/
theorem flush_promised {s : State} {cf : UInt32} {t : Table}
    (h : Sane t ∧ allReferenced t.entries < 2 ^ 63 ∧
      created.all (fun n => (cf, n) ∈ s.finished) ∧
      (t.entries.filterMap Entry.reference).all fun r => r.1 ∈ created) :
    Promised s (.install ⟨cf, .flush t, created⟩) := by
  obtain ⟨hsane, hsum, hcreated, hown⟩ := h
  simp only [all_eq_true, decide_eq_true_eq] at hcreated hown
  refine ⟨⟨hsane, fun n => (referenced_le t.entries n).trans_lt hsum⟩, hcreated, fun n hm => ?_⟩
  obtain ⟨size, hmem⟩ := hm
  exact .inl (hown (n, size) hmem)

/-- What is promised of a compaction, checked for the files that its outputs mention. -/
theorem compaction_promised {s : State} {cf : UInt32} (h : (∀ t ∈ inputs ++ outputs, Sane t) ∧
      (∀ a ∈ inputs ++ outputs, ∀ b ∈ inputs ++ outputs, a.number = b.number → a.entries = b.entries) ∧
      (inputs.map (allReferenced ·.entries)).sum < 2 ^ 63 ∧
      (outputs.map (allReferenced ·.entries)).sum < 2 ^ 63 ∧
      created.all (fun n => (cf, n) ∈ s.finished) ∧
      ∀ t ∈ outputs, (t.entries.filterMap Entry.reference).all fun r =>
        r.1 ∈ created ∨ refs outputs r.1 ≤ refs inputs r.1) :
    Promised s (.install ⟨cf, .compaction none inputs outputs outputLevel, created⟩) := by
  obtain ⟨hsane, hnamed, hin, hout, hcreated, hown⟩ := h
  simp only [all_eq_true, decide_eq_true_eq] at hcreated hown
  refine ⟨⟨hsane, hnamed, fun n => ⟨(refs_le inputs n).trans_lt hin, (refs_le outputs n).trans_lt hout⟩⟩,
    hcreated, fun n hn => ?_⟩
  by_cases hr : Referenced outputs n
  · obtain ⟨t, ht, size, hmem⟩ := hr
    exact (hown t ht (n, size) hmem).resolve_left hn
  · rw [refs_eq_zero hr]
    exact Nat.zero_le _

/-! ### A run that keeps to it -/

def collected : List Op :=
  [.finish 0 [{ fileNumber := 3 }] .ok, .install ⟨0, .flush (table 10 0 1 1 [indexIn 3 1]), [3]⟩,
    .deliver 0 0 .ok, .pick 0 [3], .installOutputs 0 [({ fileNumber := 5 }, 10)] .ok, .finishJob 0 7 .ok]

theorem collected_disciplined :
    stateOf (collected.foldl (exec merging) fresh).blobs 0 3 = .obsolete ∧
      stateOf (collected.foldl (exec merging) fresh).blobs 0 5 = .normal ∧
      Along (exec merging) (fun s op => Traced merging s op ∧ Disciplined merging s op) fresh collected := by
  refine ⟨by decide, by decide, states_disciplined merging fresh_opened ?_⟩
  refine ⟨⟨⟨by decide, by decide, by decide⟩, trivial⟩, ⟨flush_promised (by decide), trivial⟩,
    ⟨trivial, fun p hp _ _ n hemptied => ?_⟩,
      ⟨⟨by decide, by decide, forall_mem_singleton.mpr (by decide)⟩, trivial⟩,
    ⟨⟨by decide, by decide⟩, trivial⟩, ⟨trivial, trivial⟩, trivial⟩
  obtain rfl := Option.some.inj hp
  exact hemptied

/-! ### Runs that break it -/

/-- What the callers promise is kept, and a call is made where it is not allowed. -/
def Breaks (ops : List Op) : Prop :=
  Along (exec merging) Promised fresh ops ∧ ¬ Along (exec merging) (Disciplined merging) fresh ops

/-- The last step breaks it. -/
theorem breaks_last {ops : List Op} {op : Op}
    (hpromised : Along (exec merging) Promised fresh (ops ++ [op]))
    (hevents : events merging (ops.foldl (exec merging) fresh) op 0 3 = sent)
    (hstate : stateOf (ops.foldl (exec merging) fresh).blobs 0 3 = st)
    (hnot : ¬ Along next (Allowed (Notifies (ops.foldl (exec merging) fresh) op 0 3)) st sent) :
    Breaks (ops ++ [op]) := by
  refine ⟨hpromised, fun h => hnot ?_⟩
  have hlast := (along_append.mp h).2.1 0 3
  rw [hevents, hstate] at hlast
  exact hlast

def valuesTable : Table := table 9 0 1 2 [inline 1, inline 2]
def indexesTable : Table := table 10 1 1 2 [indexIn 3 1, indexIn 4 2]
def restTable : Table := table 11 2 2 2 [indexIn 4 2]

/-- A compaction writes files 3 and 4, a later one drops the only index into file 3, and the
notification of the later one comes first. -/
def overtaken : List Op :=
  [.finish 0 [{ fileNumber := 3 }, { fileNumber := 4 }] .ok,
    .install ⟨0, .compaction none [valuesTable] [indexesTable] 1, [3, 4]⟩,
    .install ⟨0, .compaction none [indexesTable] [restTable] 2, []⟩, .deliver 1 0 .ok]

def flushedTable : Table := table 10 0 1 3 [indexIn 3 1, indexIn 3 2, indexIn 3 3]
def keptTable : Table := table 11 1 1 1 [indexIn 3 1]

/-- A flush writes file 3, and a compaction whose notification comes first keeps one index of
three. -/
def indebted : List Op :=
  [.finish 0 [{ fileNumber := 3 }] .ok, .install ⟨0, .flush flushedTable, [3]⟩,
    .install ⟨0, .compaction none [flushedTable] [keptTable] 1, []⟩, .deliver 1 0 .ok]

def waiting : List Op := [.finish 0 [{ fileNumber := 3 }] .ok, .install ⟨0, .flush flushedTable, [3]⟩]

/-- The notification that was overtaken deletes file 3 and marks it when it is obsolete; the
deletion of the table that is left marks a file that waits; and a deletion of all blob files
takes a file that waits. -/
theorem states_undisciplined :
    Opened fresh ∧ Breaks (overtaken ++ [.deliver 0 0 .ok]) ∧
      Breaks (indebted ++ [.deleteFilesInRanges 0 [keptTable] 0 .ok]) ∧
      Breaks (waiting ++ [.deleteBlobFilesInRanges 0 [⟨none, none⟩] true 0 .ok]) := by
  refine ⟨fresh_opened, ?_, ?_, ?_⟩
  · have hevents : events merging (overtaken.foldl (exec merging) fresh) (.deliver 0 0 .ok) 0 3 =
        [.compactionCompleted, .delete, .needMerge] := by decide
    have hstate : stateOf (overtaken.foldl (exec merging) fresh).blobs 0 3 = .pendingLSM := by decide
    refine breaks_last ?_ hevents hstate fun h => ?_
    · exact ⟨⟨by decide, by decide, by decide⟩, compaction_promised (by decide),
        compaction_promised (by decide),
        trivial, trivial, trivial⟩
    · exact absurd h.2.2.1.asserted (by decide)
  · have hevents : events merging (indebted.foldl (exec merging) fresh)
        (.deleteFilesInRanges 0 [keptTable] 0 .ok) 0 3 = [.needMerge] := by decide
    have hstate : stateOf (indebted.foldl (exec merging) fresh).blobs 0 3 = .pendingLSM := by decide
    refine breaks_last ?_ hevents hstate fun h => ?_
    · refine ⟨⟨by decide, by decide, by decide⟩, flush_promised (by decide), compaction_promised (by decide),
        trivial, ⟨by decide, fun n => (refs_le _ n).trans_lt (by decide)⟩, trivial⟩
    · exact absurd h.1.asserted (by decide)
  · have hevents : events merging (waiting.foldl (exec merging) fresh)
        (.deleteBlobFilesInRanges 0 [⟨none, none⟩] true 0 .ok) 0 3 = [.delete] := by decide
    have hstate : stateOf (waiting.foldl (exec merging) fresh).blobs 0 3 = .pendingLSM := by decide
    refine breaks_last ?_ hevents hstate fun h => ?_
    · exact ⟨⟨by decide, by decide, by decide⟩, flush_promised (by decide), trivial, trivial⟩
    · exact h.1.waits rfl (by decide)

end TitanGC.Scheduling.Discipline
