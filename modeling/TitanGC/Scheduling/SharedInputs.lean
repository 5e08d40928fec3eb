import TitanGC.Scheduling.Discipline

/-!
# Concurrent jobs share no input

A job takes files in state `kNormal` and marks them `kBeingGC` while it holds `mutex_`,
and releases its own files only, so the inputs of the running jobs are disjoint; and the
list of scores is never behind a purge. Both rest on the column families that a
compaction or `DeleteFilesInRanges` accounts for not using `level_merge`: one that does
takes a file away from its job, or revives one that is about to be purged.
-/

namespace TitanGC.Scheduling.SharedInputs

open Lib.Runs Function
open List hiding after
open Manifest.VersionEdits Manifest.Logging
open Accounting.SizeCollector Accounting.Tracking Accounting.Listener
open Accounting.History (Event notify finishEdit)
open Accounting.LiveData (table)
open Accounting.Preservation (addBlobFile_files logAndApply_added)
open Picker Jobs Transitions BlobFiles JobFiles
open Discipline (Allowed AllCalm allowed_only allowed_pass allowed_flushEvents allowed_compactEvents
  allowed_rangeEvents allowed_edit allowed_pick allowed_release allowed_deleteInputs calm_of_allowed
  calm_notify calm_edit calm_accountRanges)

variable {R : Type}

/-! ## Steps -/

/-- The files and jobs, and what `BackgroundGC` and a purge read beside them. -/
structure Db (R : Type) where
  files : State
  gcScore : UInt32 → List (GCScore R)
  /-- The column families that are dropped and whose handles are not yet destroyed. -/
  obsoleteColumns : UInt32 → Bool := fun _ => false

inductive Action (R : Type) where
  /-- A step of the files and jobs, with the scores that it leaves. -/
  | step (op : Op) (gcScore : UInt32 → List (GCScore R))
  | computeGCScore (cf : UInt32) (gcScore : List (GCScore R))
  | dropColumnFamily (cf : UInt32) (fileNumbers : List UInt64) (obsoleteSequence : Nat) (w : Write)
      (gcScore : List (GCScore R))
  | destroyColumnFamily (cf : UInt32)

def act (env : Env) (s : Db R) : Action R → Db R
  | .step op gcScore => { s with files := exec env s.files op, gcScore }
  | .computeGCScore cf gcScore => { s with gcScore := update s.gcScore cf gcScore }
  | .dropColumnFamily cf fileNumbers obsoleteSequence w gcScore =>
    let r := s.files.blobs.logAndApply w (deleteEdit cf fileNumbers obsoleteSequence)
    if r.1 = none then
      { files := { s.files with blobs := r.2 }
        gcScore := update s.gcScore cf gcScore
        obsoleteColumns := update s.obsoleteColumns cf true }
    else s
  | .destroyColumnFamily cf => { s with obsoleteColumns := update s.obsoleteColumns cf false }

section

variable [LinearOrder R] (env : Env) (options : UInt32 → GCOptions R)

/-- The scores that a step leaves. `LogAndApply` computes them again when it has applied an
edit, so they are only left alone where nothing is marked obsolete. -/
def Rescored (o : GCOptions R) (st st' : Storage) (gcScore gcScore' : List (GCScore R)) : Prop :=
  ComputeGCScore o st' gcScore' ∨
    gcScore' = gcScore ∧ ∀ x ∈ st'.obsoleteFiles, x ∈ st.obsoleteFiles

/-- When a thread makes the step: new files have new numbers, a job gets what `PickBlobGC`
returns, and dropped column families wait for their handles. -/
def Ready (s : Db R) : Op → Prop
  | .finish _ files _ => ∀ f ∈ files, f.fileNumber ∉ s.files.used
  | .pick cf inputs => cf ∈ s.files.blobs.ids ∧ s.obsoleteColumns cf = false ∧ ∃ triggerNext,
      pickBlobGC (options cf) (s.files.blobs.storage cf) (s.gcScore cf) = .ok (some ⟨inputs, triggerNext⟩)
  | .installOutputs _ files _ =>
    (files.map (·.1.fileNumber)).Nodup ∧ ∀ f ∈ files, f.1.fileNumber ∉ s.files.used
  | .purge cf _ => s.obsoleteColumns cf = false
  | .install _ | .deliver _ _ _ | .finishJob _ _ _ | .failJob _ | .deleteFilesInRanges _ _ _ _
  | .deleteBlobFilesInRanges _ _ _ _ _ => True

def Promised (s : Db R) : Action R → Prop
  | .step op gcScore => Ready options s op ∧ ∀ cf, Rescored (options cf) (s.files.blobs.storage cf)
      ((exec env s.files op).blobs.storage cf) (s.gcScore cf) (gcScore cf)
  | .computeGCScore cf gcScore => ComputeGCScore (options cf) (s.files.blobs.storage cf) gcScore
  -- every file that is not obsolete is deleted
  | .dropColumnFamily cf fileNumbers obsoleteSequence _ gcScore => cf ∈ s.files.blobs.ids ∧
      (∀ n, n ∈ fileNumbers ↔ inputObsolete (s.files.blobs.storage cf) n = false) ∧
      ComputeGCScore (options cf)
        ((s.files.blobs.storage cf).apply (deleteEdit cf fileNumbers obsoleteSequence)) gcScore
  | .destroyColumnFamily cf => s.obsoleteColumns cf = true

/-- No compaction and no range deletion is accounted for under `level_merge`. -/
def Unmerged (s : Db R) : Action R → Prop
  | .step (.deliver i _ _) _ => ∀ cf status inputs outputs outputLevel created,
      s.files.undelivered[i]? = some ⟨cf, .compaction status inputs outputs outputLevel, created⟩ →
        (env.options cf).levelMerge = false
  | .step (.deleteFilesInRanges cf _ _ _) _ => (env.options cf).levelMerge = false
  | _ => True

/-- No two jobs share an input, a file is in state `kBeingGC` exactly when it is not obsolete
and an input of one job, the scores name files that are there, and `PickBlobGC` reads no
other. -/
structure Apart (s : Db R) : Prop where
  disjoint : s.files.jobs.Pairwise fun j k => ∀ n ∈ j.inputs, n ∉ k.inputs
  beingGC : ∀ cf n f, (s.files.blobs.storage cf).files n = some f → (f.state = .beingGC ↔
    f.state ≠ .obsolete ∧ s.files.jobs.countP (fun j => decide (n ∈ j.inputs)) = 1)
  scored : ∀ cf, ∀ g ∈ s.gcScore cf, ∃ f, (s.files.blobs.storage cf).files g.fileNumber = some f
  read : ∀ cf n, pickBlobGC (options cf) (s.files.blobs.storage cf) (s.gcScore cf) ≠ .error n

end

structure Opened (s : Db R) : Prop where
  files : Discipline.Opened s.files
  purged : ∀ cf, (s.files.blobs.storage cf).obsoleteFiles = []
  scored : ∀ cf, ∀ g ∈ s.gcScore cf, ∃ f, (s.files.blobs.storage cf).files g.fileNumber = some f
  scoredOnce : ∀ cf, ((s.gcScore cf).map (·.fileNumber)).Nodup

/-! ## Files that are marked obsolete -/

def Marked (s : State) (cf : UInt32) : Prop :=
  ∀ x ∈ (s.blobs.storage cf).obsoleteFiles, x.1 ∈ s.used ∧
    (((s.blobs.storage cf).files x.1).isSome → stateOf s.blobs cf x.1 = .obsolete)

/-- What a step leaves of the files: only a file that is marked goes, and what is marked or
was obsolete is obsolete. -/
structure Settles (s s' : State) : Prop where
  used : ∀ n ∈ s.used, n ∈ s'.used
  kept : ∀ cf n, ((s.blobs.storage cf).files n).isSome →
    ((s'.blobs.storage cf).files n).isSome ∨ n ∈ (s.blobs.storage cf).obsoleteFiles.map (·.1)
  marked : ∀ cf, ∀ x ∈ (s'.blobs.storage cf).obsoleteFiles, x ∈ (s.blobs.storage cf).obsoleteFiles ∨
    x.1 ∈ s.used ∧ stateOf s'.blobs cf x.1 = .obsolete
  obsolete : ∀ cf, ∀ n ∈ s.used, ((s'.blobs.storage cf).files n).isSome →
    ((s.blobs.storage cf).files n).isSome ∧ (stateOf s.blobs cf n = .obsolete →
      stateOf s'.blobs cf n = .obsolete)

variable {s s' : State} {cf : UInt32} {n : UInt64}

theorem Settles.marks (h : Settles s s') (hmarked : ∀ cf, Marked s cf) (cf : UInt32) : Marked s' cf := by
  intro x hx
  rcases h.marked cf x hx with hold | ⟨hused, hstate⟩
  · obtain ⟨hused, hstate⟩ := hmarked cf x hold
    refine ⟨h.used _ hused, fun hthere => ?_⟩
    obtain ⟨hbefore, hstays⟩ := h.obsolete cf x.1 hused hthere
    exact hstays (hstate hbefore)
  · exact ⟨h.used _ hused, fun _ => hstate⟩

section

variable {notified : Prop} {state : FileState} {sent : List FileEvent}

theorem obsolete_stays (h : Along next (Allowed notified) state sent) (hstate : state = .obsolete) :
    sent.foldl next state = .obsolete := by
  induction sent generalizing state with
  | nil => exact hstate
  | cons e sent ih => exact ih h.2 (h.1.obsolete hstate)

theorem deleted_obsolete (h : Along next (Allowed notified) state sent) (hdelete : .delete ∈ sent) :
    sent.foldl next state = .obsolete := by
  induction sent generalizing state with
  | nil => exact absurd hdelete not_mem_nil
  | cons e sent ih =>
    rcases mem_cons.mp hdelete with rfl | hdelete
    · have hobsolete : next state .delete = .obsolete := by cases state <;> rfl
      rw [foldl_cons]
      exact obsolete_stays h.2 hobsolete
    · exact ih h.2 hdelete

end

/-- A step that sends events where they are allowed. -/
theorem settles_sent (h : JobFiles.Inv s) (hused : s'.used = s.used)
    {sent : UInt32 → UInt64 → List FileEvent} (hsends : Sends sent s.blobs s'.blobs)
    (hallowed : ∀ cf n, Along next (Allowed True) (stateOf s.blobs cf n) (sent cf n)) : Settles s s' where
  used n hn := hused ▸ hn
  kept cf n hthere := .inl (by rwa [hsends.there])
  marked cf x hx := by
    refine (hsends.marked cf x hx).imp_right fun hdelete => ?_
    have hstate : stateOf s'.blobs cf x.1 = .obsolete := by
      rw [hsends.state]
      exact deleted_obsolete (hallowed cf x.1) hdelete
    refine ⟨h.stored cf x.1 ?_, hstate⟩
    rw [← hsends.there]
    exact isSome_of_state (hstate.symm ▸ (by decide : FileState.obsolete ≠ FileState.init))
  obsolete cf n _ hthere := by
    rw [hsends.there] at hthere
    refine ⟨hthere, fun hstate => ?_⟩
    rw [hsends.state]
    exact obsolete_stays (hallowed cf n) hstate

theorem apply_adds {st : Storage} {e : Edit} (hdeleted : e.deletedFiles = []) :
    (st.apply e).obsoleteFiles = st.obsoleteFiles ∧
      ∀ n, (st.files n).isSome → ((st.apply e).files n).isSome := by
  rw [Storage.apply, hdeleted]
  simp only [foldl_nil, any_nil, Bool.false_eq_true, if_false]
  induction e.addedFiles generalizing st with
  | nil => exact ⟨rfl, fun _ hn => hn⟩
  | cons f added ih =>
    obtain ⟨hobsolete, hthere⟩ := @ih (st.addBlobFile f)
    refine ⟨hobsolete, fun n hn => hthere n ?_⟩
    rw [addBlobFile_files]
    split
    · rfl
    · exact hn

theorem settles_added {w : Write} {e : Edit} (hdeleted : e.deletedFiles = [])
    (hnew : ∀ g ∈ e.addedFiles, g.file.fileNumber ∉ s.used)
    (hblobs : s'.blobs = (s.blobs.logAndApply w e).2) (hused : ∀ n ∈ s.used, n ∈ s'.used) : Settles s s' := by
  have hfamily : ∀ cf, (s'.blobs.storage cf).obsoleteFiles = (s.blobs.storage cf).obsoleteFiles ∧
      ∀ n, ((s.blobs.storage cf).files n).isSome → ((s'.blobs.storage cf).files n).isSome := by
    intro cf
    rw [hblobs, BlobFiles.logAndApply]
    cases (s.blobs.openSet.logAndApply w e.toVersionEdit).1 with
    | some status => exact ⟨rfl, fun _ hn => hn⟩
    | none =>
      by_cases hcf : cf = e.columnFamilyId
      · subst hcf
        rw [setStorage_self]
        exact apply_adds hdeleted
      · rw [setStorage_of_ne _ hcf]
        exact ⟨rfl, fun _ hn => hn⟩
  refine ⟨hused, fun cf n hn => .inl ((hfamily cf).2 n hn), fun cf x hx => .inl ((hfamily cf).1 ▸ hx),
    fun cf n hn hthere => ?_⟩
  obtain ⟨g, hg⟩ := Option.isSome_iff_exists.mp hthere
  rcases logAndApply_added s.blobs w hdeleted (hblobs ▸ hg) with hold | ⟨-, -, hadded, rfl⟩
  · refine ⟨by rw [hold]; rfl, fun hstate => ?_⟩
    rw [stateOf, stateIn_some hold] at hstate
    rw [stateOf, stateIn_some hg, hstate]
  · exact absurd hn (hnew g hadded)

theorem settles_purge (env : Env) (s : State) (cf : UInt32) (oldestSequence : Nat) :
    Settles s (exec env s (.purge cf oldestSequence)) := by
  refine ⟨fun _ hn => hn, fun cf' n hn => ?_, fun cf' x hx => .inl ?_, fun cf' n _ hthere => ?_⟩
  · by_cases hcf : cf' = cf
    · subst hcf
      by_cases hgone : n ∈
        ((s.blobs.storage cf').obsoleteFiles.filter fun f => f.2 < oldestSequence).map (·.1)
      · obtain ⟨x, hx, rfl⟩ := mem_map.mp hgone
        exact .inr (mem_map_of_mem (mem_filter.mp hx).1)
      · left
        rw [exec, setStorage_self, Storage.getObsoleteFiles]
        dsimp only
        rwa [if_neg hgone]
    · rw [exec, setStorage_of_ne _ hcf]
      exact .inl hn
  · by_cases hcf : cf' = cf
    · subst hcf
      rw [exec, setStorage_self] at hx
      exact (mem_filter.mp hx).1
    · rwa [exec, setStorage_of_ne _ hcf] at hx
  · obtain ⟨g, hg⟩ := Option.isSome_iff_exists.mp hthere
    have hbefore : (s.blobs.storage cf').files n = some g := purge_files hg
    refine ⟨by rw [hbefore]; rfl, fun hstate => ?_⟩
    rw [stateOf, stateIn_some hbefore] at hstate
    rw [stateOf, stateIn_some hg, hstate]

/-! ## Steps of the files and jobs -/

section

variable (env : Env)

theorem allowed_notify {e : Event} {b : BlobFiles} {latestSequence : Nat} {w : Write}
    (h : ∀ status inputs outputs outputLevel, e = .compaction status inputs outputs outputLevel →
      (env.options cf).levelMerge = false) (cf' : UInt32) (n : UInt64) :
    Along next (Allowed True) (stateOf b cf' n) (notifyEvents env.options b cf latestSequence w e cf' n) := by
  cases e with
  | flush t =>
    unfold notifyEvents
    dsimp only
    split
    · trivial
    · refine allowed_only fun hcf => ?_
      subst hcf
      exact allowed_pass fun d f _ _ => allowed_flushEvents fun _ => trivial
  | compaction status inputs outputs outputLevel =>
    unfold notifyEvents
    dsimp only
    rw [h status inputs outputs outputLevel rfl]
    simp only [Bool.false_eq_true, if_false, append_nil]
    split
    · trivial
    · refine allowed_only fun hcf => ?_
      subst hcf
      exact allowed_pass fun d f _ _ => allowed_compactEvents fun _ _ => trivial

theorem allowed_ranges {o : CFOptions} (hlevel : o.levelMerge = false) {b : BlobFiles} {tables : List Table}
    {latestSequence : Nat} {w : Write} (cf' : UInt32) (n : UInt64) :
    Along next (Allowed True) (stateOf b cf' n)
      (accountRangesEvents b o cf tables latestSequence w cf' n) := by
  rw [accountRangesEvents, hlevel]
  simp only [Bool.false_eq_true, if_false, append_nil]
  split
  · trivial
  · refine allowed_only fun hcf => ?_
    subst hcf
    refine allowed_pass fun d f _ _ => allowed_rangeEvents fun hmerge => ?_
    rw [hlevel] at hmerge
    cases hmerge

structure Kept (s s' : State) : Prop where
  inv : JobFiles.Inv s'
  settles : Settles s s'

variable {env}

theorem kept_same (h : JobFiles.Inv s) : Kept s s :=
  ⟨h, settles_sent h rfl (Sends.refl s.blobs) fun _ _ => trivial⟩

theorem kept_calm (h : JobFiles.Inv s) {sent : UInt32 → UInt64 → List FileEvent}
    (hsends : Sends sent s.blobs s'.blobs)
    (hallowed : ∀ cf n, Along next (Allowed True) (stateOf s.blobs cf n) (sent cf n))
    (hcalm : ∀ cf n, AllCalm (sent cf n)) (hjobs : s'.jobs = s.jobs) (hused : s'.used = s.used) :
    Kept s s' := by
  refine ⟨h.calm hsends (fun cf n => ?_) hjobs hused, settles_sent h hused hsends hallowed⟩
  rw [hsends.state]
  exact calm_of_allowed (hcalm cf n) (hallowed cf n)

/-- An edit that only deletes. -/
theorem kept_delete (h : JobFiles.Inv s) (w : Write) {e : Edit} (hadded : e.addedFiles = [])
    (hcf : e.columnFamilyId ∈ s.blobs.ids) : Kept s { s with blobs := (s.blobs.logAndApply w e).2 } :=
  kept_calm h (sends_edit w hadded hcf)
    (fun _ _ => allowed_edit hadded hcf fun _ _ _ _ _ => trivial) (calm_edit _ _ _) rfl rfl

theorem kept_release (h : JobFiles.Inv s) {i : Nat} {j : Job} (hi : s.jobs[i]? = some j) :
    Kept s (s.releaseJob i j) :=
  ⟨h.releaseJob hi, settles_sent h rfl (sends_release s i j) (allowed_release hi h)⟩

theorem kept_finishJob (h : JobFiles.Inv s) {i : Nat} {j : Job} (hi : s.jobs[i]? = some j)
    (obsoleteSequence : Nat) (w : Write) :
    Kept s ({ s with blobs := s.deleteInputs j obsoleteSequence w }.releaseJob i j) := by
  have hcf := (h.jobs j (mem_of_getElem? hi)).family
  have hdeletes : Sends _ s.blobs (s.deleteInputs j obsoleteSequence w) := sends_edit w rfl hcf
  have hdeleted : JobFiles.Inv { s with blobs := s.deleteInputs j obsoleteSequence w } :=
    (kept_delete h w rfl hcf).inv
  have hreleases := sends_release { s with blobs := s.deleteInputs j obsoleteSequence w } i j
  refine ⟨hdeleted.releaseJob hi, settles_sent h rfl (hdeletes.trans hreleases) fun cf n =>
    along_append.mpr ⟨allowed_deleteInputs h hi obsoleteSequence w cf n, ?_⟩⟩
  rw [← hdeletes.state]
  exact allowed_release (s := { s with blobs := s.deleteInputs j obsoleteSequence w }) hi hdeleted cf n

theorem kept_installOutputs (h : JobFiles.Inv s) {i : Nat} {files : List (BlobFileMeta × UInt64)} {w : Write}
    (hnodup : (files.map (·.1.fileNumber)).Nodup) (hfresh : ∀ f ∈ files, f.1.fileNumber ∉ s.used) :
    Kept s (exec env s (.installOutputs i files w)) := by
  refine ⟨h.installOutputs env hnodup hfresh, ?_⟩
  cases hi : s.jobs[i]? with
  | none =>
    rw [exec, hi]
    exact (kept_same h).settles
  | some j =>
    have hnew : ∀ g ∈ (outputEdit j.columnFamilyId files).addedFiles, g.file.fileNumber ∉ s.used :=
      forall_mem_map.mpr hfresh
    rw [exec, hi]
    dsimp only
    split
    · exact settles_added rfl hnew rfl fun n hn => mem_append_left _ hn
    · rename_i hrefused
      exact settles_added rfl hnew (refused_same hrefused).symm fun n hn => mem_append_left _ hn

variable [LinearOrder R] {options : UInt32 → GCOptions R} {db : Db R} {op : Op}
  {gcScore : UInt32 → List (GCScore R)}

theorem kept_step (h : JobFiles.Inv db.files) (honce : ∀ cf, ((db.gcScore cf).map (·.fileNumber)).Nodup)
    (hready : Ready options db op) (hlevel : Unmerged env db (.step op gcScore)) :
    Kept db.files (exec env db.files op) := by
  cases op with
  | finish cf files w =>
    exact ⟨h.finish env hready, settles_added (e := finishEdit cf files) rfl (forall_mem_map.mpr hready) rfl
      fun n hn => mem_append_left _ hn⟩
  | install p => exact ⟨{ h with }, settles_sent h rfl (Sends.refl _) fun _ _ => trivial⟩
  | deliver i latestSequence w =>
    cases hi : db.files.undelivered[i]? with
    | none =>
      rw [exec, hi]
      exact kept_same h
    | some p =>
      rw [exec, hi]
      refine kept_calm h (sends_notify env.options h.default _ _ w p.event) (fun cf' n => ?_)
        (calm_notify _ _ _ _ _ _) rfl rfl
      refine allowed_notify env (fun status inputs outputs outputLevel he => ?_) cf' n
      exact hlevel _ status inputs outputs outputLevel p.created (by rw [hi, ← he])
  | purge cf oldestSequence =>
    exact ⟨h.purge env cf oldestSequence, settles_purge env db.files cf oldestSequence⟩
  | pick cf inputs =>
    obtain ⟨hcf, -, triggerNext, hpick⟩ := hready
    obtain ⟨hsub, hfound⟩ := pickBlobGC_inputs hpick
    have hnormal : ∀ n ∈ inputs, stateOf db.files.blobs cf n = .normal := by
      intro n hn
      obtain ⟨f, hf, hstate⟩ := hfound n hn
      rw [stateOf, stateIn_some hf, hstate]
    have hnodup : inputs.Nodup := hsub.nodup (honce cf)
    exact ⟨h.pick env hnodup hnormal hcf, settles_sent h rfl
      (sends_transit db.files.blobs cf .gcBegin inputs) (allowed_pick hnodup hnormal)⟩
  | installOutputs i files w => exact kept_installOutputs h hready.1 hready.2
  | finishJob i obsoleteSequence w =>
    cases hi : db.files.jobs[i]? with
    | none =>
      rw [exec, hi]
      exact kept_same h
    | some j =>
      rw [exec, hi]
      exact kept_finishJob h hi obsoleteSequence w
  | failJob i =>
    cases hi : db.files.jobs[i]? with
    | none =>
      rw [exec, hi]
      exact kept_same h
    | some j =>
      rw [exec, hi]
      exact kept_release h hi
  | deleteFilesInRanges cf tables latestSequence w =>
    exact kept_calm h (sends_accountRanges h.default _ cf tables latestSequence w)
      (fun cf' n => allowed_ranges hlevel cf' n) (calm_accountRanges _ _ _ _ _ _) rfl rfl
  | deleteBlobFilesInRanges cf ranges includeEnd obsoleteSequence w =>
    rw [exec]
    split
    · exact kept_same h
    · rename_i hcf
      exact kept_delete h w rfl (not_not.mp hcf)

end

/-! ## Scores -/

structure Inv (s : Db R) : Prop where
  files : JobFiles.Inv s.files
  marked : ∀ cf, Marked s.files cf
  scored : ∀ cf, ∀ g ∈ s.gcScore cf, ((s.files.blobs.storage cf).files g.fileNumber).isSome ∧
    g.fileNumber ∉ (s.files.blobs.storage cf).obsoleteFiles.map (·.1)
  scoredOnce : ∀ cf, ((s.gcScore cf).map (·.fileNumber)).Nodup

theorem Opened.inv {s : Db R} (h : Opened s) : Inv s where
  files := h.files.files
  marked cf x hx := by
    rw [h.purged] at hx
    exact absurd hx not_mem_nil
  scored cf g hg := by
    rw [h.purged]
    obtain ⟨f, hf⟩ := h.scored cf g hg
    exact ⟨by rw [hf]; rfl, not_mem_nil⟩
  scoredOnce := h.scoredOnce

variable [LinearOrder R] {env : Env} {options : UInt32 → GCOptions R} {o : GCOptions R} {db : Db R}
  {a : Action R}

/-- Scores that are computed name files that no purge takes. -/
theorem scored_of_computed {gcScore : List (GCScore R)}
    (hscore : ComputeGCScore o (s.blobs.storage cf) gcScore)
    (hmarked : Marked s cf) : ∀ g ∈ gcScore, ((s.blobs.storage cf).files g.fileNumber).isSome ∧
      g.fileNumber ∉ (s.blobs.storage cf).obsoleteFiles.map (·.1) := by
  intro g hg
  obtain ⟨f, hf, hlive⟩ := (hscore.files g.fileNumber).mp (mem_map_of_mem hg)
  have hthere : ((s.blobs.storage cf).files g.fileNumber).isSome := by rw [hf]; rfl
  refine ⟨hthere, fun hmem => ?_⟩
  obtain ⟨x, hx, heq⟩ := mem_map.mp hmem
  have hstate := (hmarked x hx).2
  rw [heq, stateOf, stateIn_some hf] at hstate
  rw [TrackedFile.isObsolete, hstate hthere] at hlive
  cases hlive

/-- Scores that are left alone name files that stay. -/
theorem Inv.step (h : Inv db) (hkept : Kept db.files s) {gcScore : UInt32 → List (GCScore R)}
    (hscores : ∀ cf, Rescored (options cf) (db.files.blobs.storage cf) (s.blobs.storage cf)
      (db.gcScore cf) (gcScore cf)) (obsoleteColumns : UInt32 → Bool) :
    Inv { files := s, gcScore, obsoleteColumns } := by
  have hmarked := hkept.settles.marks h.marked
  refine ⟨hkept.inv, hmarked, fun cf => ?_, fun cf => ?_⟩
  · rcases hscores cf with hscore | ⟨hsame, hold⟩
    · exact scored_of_computed hscore (hmarked cf)
    · dsimp only
      rw [hsame]
      intro g hg
      obtain ⟨hthere, hnot⟩ := h.scored cf g hg
      refine ⟨(hkept.settles.kept cf _ hthere).resolve_right hnot, fun hmem => hnot ?_⟩
      obtain ⟨x, hx, heq⟩ := mem_map.mp hmem
      exact mem_map.mpr ⟨x, hold x hx, heq⟩
  · rcases hscores cf with hscore | ⟨hsame, -⟩
    · exact hscore.once
    · dsimp only
      rw [hsame]
      exact h.scoredOnce cf

/-- New scores for one column family. -/
theorem rescored_update {b b' : BlobFiles} {gcScore : UInt32 → List (GCScore R)} {score : List (GCScore R)}
    (hscore : ComputeGCScore (options cf) (b'.storage cf) score)
    (hother : ∀ cf', cf' ≠ cf → b'.storage cf' = b.storage cf') (cf' : UInt32) :
    Rescored (options cf') (b.storage cf') (b'.storage cf') (gcScore cf') (update gcScore cf score cf') := by
  by_cases hcf : cf' = cf
  · subst hcf
    rw [update_self]
    exact .inl hscore
  · rw [update_of_ne hcf, hother cf' hcf]
    exact .inr ⟨rfl, fun x hx => hx⟩

theorem inv_act (h : Inv db) (hpromised : Promised env options db a) (hlevel : Unmerged env db a) :
    Inv (act env db a) := by
  cases a with
  | step op gcScore => exact h.step (kept_step h.files h.scoredOnce hpromised.1 hlevel) hpromised.2 _
  | computeGCScore cf gcScore =>
    exact h.step (kept_same h.files) (rescored_update hpromised fun _ _ => rfl) _
  | dropColumnFamily cf fileNumbers obsoleteSequence w gcScore =>
    rw [act]
    dsimp only
    split
    · rename_i happlied
      have hblobs := (accepted_deletes (e := deleteEdit cf fileNumbers obsoleteSequence) rfl hpromised.1
        happlied).1
      have hscore : ComputeGCScore (options cf) ((db.files.blobs.logAndApply w
          (deleteEdit cf fileNumbers obsoleteSequence)).2.storage cf) gcScore := by
        rw [hblobs, deleteEdit, setStorage_self]
        exact hpromised.2.2
      refine h.step (kept_delete h.files w rfl hpromised.1) (rescored_update hscore fun cf' hcf => ?_) _
      rw [hblobs]
      exact setStorage_of_ne _ hcf _
    · exact h
  | destroyColumnFamily cf => exact { h with }

theorem Inv.apart (h : Inv db) : Apart options db := by
  have hscored : ∀ cf, ∀ g ∈ db.gcScore cf, ∃ f, (db.files.blobs.storage cf).files g.fileNumber = some f :=
    fun cf g hg => Option.isSome_iff_exists.mp (h.scored cf g hg).1
  refine ⟨?_, fun cf n f hf => ?_, hscored, fun cf => pickBlobGC_ne_error (hscored cf)⟩
  · have hdisjoint := (nodup_flatMap.mp h.files.once).2
    refine hdisjoint.imp fun {j k} hjk n hj hk => ?_
    exact hjk (mem_append_left _ hj) (mem_append_left _ hk)
  · have hstate : stateOf db.files.blobs cf n = f.state := stateIn_some hf
    constructor
    · intro hbeing
      obtain ⟨j, hj, -, hn⟩ := h.files.beingGC cf n (hstate.trans hbeing)
      refine ⟨fun hobs => ?_, countP_inputs h.files.once hj hn⟩
      rw [hbeing] at hobs
      cases hobs
    · intro hone
      have hpos : 0 < db.files.jobs.countP (fun j => decide (n ∈ j.inputs)) := by
        rw [hone.2]
        decide
      obtain ⟨j, hj, hn⟩ := countP_pos_iff.mp hpos
      have hin : n ∈ j.inputs := of_decide_eq_true hn
      have hjob := h.files.jobs j hj
      have hthere : ((db.files.blobs.storage cf).files n).isSome := by rw [hf]; rfl
      obtain rfl := hjob.apart n (mem_append_left _ hin) cf hthere
      have hheld := hjob.inputs n hin hthere
      rw [hstate] at hheld
      exact hheld.resolve_right hone.1

/-- In every state that an opened database reaches by steps that account for no compaction
and no range deletion under `level_merge`, whatever jobs run at the same time. -/
theorem jobs_share_no_input {s₀ : Db R} (hopened : Opened s₀) {actions : List (Action R)}
    (h : Along (act env) (fun s a => Promised env options s a ∧ Unmerged env s a) s₀ actions) :
    Always (act env) (Apart options) s₀ actions :=
  h.always Inv (fun _ _ hinv ha => inv_act hinv ha.1 ha.2) (fun _ hinv => hinv.apart) hopened.inv

/-! ## Examples -/

def garbageFiles : Storage where
  files n := if n = 7 ∨ n = 8 then
      some { file := { fileNumber := n, fileSize := 100 }, liveDataSize := 50, state := .normal }
    else none

def withGarbage : Db Nat where
  files :=
    { blobs := { ids := [0], storage := fun cf => if cf = 0 then garbageFiles else {} }
      used := [7, 8] }
  gcScore cf := if cf = 0 then [⟨7, 1⟩, ⟨8, 1⟩] else []

def eager (_ : UInt32) : GCOptions Nat where
  blobFileDiscardableRatio := 1
  mergeSmallFileThreshold := 0
  maxGcBatchSize := 100
  minGcBatchSize := 10
  discardableRatio _ := 1

theorem withGarbage_files {f : TrackedFile} (h : (withGarbage.files.blobs.storage cf).files n = some f) :
    cf = 0 ∧ (n = 7 ∨ n = 8) ∧ f.state = .normal := by
  dsimp only [withGarbage] at h
  split at h
  · rename_i hcf
    dsimp only [garbageFiles] at h
    split at h
    · rename_i hn
      cases h
      exact ⟨hcf, hn, rfl⟩
    · cases h
  · cases h

theorem withGarbage_opened : Opened withGarbage where
  files := by
    refine ⟨mem_singleton.mpr rfl, fun cf n f hf => (withGarbage_files hf).2.2, fun cf n hn => ?_,
      fun cf cf' n hn hn' => ?_, rfl, rfl, rfl, rfl⟩
    · obtain ⟨f, hf⟩ := Option.isSome_iff_exists.mp hn
      have hfile : n = 7 ∨ n = 8 := (withGarbage_files hf).2.1
      simpa [withGarbage] using hfile
    · obtain ⟨f, hf⟩ := Option.isSome_iff_exists.mp hn
      obtain ⟨f', hf'⟩ := Option.isSome_iff_exists.mp hn'
      exact (withGarbage_files hf).1.trans (withGarbage_files hf').1.symm
  purged cf := by
    dsimp only [withGarbage]
    split <;> rfl
  scored cf g hg := by
    dsimp only [withGarbage] at hg ⊢
    split at hg
    · rename_i hcf
      rw [if_pos hcf]
      have hfile : g.fileNumber = 7 ∨ g.fileNumber = 8 := by
        simp only [mem_cons, not_mem_nil, or_false] at hg
        rcases hg with rfl | rfl
        · exact .inl rfl
        · exact .inr rfl
      exact ⟨_, if_pos hfile⟩
    · exact absurd hg not_mem_nil
  scoredOnce cf := by
    dsimp only [withGarbage]
    split <;> decide

def unmerged : Env where
  options _ := { levelMerge := false }
  compare := compareOn List.length
  blobRanges _ := []
  blobRanges_files _ := forall_mem_nil _

/-- A step that is picked leaves the scores. -/
theorem pick_promised {env : Env} (db : Db Nat) {inputs : List UInt64}
    (hready : Ready eager db (.pick cf inputs)) :
    Promised env eager db (.step (.pick cf inputs) db.gcScore) := by
  refine ⟨hready, fun cf' => .inr ⟨rfl, fun x hx => ?_⟩⟩
  by_cases hcf : cf' = cf
  · subst hcf
    rw [exec, setStorage_self, markFilesBeingGC, transitAll_obsoleteFiles] at hx
    exact hx
  · rwa [exec, setStorage_of_ne _ hcf] at hx

def twoJobs : List (Action Nat) :=
  [.step (.pick 0 [7]) withGarbage.gcScore, .step (.pick 0 [8]) withGarbage.gcScore]

theorem jobs_share_no_input_two :
    (twoJobs.foldl (act unmerged) withGarbage).files.jobs = [⟨0, [7], []⟩, ⟨0, [8], []⟩] ∧
      Always (act unmerged) (Apart eager) withGarbage twoJobs := by
  refine ⟨by decide, jobs_share_no_input withGarbage_opened ?_⟩
  exact ⟨⟨pick_promised withGarbage ⟨by decide, rfl, true, by decide⟩, trivial⟩,
    ⟨pick_promised (act unmerged withGarbage (.step (.pick 0 [7]) withGarbage.gcScore))
      ⟨by decide, rfl, false, by decide⟩, trivial⟩, trivial⟩

/-- A range deletion in column family 0 leaves the others alone. -/
theorem accountRanges_of_ne {b : BlobFiles} {o : CFOptions} {tables : List Table} {latestSequence : Nat}
    {w : Write} (hcf : cf ≠ 0) : (accountRanges b o 0 tables latestSequence w).storage cf = b.storage cf := by
  have hfamily := (accountFiles_pass (rangeFile o) latestSequence (ordered_rangeDiff tables)
    (b.storage 0)).columnFamily
  rw [accountRanges]
  split
  · rfl
  · dsimp only [rangePass]
    split
    · rw [BlobFiles.logAndApply, hfamily]
      split
      · exact setStorage_of_ne _ hcf _
      · exact (setStorage_of_ne _ hcf _).trans (setStorage_of_ne _ hcf _)
    · exact setStorage_of_ne _ hcf _

/-- A job has file 7, and a table with an index into it is deleted by range. -/
def mergedAway : List (Action Nat) :=
  [.step (.pick 0 [7]) withGarbage.gcScore,
    .step (.deleteFilesInRanges 0 [table 10 1 1 1 [Discipline.indexIn 7 1]] 0 .ok) withGarbage.gcScore]

theorem merge_takes_input :
    Opened withGarbage ∧
      Along (act Discipline.merging) (Promised Discipline.merging eager) withGarbage mergedAway ∧
      ¬ Always (act Discipline.merging) (Apart eager) withGarbage mergedAway := by
  refine ⟨withGarbage_opened, ⟨pick_promised withGarbage ⟨by decide, rfl, true, by decide⟩,
    ⟨trivial, fun cf => .inr ⟨rfl, fun x hx => ?_⟩⟩, trivial⟩, fun h => ?_⟩
  · by_cases hcf : cf = 0
    · subst hcf
      have hnone : ((mergedAway.foldl (act Discipline.merging) withGarbage).files.blobs.storage
        0).obsoleteFiles =
        [] := by decide
      exact absurd (hnone ▸ hx) not_mem_nil
    · rwa [exec, accountRanges_of_ne hcf] at hx
  · have hfile : ((mergedAway.foldl (act Discipline.merging) withGarbage).files.blobs.storage 0).files 7 =
        some { file := { fileNumber := 7, fileSize := 100 }, liveDataSize := 40, state := .toMerge } := by
      decide
    have hbeing := (h.last.beingGC 0 7 _ hfile).mpr ⟨by decide, by decide⟩
    cases hbeing

end TitanGC.Scheduling.SharedInputs
