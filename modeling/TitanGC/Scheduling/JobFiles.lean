import TitanGC.Scheduling.Transitions

/-!
# The files of running jobs

What the state of a blob file says about the jobs that run, and why each kind of step
keeps it: calm events, which concern no job, a job that is picked or released, and new
files.
-/

namespace TitanGC.Scheduling.JobFiles

open List hiding after
open Manifest.VersionEdits Manifest.Logging Accounting.Tracking Accounting.Listener
open Accounting.Preservation (logAndApply_added)
open Jobs Transitions BlobFiles

/-- A file of a job, if it is still there. -/
def Held (b : BlobFiles) (cf : UInt32) (n : UInt64) (state : FileState) : Prop :=
  ((b.storage cf).files n).isSome → stateOf b cf n = state ∨ stateOf b cf n = .obsolete

structure JobOk (b : BlobFiles) (used : List UInt64) (j : Job) : Prop where
  family : j.columnFamilyId ∈ b.ids
  known : ∀ n ∈ j.files, n ∈ used
  apart : ∀ n ∈ j.files, ∀ cf, ((b.storage cf).files n).isSome → cf = j.columnFamilyId
  inputs : ∀ n ∈ j.inputs, Held b j.columnFamilyId n .beingGC
  outputs : ∀ n ∈ j.outputs, Held b j.columnFamilyId n .pendingGC

structure Inv (s : State) : Prop where
  default : 0 ∈ s.blobs.ids
  stored : ∀ cf n, ((s.blobs.storage cf).files n).isSome → n ∈ s.used
  distinct : ∀ cf cf' n, ((s.blobs.storage cf).files n).isSome →
    ((s.blobs.storage cf').files n).isSome → cf = cf'
  once : (s.jobs.flatMap Job.files).Nodup
  jobs : ∀ j ∈ s.jobs, JobOk s.blobs s.used j
  beingGC : ∀ cf n, stateOf s.blobs cf n = .beingGC →
    ∃ j ∈ s.jobs, j.columnFamilyId = cf ∧ n ∈ j.inputs

variable {used : List UInt64} {j : Job} {b : BlobFiles} {cf : UInt32} {n : UInt64}

theorem isSome_of_state (h : stateOf b cf n ≠ .init) : ((b.storage cf).files n).isSome := by
  rw [Option.isSome_iff_ne_none]
  intro hnone
  rw [stateOf, stateIn, hnone] at h
  exact h rfl

theorem JobOk.held (h : JobOk b used j) (hn : n ∈ j.files)
    (hthere : ((b.storage j.columnFamilyId).files n).isSome) :
    stateOf b j.columnFamilyId n = .beingGC ∨ stateOf b j.columnFamilyId n = .pendingGC ∨
      stateOf b j.columnFamilyId n = .obsolete := by
  rcases mem_append.mp hn with hin | hout
  · exact (h.inputs n hin hthere).imp_right .inr
  · exact .inr (h.outputs n hout hthere)

/-- The events leave the files of the job to it. -/
theorem JobOk.sent {b' : BlobFiles} (h : JobOk b used j) {sent : UInt32 → UInt64 → List FileEvent}
    (hsends : Sends sent b b')
    (hheld : ∀ n ∈ j.files, ∀ state, state = .beingGC ∨ state = .pendingGC →
      Held b j.columnFamilyId n state → Held b' j.columnFamilyId n state) : JobOk b' used j where
  family := by
    rw [hsends.ids]
    exact h.family
  known := h.known
  apart n hn cf hthere := by
    rw [hsends.there] at hthere
    exact h.apart n hn cf hthere
  inputs n hn := hheld n (mem_append_left _ hn) _ (.inl rfl) (h.inputs n hn)
  outputs n hn := hheld n (mem_append_right _ hn) _ (.inr rfl) (h.outputs n hn)

/-- A step that only sends events. -/
theorem Inv.sent {s s' : State} (h : Inv s) {sent : UInt32 → UInt64 → List FileEvent}
    (hsends : Sends sent s.blobs s'.blobs) (hused : s'.used = s.used)
    (honce : (s'.jobs.flatMap Job.files).Nodup) (hjobs : ∀ j ∈ s'.jobs, JobOk s'.blobs s.used j)
    (hbeing : ∀ cf n, stateOf s'.blobs cf n = .beingGC →
      ∃ j ∈ s'.jobs, j.columnFamilyId = cf ∧ n ∈ j.inputs) : Inv s' where
  default := by
    rw [hsends.ids]
    exact h.default
  stored cf n hthere := by
    rw [hsends.there] at hthere
    rw [hused]
    exact h.stored cf n hthere
  distinct cf cf' n hthere hthere' := by
    rw [hsends.there] at hthere hthere'
    exact h.distinct cf cf' n hthere hthere'
  once := honce
  jobs := by
    rw [hused]
    exact hjobs
  beingGC := hbeing

/-! ## Events that concern no job -/

/-- A file as before, obsolete, or settled in the LSM. -/
def Calm (s s' : FileState) : Prop :=
  s' = s ∨ s' = .obsolete ∨
    (s = .pendingLSM ∨ s = .normal ∨ s = .toMerge) ∧ (s' = .normal ∨ s' = .toMerge)

instance (s s' : FileState) : Decidable (Calm s s') := by
  unfold Calm
  infer_instance

section

variable {s s' s'' state : FileState}

theorem Calm.trans (h : Calm s s') (h' : Calm s' s'') : Calm s s'' := by
  revert h h'
  cases s <;> cases s' <;> cases s'' <;> decide

theorem Calm.held (h : Calm s s') (hstate : state = .beingGC ∨ state = .pendingGC)
    (hs : s = state ∨ s = .obsolete) : s' = state ∨ s' = .obsolete := by
  revert h hstate hs
  cases s <;> cases s' <;> cases state <;> decide

theorem Calm.waits (h : Calm s s') (hs : s ≠ .pendingLSM) : s' ≠ .pendingLSM := by
  revert h hs
  cases s <;> cases s' <;> decide

theorem Calm.beingGC (h : Calm s s') (hs : s' = .beingGC) : s = .beingGC := by
  revert h hs
  cases s <;> cases s' <;> decide

end

/-- Steps that send calm events and leave jobs and file numbers alone. -/
theorem Inv.calm {s s' : State} (h : Inv s) {sent : UInt32 → UInt64 → List FileEvent}
    (hsends : Sends sent s.blobs s'.blobs)
    (hcalm : ∀ cf n, Calm (stateOf s.blobs cf n) (stateOf s'.blobs cf n))
    (hjobs : s'.jobs = s.jobs) (hused : s'.used = s.used) : Inv s' := by
  refine h.sent hsends hused ?_ (fun j hj => ?_) fun cf n hstate => ?_
  · rw [hjobs]
    exact h.once
  · rw [hjobs] at hj
    refine (h.jobs j hj).sent hsends fun n _ state hjob hheld hthere => ?_
    rw [hsends.there] at hthere
    exact (hcalm _ n).held hjob (hheld hthere)
  · rw [hjobs]
    exact h.beingGC cf n ((hcalm cf n).beingGC hstate)

/-! ## Jobs -/

variable {s : State}

/-- A file in the normal state is a file of no job. -/
theorem Inv.normal_free (h : Inv s) (hstate : stateOf s.blobs cf n = .normal) (hj : j ∈ s.jobs) :
    n ∉ j.files := by
  intro hn
  have hthere : ((s.blobs.storage cf).files n).isSome :=
    isSome_of_state (hstate.symm ▸ (by decide : FileState.normal ≠ FileState.init))
  obtain rfl := (h.jobs j hj).apart n hn cf hthere
  have hheld := (h.jobs j hj).held hn hthere
  rw [hstate] at hheld
  exact absurd hheld (by decide)

section

variable {inputs : List UInt64} (env : Env) (hnodup : inputs.Nodup)
  (hnormal : ∀ n ∈ inputs, stateOf s.blobs cf n = .normal)

include hnormal

theorem picked_there : ∀ n ∈ inputs, ((s.blobs.storage cf).files n).isSome := by
  intro n hn
  refine isSome_of_state ?_
  rw [hnormal n hn]
  decide

include hnodup

/-- Only the picked files change. -/
theorem pick_state (cf' : UInt32) (n : UInt64) : stateOf (exec env s (.pick cf inputs)).blobs cf' n =
    if cf' = cf ∧ n ∈ inputs then .beingGC else stateOf s.blobs cf' n := by
  have hsends : Sends (events env s (.pick cf inputs)) s.blobs (exec env s (.pick cf inputs)).blobs :=
    sends_transit s.blobs cf .gcBegin inputs
  rw [hsends.state, events, only]
  by_cases hfamily : cf' = cf
  · subst hfamily
    rw [if_pos rfl, transitEvents]
    by_cases hn : n ∈ inputs
    · rw [if_pos (picked_there hnormal n hn), if_pos ⟨rfl, hn⟩, count_eq_one_of_mem hnodup hn, hnormal n hn]
      rfl
    · rw [count_eq_zero.mpr hn, replicate_zero, ite_self, if_neg fun h => hn h.2]
      rfl
  · rw [if_neg hfamily, if_neg fun h => hfamily h.1]
    rfl

theorem Inv.pick (h : Inv s) (hcf : cf ∈ s.blobs.ids) : Inv (exec env s (.pick cf inputs)) := by
  have hsends : Sends (events env s (.pick cf inputs)) s.blobs (exec env s (.pick cf inputs)).blobs :=
    sends_transit s.blobs cf .gcBegin inputs
  have hthere := picked_there hnormal
  have hstate := pick_state env hnodup hnormal
  have hfree : ∀ j ∈ s.jobs, ∀ n ∈ j.files, n ∉ inputs :=
    fun j hj n hn hin => h.normal_free (hnormal n hin) hj hn
  refine h.sent hsends rfl ?_ (fun j hj => ?_) fun cf' n hbeing => ?_
  · change ((s.jobs ++ [(⟨cf, inputs, []⟩ : Job)]).flatMap Job.files).Nodup
    rw [flatMap_append, flatMap_singleton, Job.files, append_nil]
    refine nodup_append.mpr ⟨h.once, hnodup, ?_⟩
    rintro n hn m hm rfl
    obtain ⟨j, hj, hfile⟩ := mem_flatMap.mp hn
    exact hfree j hj n hfile hm
  · rcases mem_append.mp hj with hj | hj
    · refine (h.jobs j hj).sent hsends fun n hn state _ hheld hstored => ?_
      rw [hsends.there] at hstored
      rw [hstate, if_neg fun hpicked => hfree j hj n hn hpicked.2]
      exact hheld hstored
    · obtain rfl := mem_singleton.mp hj
      have hfiles : (⟨cf, inputs, []⟩ : Job).files = inputs := append_nil inputs
      refine ⟨hcf, fun n hn => ?_, fun n hn cf' hstored => ?_, fun n hn _ => .inl ?_,
        forall_mem_nil _⟩
      · rw [hfiles] at hn
        exact h.stored cf n (hthere n hn)
      · rw [hfiles] at hn
        rw [hsends.there] at hstored
        exact h.distinct cf' cf n hstored (hthere n hn)
      · exact (hstate cf n).trans (if_pos (And.intro rfl hn))
  · rw [hstate] at hbeing
    split at hbeing
    · rename_i hpicked
      exact ⟨⟨cf, inputs, []⟩, mem_append_right _ mem_cons_self, hpicked.1.symm, hpicked.2⟩
    · obtain ⟨j, hj, hjob⟩ := h.beingGC cf' n hbeing
      exact ⟨j, mem_append_left _ hj, hjob⟩

end

section

variable {i : Nat}

theorem sends_release (s : State) (i : Nat) (j : Job) :
    Sends (releaseEvents s.blobs j) s.blobs (s.releaseJob i j).blobs := by
  rw [State.releaseJob, releaseGcFiles_eq]
  exact sends_transit s.blobs j.columnFamilyId .gcCompleted j.files

variable (hi : s.jobs[i]? = some j)

include hi

theorem release_state (h : Inv s) (cf : UInt32) (n : UInt64) :
    stateOf (s.releaseJob i j).blobs cf n =
      if cf = j.columnFamilyId ∧ ((s.blobs.storage cf).files n).isSome ∧ n ∈ j.files then
        next (stateOf s.blobs cf n) .gcCompleted
      else stateOf s.blobs cf n := by
  have hnodup : j.files.Nodup := (nodup_flatMap.mp h.once).1 j (mem_of_getElem? hi)
  rw [(sends_release s i j).state, releaseEvents, only]
  by_cases hfamily : cf = j.columnFamilyId
  · subst hfamily
    rw [if_pos rfl, transitEvents]
    by_cases hn : n ∈ j.files
    · rw [count_eq_one_of_mem hnodup hn]
      split
      · rename_i hthere
        rw [if_pos ⟨rfl, hthere, hn⟩]
        rfl
      · rename_i hthere
        rw [if_neg fun hreleased => hthere hreleased.2.1]
        rfl
    · rw [count_eq_zero.mpr hn, replicate_zero, ite_self, if_neg fun hreleased => hn hreleased.2.2]
      rfl
  · rw [if_neg hfamily, if_neg fun hreleased => hfamily hreleased.1]
    rfl

theorem Inv.releaseJob (h : Inv s) : Inv (s.releaseJob i j) := by
  have hsends := sends_release s i j
  have hj := mem_of_getElem? hi
  obtain ⟨-, hothers, hapart⟩ := nodup_append.mp ((files_perm hi).nodup h.once)
  refine h.sent hsends rfl hothers (fun j' hj' => ?_) fun cf n hbeing => ?_
  · refine (h.jobs j' (mem_of_mem_eraseIdx hj')).sent hsends fun n hn state _ hheld hthere => ?_
    have hnot : n ∉ j.files := fun hin => hapart n hin n (mem_flatMap.mpr ⟨j', hj', hn⟩) rfl
    rw [hsends.there] at hthere
    rw [release_state hi h, if_neg fun hreleased => hnot hreleased.2.2]
    exact hheld hthere
  · rw [release_state hi h] at hbeing
    split at hbeing
    · -- a file that is released is normal or obsolete
      refine absurd hbeing ?_
      cases stateOf s.blobs cf n <;> decide
    · rename_i hkept
      obtain ⟨j', hj', rfl, hn⟩ := h.beingGC cf n hbeing
      have hthere : ((s.blobs.storage j'.columnFamilyId).files n).isSome :=
        isSome_of_state (hbeing.symm ▸ (by decide : FileState.beingGC ≠ FileState.init))
      obtain ⟨before, after, hjobs, herase, -⟩ := split_jobs hi
      refine ⟨j', ?_, rfl, hn⟩
      change j' ∈ s.jobs.eraseIdx i
      rw [hjobs, perm_middle.mem_iff, mem_cons] at hj'
      rw [herase]
      refine hj'.resolve_left ?_
      rintro rfl
      exact hkept ⟨rfl, hthere, mem_append_left _ hn⟩

end

/-! ## New files -/

variable {s' : State}

/-- Known files stay as they are or go, and one column family gets new ones. -/
theorem Inv.mono (h : Inv s) (hids : s'.blobs.ids = s.blobs.ids)
    (hused : ∀ n ∈ s.used, n ∈ s'.used) (hjobs : s'.jobs = s.jobs)
    (hold : ∀ cf n g, n ∈ s.used → (s'.blobs.storage cf).files n = some g →
      (s.blobs.storage cf).files n = some g)
    (family : UInt32) (hcases : ∀ cf n, ((s'.blobs.storage cf).files n).isSome →
      ((s.blobs.storage cf).files n).isSome ∨
        cf = family ∧ n ∉ s.used ∧ n ∈ s'.used ∧ stateOf s'.blobs cf n ≠ .beingGC) : Inv s' := by
  have hsame : ∀ cf n, n ∈ s.used → ((s'.blobs.storage cf).files n).isSome →
      ((s.blobs.storage cf).files n).isSome ∧ stateOf s'.blobs cf n = stateOf s.blobs cf n := by
    intro cf n hn hthere
    obtain ⟨g, hg⟩ := Option.isSome_iff_exists.mp hthere
    have hbefore := hold cf n g hn hg
    refine ⟨by rw [hbefore]; rfl, ?_⟩
    rw [stateOf, stateOf, stateIn_some hg, stateIn_some hbefore]
  have hdistinct := distinct_of_family h.distinct h.stored family
    (fun cf hcf n hthere => (hcases cf n hthere).resolve_right fun hnew => hcf hnew.1)
    fun n hthere => (hcases family n hthere).imp_right fun hnew => hnew.2.1
  refine ⟨hids ▸ h.default, fun cf n hthere => ?_, hdistinct, ?_, fun j hj => ?_, fun cf n hbeing => ?_⟩
  · rcases hcases cf n hthere with hbefore | ⟨-, -, hn, -⟩
    · exact hused n (h.stored cf n hbefore)
    · exact hn
  · rw [hjobs]
    exact h.once
  · rw [hjobs] at hj
    have hjob := h.jobs j hj
    have hheld : ∀ n ∈ j.files, ∀ state, Held s.blobs j.columnFamilyId n state →
        Held s'.blobs j.columnFamilyId n state := by
      intro n hn state hheld hthere
      obtain ⟨hbefore, hstate⟩ := hsame _ n (hjob.known n hn) hthere
      rw [hstate]
      exact hheld hbefore
    exact ⟨hids ▸ hjob.family, fun n hn => hused n (hjob.known n hn),
      fun n hn cf hthere => hjob.apart n hn cf (hsame cf n (hjob.known n hn) hthere).1,
      fun n hn => hheld n (mem_append_left _ hn) _ (hjob.inputs n hn),
      fun n hn => hheld n (mem_append_right _ hn) _ (hjob.outputs n hn)⟩
  · have hthere := isSome_of_state (hbeing.symm ▸ (by decide : FileState.beingGC ≠ FileState.init))
    rcases hcases cf n hthere with hbefore | ⟨-, -, -, hnot⟩
    · rw [(hsame cf n (h.stored cf n hbefore) hthere).2] at hbeing
      rw [hjobs]
      exact h.beingGC cf n hbeing
    · exact absurd hbeing hnot

section

variable {w : Write} {e : Edit} {numbers : List UInt64} (hdeleted : e.deletedFiles = [])
  (hnumbers : ∀ g ∈ e.addedFiles, g.file.fileNumber ∈ numbers) (hnew : ∀ n ∈ numbers, n ∉ s.used)

include hdeleted hnumbers hnew

/-- A file whose number was known before is as it was. -/
theorem old_file {g : TrackedFile} (hg : ((s.blobs.logAndApply w e).2.storage cf).files n = some g)
    (hused : n ∈ s.used) : (s.blobs.storage cf).files n = some g := by
  rcases logAndApply_added s.blobs w hdeleted hg with hold | ⟨-, -, hadded, rfl⟩
  · exact hold
  · exact absurd hused (hnew _ (hnumbers g hadded))

theorem Inv.addFiles (h : Inv s) (hstate : ∀ g ∈ e.addedFiles, g.state ≠ .beingGC)
    (hblobs : s'.blobs = (s.blobs.logAndApply w e).2) (hused : s'.used = s.used ++ numbers)
    (hjobs : s'.jobs = s.jobs) : Inv s' := by
  refine h.mono (hblobs ▸ logAndApply_ids s.blobs w e) (fun n hn => hused ▸ mem_append_left _ hn) hjobs
    (fun cf n g hn hg => old_file hdeleted hnumbers hnew (hblobs ▸ hg) hn) e.columnFamilyId
    fun cf n hthere => ?_
  obtain ⟨g, hg⟩ := Option.isSome_iff_exists.mp hthere
  rcases logAndApply_added s.blobs w hdeleted (hblobs ▸ hg) with hbefore | ⟨hcf, -, hadded, rfl⟩
  · exact .inl (by rw [hbefore]; rfl)
  · have hn := hnumbers g hadded
    refine .inr ⟨hcf, hnew _ hn, hused ▸ mem_append_right _ hn, ?_⟩
    rw [stateOf, stateIn_some hg]
    exact hstate g hadded

end

theorem Inv.finish (h : Inv s) (env : Env) {files : List BlobFileMeta} {w : Write}
    (hfresh : ∀ f ∈ files, f.fileNumber ∉ s.used) : Inv (exec env s (.finish cf files w)) := by
  refine h.addFiles rfl (forall_mem_map.mpr fun f hf => mem_map_of_mem hf) (forall_mem_map.mpr hfresh)
    (forall_mem_map.mpr fun f _ => ?_) rfl rfl rfl
  exact (by decide : FileState.pendingLSM ≠ FileState.beingGC)

theorem Inv.purge (h : Inv s) (env : Env) (cf : UInt32) (oldestSequence : Nat) :
    Inv (exec env s (.purge cf oldestSequence)) := by
  refine h.mono rfl (fun _ hn => hn) rfl (fun cf' n g _ hg => purge_files hg) cf fun cf' n hthere => ?_
  obtain ⟨g, hg⟩ := Option.isSome_iff_exists.mp hthere
  exact .inl (by rw [purge_files hg]; rfl)

/-- New files that are there as the outputs of a job. -/
theorem Inv.addOutputs (h : Inv s) {i : Nat} (hi : s.jobs[i]? = some j) {numbers : List UInt64}
    (hnodup : numbers.Nodup) (hused : ∀ n ∈ numbers, n ∈ s.used)
    (hfree : ∀ j ∈ s.jobs, ∀ n ∈ j.files, n ∉ numbers)
    (hstored : ∀ n ∈ numbers, ∀ cf, ((s.blobs.storage cf).files n).isSome →
      cf = j.columnFamilyId ∧ stateOf s.blobs cf n = .pendingGC)
    (hblobs : s'.blobs = s.blobs) (hsame : s'.used = s.used)
    (hjobs' : s'.jobs = s.jobs.set i { j with outputs := j.outputs ++ numbers }) : Inv s' := by
  have hj := mem_of_getElem? hi
  obtain ⟨before, after, hjobs, -, hset⟩ := split_jobs hi
  refine ⟨hblobs ▸ h.default, hblobs ▸ hsame ▸ h.stored, hblobs ▸ h.distinct, ?_, fun j' hj' => ?_,
    fun cf n hbeing => ?_⟩
  · have hperm : (s'.jobs.flatMap Job.files).Perm (numbers ++ s.jobs.flatMap Job.files) := by
      rw [hjobs', hset, hjobs]
      simp only [flatMap_append, flatMap_cons, Job.files, append_assoc]
      simp only [← append_assoc]
      rw [append_assoc _ numbers]
      simp only [append_assoc numbers]
      exact perm_append_comm_assoc _ _ _
    refine hperm.nodup_iff.mpr (nodup_append.mpr ⟨hnodup, h.once, ?_⟩)
    rintro n hn m hm rfl
    obtain ⟨j', hj', hfile⟩ := mem_flatMap.mp hm
    exact hfree j' hj' n hfile hn
  · rw [hblobs, hsame]
    rw [hjobs'] at hj'
    rcases mem_or_eq_of_mem_set hj' with hj' | rfl
    · exact h.jobs j' hj'
    · have hjob := h.jobs j hj
      have hfiles : ∀ n ∈ ({ j with outputs := j.outputs ++ numbers } : Job).files,
          n ∈ j.files ∨ n ∈ numbers := by
        intro n hn
        rw [Job.files, ← append_assoc] at hn
        exact mem_append.mp hn
      refine ⟨hjob.family, fun n hn => ?_, fun n hn cf hthere => ?_, hjob.inputs, fun n hn hthere => ?_⟩
      · exact (hfiles n hn).elim (hjob.known n) (hused n)
      · exact (hfiles n hn).elim (fun hin => hjob.apart n hin cf hthere) fun hin =>
          (hstored n hin cf hthere).1
      · rcases mem_append.mp hn with hin | hin
        · exact hjob.outputs n hin hthere
        · exact .inl (hstored n hin _ hthere).2
  · rw [hblobs] at hbeing
    obtain ⟨j', hj', hcf, hn⟩ := h.beingGC cf n hbeing
    rw [hjobs', hset]
    rw [hjobs, perm_middle.mem_iff, mem_cons] at hj'
    simp only [perm_middle.mem_iff, mem_cons]
    rcases hj' with rfl | hj'
    · exact ⟨_, .inl rfl, hcf, hn⟩
    · exact ⟨j', .inr hj', hcf, hn⟩

/-- A job installs its outputs, or fails to. -/
theorem Inv.installOutputs (h : Inv s) (env : Env) {i : Nat} {files : List (BlobFileMeta × UInt64)}
    {w : Write}
    (hnodup : (files.map (·.1.fileNumber)).Nodup) (hfresh : ∀ f ∈ files, f.1.fileNumber ∉ s.used) :
    Inv (exec env s (.installOutputs i files w)) := by
  cases hi : s.jobs[i]? with
  | none =>
    rw [exec, hi]
    exact h
  | some j =>
    have hadded : ∀ g ∈ (outputEdit j.columnFamilyId files).addedFiles,
        g.file.fileNumber ∈ files.map (·.1.fileNumber) ∧ g.state = .pendingGC :=
      forall_mem_map.mpr fun f hf => ⟨mem_map_of_mem hf, rfl⟩
    have hnew : ∀ n ∈ files.map (·.1.fileNumber), n ∉ s.used := forall_mem_map.mpr hfresh
    have hstate : ∀ g ∈ (outputEdit j.columnFamilyId files).addedFiles, g.state ≠ .beingGC := by
      intro g hg
      rw [(hadded g hg).2]
      decide
    rw [exec, hi]
    dsimp only
    split
    · have hinv : Inv { s with
          blobs := (s.blobs.logAndApply w (outputEdit j.columnFamilyId files)).2
          used := s.used ++ files.map (·.1.fileNumber) } :=
        h.addFiles rfl (fun g hg => (hadded g hg).1) hnew hstate rfl rfl rfl
      refine hinv.addOutputs hi hnodup (fun n hn => mem_append_right _ hn) (fun j' hj' n hn hin => ?_)
        (fun n hn cf hthere => ?_) rfl rfl rfl
      · exact hnew n hin ((h.jobs j' hj').known n hn)
      · obtain ⟨g, hg⟩ := Option.isSome_iff_exists.mp hthere
        rcases logAndApply_added _ _ rfl hg with hold | ⟨hcf, -, hmem, -⟩
        · exact absurd (h.stored cf n (by rw [hold]; rfl)) (hnew n hn)
        · exact ⟨hcf, (stateIn_some hg).trans (hadded g hmem).2⟩
    · rename_i hrefused
      exact h.addFiles rfl (fun g hg => (hadded g hg).1) hnew hstate (refused_same hrefused).symm rfl rfl

end TitanGC.Scheduling.JobFiles
