import TitanGC.Software.UserSteps

/-!
# Finishing blob files, flushes and compactions keep the invariant

The stages of `BatchFinishFiles`, and the installation of an SST whose blob files
are applied. A rewrite of versions goes unnoticed by all reads, up to records that
the job has written.
-/

namespace TitanGC.Software.FileSteps

open Format.BlobFormat Storage.BlobFiles Manifest.VersionEdits Manifest.Replay
open GcJob Software.System Invariant Carry
open Function (update)

variable {cf : UInt32} {s t : State} {j : Nat} {job : Job} {ph : Phase}

/-- A step that moves one job on and writes nothing to the LSM or the manifest. -/
theorem inv_phase (hs : Inv cf s) (hj : s.jobs j = some job) (hg : Grows s t Nothing)
    (hjobs : t.jobs = update s.jobs j (some { job with phase := ph }))
    (hok : JobOk t { job with phase := ph })
    (hp : ∀ p ∈ newPtrs (pendingOf ph), p ∈ newPtrs (pendingOf job.phase))
    (hb : Building ph → Building job.phase) (hu : Unlogged ph → Unlogged job.phase)
    (hdel : ∀ o, job.phase ≠ .deleting o)
    (hlsm : t.lsm = s.lsm) (hseq : t.seq = s.seq) (hlast : t.lastWrite = s.lastWrite)
    (hfiles : t.files = s.files) (hlog : t.log = s.log) (hlogs : t.logSynced ≤ s.log.length)
    (hnext : t.nextFileNumber = s.nextFileNumber) (hobs : t.obsolete = s.obsolete)
    (hbounds : BoundsOk t) (hpurged : t.purged = s.purged)
    (hmarked : ∀ d, Marked t d → Marked s d ∨ Dead t d) : Inv cf t := by
  have hc := change_phase hs hj hg fromJob_nothing hjobs hok hp hb hu
  refine inv_quiet hs hc hlsm hseq hlast (hfiles ▸ hs.data.filesOk) hbounds ?_ ?_ ?_ ?_ hmarked
  · refine manifest_change hs hc hlog hlogs (hnext ▸ UInt64.le_refl _)
      (by rw [hobs]; exact fun _ h => h) (by rw [hobs]; exact fun _ _ h => .inl h) ?_
    exact fun old o hold hph => absurd hph (not_deleting hj hdel hold)
  · rw [hlog]
    exact fun _ h => .inl h
  · rw [hobs]
    exact fun _ _ h => .inl h
  · rw [hpurged, hobs]
    exact hs.purged

/-! ## The stages of `BatchFinishFiles` -/

theorem pendingOf_finishing (a b : Stage) (after : After) :
    pendingOf (.finishing a after) = pendingOf (.finishing b after) := by
  cases after <;> rfl

theorem building_finishing (a b : Stage) (after : After) :
    Building (.finishing a after) = Building (.finishing b after) := by
  cases after <;> rfl

theorem inHand_finishing (k : Key) (p : BlobPtr) (a b : Stage) (after : After) :
    InHand k p (.finishing a after) = InHand k p (.finishing b after) := by
  cases after <;> rfl

/-- The outputs of a job reach the next stage. -/
theorem jobOk_stage {a b : Stage} {after : After} (h : JobOk t job)
    (hp : job.phase = .finishing a after)
    (hsync : ¬ Unsynced (.finishing b after) → ∀ f ∈ job.outputs, t.fileSynced f = true)
    (hlog : ¬ Unlogged (.finishing b after) → ∀ f ∈ job.outputs, f ∈ added t.log) :
    JobOk t { job with phase := .finishing b after } where
  inputs := h.inputs
  written := h.written
  synced := hsync
  logged := hlog
  applied := fun hn => absurd trivial hn
  covers := by
    intro k p htip hin
    have := h.covers k p htip hin
    rw [hp] at this
    exact inHand_finishing k p a b after ▸ this
  pending := by
    have := h.pending
    rw [hp, pendingOf_finishing a b] at this
    exact this
  unreferenced := by
    have := h.unreferenced
    rw [hp, pendingOf_finishing a b] at this
    exact this
  nodup := by
    have := h.nodup
    rw [hp, pendingOf_finishing a b] at this
    exact this
  building := by
    have := h.building
    rw [hp, building_finishing a b] at this
    exact this
  scanning := by simp
  settled := by simp
  deleting := by simp

theorem inv_syncFiles (hs : Inv cf s) {after : After} (hj : s.jobs j = some job)
    (hp : job.phase = .finishing .written after) :
    Inv cf { s.setJob j (some { job with phase := .finishing .synced after }) with
      fileSynced := fun f => s.fileSynced f || decide (f ∈ job.outputs) } := by
  generalize ht : ({ s.setJob j (some { job with phase := .finishing .synced after }) with
    fileSynced := fun f => s.fileSynced f || decide (f ∈ job.outputs) } : State) = t
  have hg : Grows s t Nothing := by
    rw [← ht]
    exact { grows_refl s Nothing with fileSynced := fun f h => by simp [h] }
  have hok : JobOk t { job with phase := .finishing .synced after } := by
    refine jobOk_stage (jobOk_grows hg avoids_nothing (hs.jobs j job hj)) hp ?_ ?_
    · intro _ f hf
      simp [← ht, hf]
    · exact fun hn => absurd trivial hn
  subst ht
  refine inv_phase hs hj hg rfl hok ?_ ?_ ?_ (by simp [hp]) rfl rfl rfl rfl rfl hs.manifest.length
    rfl rfl { hs.bounds with } rfl
    (marked_phase hj rfl rfl rfl (by simp [droppedOf]))
  · rw [hp, pendingOf_finishing]
    exact fun _ h => h
  · rw [hp, building_finishing]
    exact id
  · rw [hp]
    exact fun _ => trivial

/-- The record of the manifest that adds the outputs of a job. -/
theorem inv_logFiles (hs : Inv cf s) {after : After} {metas : List BlobFileMeta}
    (hj : s.jobs j = some job) (hp : job.phase = .finishing .synced after)
    (hm : metas.map (·.fileNumber) = job.outputs) :
    Inv cf { s.setJob j (some { job with phase := .finishing .logged after }) with
      log := s.log ++ [{ nextFileNumber := some s.nextFileNumber, columnFamilyId := cf,
                         addedFiles := metas }] } := by
  generalize ht : ({ s.setJob j (some { job with phase := .finishing .logged after }) with
    log := s.log ++ [{ nextFileNumber := some s.nextFileNumber, columnFamilyId := cf,
                       addedFiles := metas }] } : State) = t
  have hold := hs.jobs j job hj
  have hsynced : ∀ f ∈ job.outputs, s.fileSynced f = true := hold.synced (by rw [hp]; exact id)
  have hg : Grows s t Nothing := by
    rw [← ht]
    exact { grows_refl s Nothing with log := ⟨_, rfl⟩ }
  have hok : JobOk t { job with phase := .finishing .logged after } := by
    refine jobOk_stage (jobOk_grows hg avoids_nothing hold) hp ?_ ?_
    · exact fun _ f hf => hg.fileSynced f (hsynced f hf)
    · intro _ f hf
      simp [← ht, hm, hf]
  have hc : Change s t j (some { job with phase := .finishing .logged after }) Nothing := by
    refine change_phase hs hj hg fromJob_nothing (by rw [← ht]; rfl) hok ?_ ?_ (fun h => h.elim)
    · rw [hp, pendingOf_finishing]
      exact fun _ h => h
    · rw [hp, building_finishing]
      exact id
  have hmanifest : ManifestOk cf t := by
    subst ht
    refine manifest_append hs hc rfl rfl rfl rfl rfl rfl ?_ ?_ List.nodup_nil (by simp)
      fun _ _ => not_deleting hj (by simp [hp])
    · rw [hm]
      exact (hs.separated.nodup j job hj).2
    · rw [hm]
      intro f hf
      exact ⟨hs.manifest.unlogged j job hj (by rw [hp]; trivial) f hf, hsynced f hf, hf, id⟩
  subst ht
  refine inv_quiet hs hc rfl rfl rfl hs.data.filesOk { hs.bounds with }
    hmanifest ?_ (fun _ _ h => .inl h) hs.purged
    (marked_phase hj rfl rfl rfl (by simp [droppedOf]))
  · intro f hf
    exact .inl (by simpa using hf)

/-- The manifest is synced, and the outputs become part of the storage. -/
theorem inv_applied (hs : Inv cf s) {after : After} (hj : s.jobs j = some job)
    (hp : job.phase = .finishing .logged after)
    (hnext : ph = .built ∧ after = .install ∨
      ∃ pending, ph = .rewriting pending [] ∧ after = .rewrite pending) :
    Inv cf { s.setJob j (some { job with phase := ph }) with logSynced := s.log.length } := by
  generalize ht : ({ s.setJob j (some { job with phase := ph }) with
    logSynced := s.log.length } : State) = t
  have hg : Grows s t Nothing := by
    rw [← ht]
    exact { grows_refl s Nothing with logSynced := hs.manifest.length }
  have hold := jobOk_grows hg avoids_nothing (hs.jobs j job hj)
  have hpend : pendingOf ph = pendingOf job.phase := by
    rw [hp]
    rcases hnext with ⟨rfl, rfl⟩ | ⟨pending, rfl, rfl⟩ <;> rfl
  have hbuild : Building ph = Building job.phase := by
    rw [hp]
    rcases hnext with ⟨rfl, rfl⟩ | ⟨pending, rfl, rfl⟩ <;> rfl
  have hhand : ∀ k p, InHand k p ph = InHand k p job.phase := by
    intro k p
    rw [hp]
    rcases hnext with ⟨rfl, rfl⟩ | ⟨pending, rfl, rfl⟩ <;> rfl
  have hlogged : ∀ f ∈ job.outputs, f ∈ added s.log :=
    (hs.jobs j job hj).logged (by rw [hp]; exact id)
  have hok : JobOk t { job with phase := ph } :=
    { inputs := hold.inputs
      written := hold.written
      synced := fun _ => hold.synced (by rw [hp]; exact id)
      logged := fun _ => hold.logged (by rw [hp]; exact id)
      applied := fun _ f hf => by simpa [← ht, State.setJob] using hlogged f hf
      covers := fun k p htip hin => hhand k p ▸ hold.covers k p htip hin
      pending := hpend ▸ hold.pending
      unreferenced := hpend ▸ hold.unreferenced
      nodup := hpend ▸ hold.nodup
      building := hbuild ▸ hold.building
      scanning := by rcases hnext with ⟨rfl, -⟩ | ⟨pending, rfl, -⟩ <;> simp
      settled := by rcases hnext with ⟨rfl, -⟩ | ⟨pending, rfl, -⟩ <;> simp
      deleting := by rcases hnext with ⟨rfl, -⟩ | ⟨pending, rfl, -⟩ <;> simp }
  subst ht
  refine inv_phase hs hj hg rfl hok (by rw [hpend]; exact fun _ h => h) (by rw [hbuild]; exact id) ?_
    (by simp [hp]) rfl rfl rfl rfl rfl le_rfl rfl rfl { hs.bounds with } rfl
    (marked_phase hj rfl rfl rfl ?_)
  · rcases hnext with ⟨rfl, -⟩ | ⟨pending, rfl, -⟩ <;> exact fun h => h.elim
  · rcases hnext with ⟨rfl, -⟩ | ⟨pending, rfl, -⟩ <;> simp [droppedOf]

/-! ## New files -/

section

variable {new : Files Key} {outputs : List UInt64} {next : UInt64} {after : After}

theorem grows_newFiles (hw : Writes s new outputs next) (job : Option Job) :
    Grows s { s.setJob j job with files := add s.files new, nextFileNumber := next } Nothing :=
  { grows_refl s Nothing with
    holds := fun _ _ _ h => holds_add_old hw.fresh h
    written := fun _ h hn => h (add_eq_none.mp hn).2 }

theorem output_fresh (hw : Writes s new outputs next) {f : UInt64} (hf : f ∈ outputs) :
    s.files f = none := by
  obtain ⟨recs, hrecs⟩ := Option.ne_none_iff_exists'.mp ((hw.numbers f).mp hf)
  exact (hw.fresh f recs hrecs).1

theorem not_referenced_of_fresh (hs : Inv cf s) {p : BlobPtr} (hf : s.files p.fileNumber = none) :
    ¬ Referenced s p := by
  rintro ⟨k, n, hkn⟩
  obtain ⟨v, hv⟩ := hs.data.stored k n p hkn
  exact hv.file_ne_none hf

/-- A job that has just written its outputs. -/
theorem inv_newFiles (job : Job) (hs : Inv cf s) (hw : Writes s new outputs next)
    (hout : job.outputs = outputs)
    (hph : job.phase = .finishing .written after)
    (hin : ∀ f ∈ job.inputs, f ∈ added (s.log.take s.logSynced)) (hnodup : job.inputs.Nodup)
    (hapart : ∀ i a, i ≠ j → s.jobs i = some a → ∀ f ∈ job.inputs, f ∉ a.inputs ∧ f ∉ a.outputs)
    (hcovers : ∀ k p, tip s.lsm s.seq k = some (.index p) → p.fileNumber ∈ job.inputs →
      InHand k p job.phase)
    (hpend : ∀ e ∈ pendingOf job.phase, RewriteOk (add s.files new) job.outputs e)
    (hptrs : (newPtrs (pendingOf job.phase)).Nodup)
    (hdel : ∀ old o, s.jobs j = some old → old.phase ≠ .deleting o) :
    Inv cf { s.setJob j (some job) with files := add s.files new, nextFileNumber := next } := by
  have hg := grows_newFiles (j := j) hw (some job)
  generalize ht : ({ s.setJob j (some job) with
    files := add s.files new, nextFileNumber := next } : State) = t at hg
  have hfresh : ∀ f ∈ job.outputs, s.files f = none := fun f hf => output_fresh hw (hout ▸ hf)
  have hunref : ∀ p, p.fileNumber ∈ job.outputs → ¬ Referenced t p := by
    intro p hp href
    rcases referenced_grows hg href with hold | hn
    · exact not_referenced_of_fresh hs (hfresh _ hp) hold
    · exact hn
  have hptr : ∀ p ∈ newPtrs (pendingOf job.phase), p.fileNumber ∈ job.outputs := by
    intro p hp
    obtain ⟨e, he, hslot⟩ := mem_newPtrs.mp hp
    exact ((hpend e he).copy hslot).2
  have hok : JobOk t job :=
    { inputs := fun f hf => added_grows hg (hin f hf)
      written := by
        intro f hf hn
        rw [← ht] at hn
        exact (hw.numbers f).mp (hout ▸ hf) (add_eq_none.mp hn).1
      synced := fun hn => absurd (by rw [hph]; trivial) hn
      logged := fun hn => absurd (by rw [hph]; trivial) hn
      applied := fun hn => absurd (by rw [hph]; trivial) hn
      covers := by
        intro k p htip hf
        rcases hg.tips k p htip with hold | hn
        · exact hcovers k p hold hf
        · exact hn.elim
      pending := by rw [← ht]; exact hpend
      unreferenced := fun p hp => hunref p (hptr p hp)
      nodup := hptrs
      building := fun _ p href hp => hunref p hp href
      scanning := by simp [hph]
      settled := by simp [hph]
      deleting := by simp [hph] }
  have hc : Change s t j (some job) Nothing := by
    refine change_some hg fromJob_nothing (by rw [← ht]; rfl) hok ⟨hapart, fun i a _ hi f hf =>
      ⟨fun h => ?_, fun h => ?_⟩, fun f hf h => ?_, hnodup, hout ▸ hw.nodup⟩ (.inr hfresh)
    · exact not_added_of_fresh hs (hfresh f hf)
        (added_take_subset _ _ f ((hs.jobs i a hi).inputs f h))
    · exact (hs.jobs i a hi).written f h (hfresh f hf)
    · exact not_added_of_fresh hs (hfresh f hf) (added_take_subset _ _ f (hin f h))
  subst ht
  refine inv_quiet hs hc rfl rfl rfl (filesOk_add hs.data.filesOk hw.fresh)
    { hs.bounds with }
    (manifest_same hs hc rfl rfl hw.next rfl fun old o hold h => absurd h (hdel old o hold))
    (fun _ h => .inl h) (fun _ _ h => .inl h) hs.purged (marked_change rfl rfl rfl ?_)
  intro a ha d hd
  rw [← Option.some.inj ha, hph] at hd
  simp [droppedOf] at hd

theorem inv_build (hs : Inv cf s) (hj : s.jobs j = none) (hw : Writes s new outputs next) :
    Inv cf { s.setJob j (some { outputs, phase := .finishing .written .install }) with
      files := add s.files new, nextFileNumber := next } :=
  inv_newFiles { outputs, phase := .finishing .written .install } hs hw rfl rfl (by simp)
    List.nodup_nil (by simp) (by simp) (by simp [pendingOf]) List.nodup_nil (by simp [hj])

end

/-- A job that fails leaves its files behind: outputs that nothing refers to, and
inputs that stay in the storage. -/
theorem inv_abort (hs : Inv cf s) (hj : s.jobs j = some job)
    (hd : ∀ q, job.phase ≠ .deleting q) : Inv cf (s.setJob j none) := by
  have hg : Grows s (s.setJob j none) Nothing := { grows_refl s Nothing with }
  have hc := change_remove hg fromJob_nothing rfl
  refine inv_quiet hs hc rfl rfl rfl hs.data.filesOk { hs.bounds with }
    (manifest_same hs hc rfl rfl (UInt64.le_refl _) rfl fun old o hold hph =>
      absurd hph (not_deleting hj hd hold)) (fun _ h => .inl h)
    (fun _ _ h => .inl h) hs.purged (marked_change rfl rfl rfl (by simp))

end TitanGC.Software.FileSteps
