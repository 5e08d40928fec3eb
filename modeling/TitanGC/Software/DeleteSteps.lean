import TitanGC.Software.ScanSteps

/-!
# Deleting the inputs of a job keeps the invariant

`DeleteInputBlobFiles`, after the bits of the dropped copies are set and the WAL is
synced: the manifest record, and the storage once the manifest is synced.
-/

namespace TitanGC.Software.DeleteSteps

open Lib.MultiVersion List Manifest.VersionEdits Manifest.Replay Software.System Invariant
open Carry FileSteps ScanSteps

variable {cf : UInt32} {s t : State} {j : Nat} {job : Job} {dropped : List (UInt64 × UInt64)}
  (hs : Inv cf s) (hj : s.jobs j = some job)

include hs hj

theorem inv_markDropped (hp : job.phase = .rewriting [] dropped) :
    Inv cf { s.setJob j (some { job with phase := .marked }) with
      bits := fun f i => s.bits f i || decide ((f, i) ∈ dropped) } := by
  have hg : Grows s { s.setJob j (some { job with phase := .marked }) with
      bits := fun f i => s.bits f i || decide ((f, i) ∈ dropped) } Nothing :=
    { grows_refl s Nothing with bits := fun f i h => by simp [h] }
  have hok : JobOk s { job with phase := .marked } := by
    refine jobOk_phase (hs.jobs j job hj) (by simp [hp, Finishing]) rfl id ?_ (by simp) (by simp)
      (by simp)
    intro k p htip hin
    have hcov := (hs.jobs j job hj).covers k p htip hin
    rw [hp] at hcov
    obtain ⟨e, he, -⟩ := hcov
    cases he
  refine inv_phase hs hj hg rfl (jobOk_grows hg avoids_nothing hok) (by simp [pendingOf, newPtrs])
    (fun h => h.elim) (fun h => h.elim) (by simp [hp]) rfl rfl rfl rfl rfl hs.manifest.length rfl rfl
    { hs.bounds with } rfl ?_
  rintro d (hb | hn | ⟨i, a, hi, hd⟩)
  · rcases Bool.or_eq_true_iff.mp hb with hb | hb
    · exact .inl (.inl hb)
    · exact .inl (.inr (.inr ⟨j, job, hj, by rw [hp]; exact of_decide_eq_true hb⟩))
  · exact .inl (.inr (.inl hn))
  · rcases update_some hi with ⟨rfl, rfl⟩ | ⟨-, hi'⟩
    · simp [droppedOf] at hd
    · exact .inl (.inr (.inr ⟨i, a, hi', hd⟩))

/-- When a job has written all keys back, no read from now on finds a version in its
inputs. -/
theorem gone_of_marked (hp : job.phase = .marked) {f : UInt64} (hf : f ∈ job.inputs) :
    Gone s f s.seq := by
  rintro p - hle k r hr rfl
  rw [visible_of_bounded (hs.data.bounded k) hle] at hr
  have hcov := (hs.jobs j job hj).covers k r hr hf
  rw [hp] at hcov
  exact hcov

theorem inv_flushWal (hp : job.phase = .marked) :
    Inv cf { s.setJob j (some { job with phase := .walSynced }) with synced := s.seq } := by
  generalize ht : ({ s.setJob j (some { job with phase := .walSynced }) with
    synced := s.seq } : State) = t
  have hg : Grows s t Nothing := by
    rw [← ht]
    exact { grows_refl s Nothing with synced := hs.bounds.synced }
  have hold := jobOk_grows hg avoids_nothing (hs.jobs j job hj)
  have hok : JobOk t { job with phase := .walSynced } := by
    refine jobOk_phase hold (by simp [hp, Finishing]) rfl id ?_ (by simp) ?_ (by simp)
    · intro k p htip hin
      have hcov := hold.covers k p htip hin
      rw [hp] at hcov
      exact hcov
    · intro _ f hf
      exact ⟨s.seq, by rw [← ht], gone_grows hg (fun _ h => h.elim) (gone_of_marked hs hj hp hf)⟩
  subst ht
  refine inv_phase hs hj hg rfl hok (by simp [pendingOf, newPtrs]) (fun h => h.elim)
    (fun h => h.elim) (by simp [hp]) rfl rfl rfl rfl rfl hs.manifest.length rfl rfl
    { hs.bounds with synced := le_rfl } rfl (marked_phase hj rfl rfl rfl (by simp [droppedOf]))

/-- The record of the manifest that deletes the inputs that are not obsolete yet. -/
theorem inv_logDelete (hp : job.phase = .walSynced) :
    Inv cf { s.setJob j (some { job with phase := .deleting s.seq }) with
      log := s.log ++ [{ nextFileNumber := some s.nextFileNumber, columnFamilyId := cf,
                         deletedFiles := (job.inputs.filter fun f => (s.obsolete f).isNone).map
                           fun f => (f, s.seq) }] } := by
  generalize he :
    ({ nextFileNumber := some s.nextFileNumber, columnFamilyId := cf,
       deletedFiles := (job.inputs.filter fun f => (s.obsolete f).isNone).map
         fun f => (f, s.seq) } : VersionEdit) = e
  generalize ht : ({ s.setJob j (some { job with phase := .deleting s.seq }) with
    log := s.log ++ [e] } : State) = t
  have hdel : e.deletedFiles.map (·.1) = job.inputs.filter fun f => (s.obsolete f).isNone := by
    rw [← he]
    simp [Function.comp_def]
  have hg : Grows s t Nothing := by
    rw [← ht]
    exact { grows_refl s Nothing with log := ⟨_, rfl⟩ }
  have hold := jobOk_grows hg avoids_nothing (hs.jobs j job hj)
  have hlogged : ∀ f ∈ job.inputs, f ∈ deleted t.log := by
    intro f hf
    have hlog : t.log = s.log ++ [e] := by rw [← ht]
    rw [hlog, deleted_append, deleted_cons, deleted_nil, append_nil, hdel]
    cases ho : s.obsolete f with
    | none => exact mem_append_right _ (mem_filter.mpr ⟨hf, by simp [ho]⟩)
    | some o =>
      exact mem_append_left _ (deleted_take_subset _ _ f (hs.manifest.obsolete f o ho))
  have hok : JobOk t { job with phase := .deleting s.seq } := by
    refine jobOk_phase hold (by simp [hp, Finishing]) rfl id ?_ (by simp) (by simp) ?_
    · intro k p htip hin
      have hcov := hold.covers k p htip hin
      rw [hp] at hcov
      exact hcov
    · rintro o ho
      obtain rfl : s.seq = o := by simpa using ho
      refine ⟨hg.seq, fun f hf => ⟨hlogged f hf, ?_⟩⟩
      obtain ⟨q, hq, hgone⟩ := (hs.jobs j job hj).settled hp f hf
      exact ⟨q, hq.trans hg.synced, hq.trans hs.bounds.synced,
        gone_grows hg (fun _ h => h.elim) hgone⟩
  have hc : Change s t j (some { job with phase := .deleting s.seq }) Nothing :=
    change_phase hs hj hg fromJob_nothing (by rw [← ht]; rfl) hok (by simp [pendingOf, newPtrs])
      (fun h => h.elim) (fun h => h.elim)
  have hmanifest : ManifestOk cf t := by
    have hnotdel : ∀ old o, s.jobs j = some old → old.phase ≠ .deleting o :=
      fun _ _ => not_deleting hj (by simp [hp])
    refine manifest_append hs hc (e := e) (by rw [← ht]) (by rw [← he]) (by rw [← he])
      (by rw [← ht]; rfl) (by rw [← ht]; rfl) (by rw [← ht]; rfl) (by simp [← he]) (by simp [← he])
      ?_ ?_ hnotdel
    · rw [hdel]
      exact (hs.separated.nodup j job hj).1.filter _
    · rw [hdel]
      intro f hf
      obtain ⟨hin, hob⟩ := mem_filter.mp hf
      refine ⟨added_take_subset _ _ f ((hs.jobs j job hj).inputs f hin), ?_, hin, s.seq, rfl⟩
      -- a file is deleted by one job at a time, and is obsolete afterwards
      intro hd
      rcases hs.manifest.deleting f hd with hn | ⟨i, a, o, hi, hph, hia⟩
      · exact hn (by simpa using hob)
      · obtain rfl := hs.separated.inputs i j a job f hi hj hia hin
        exact hnotdel a o hi hph
  subst ht
  refine inv_quiet hs hc rfl rfl rfl hs.data.filesOk { hs.bounds with }
    hmanifest ?_ (fun _ _ h => .inl h) hs.purged
    (marked_phase hj rfl rfl rfl (by simp [droppedOf]))
  intro f hf
  rw [deleted_append, deleted_cons, deleted_nil, append_nil, hdel] at hf
  rcases mem_append.mp hf with hf | hf
  · exact .inl hf
  · obtain ⟨q, hq, hgone⟩ := (hs.jobs j job hj).settled hp f (mem_filter.mp hf).1
    exact .inr ⟨q, hq, gone_grows hg (fun _ h => h.elim) hgone⟩

/-- The inputs become obsolete once their deletion is synced. -/
theorem inv_applyDelete {q : Nat} (hp : job.phase = .deleting q) :
    Inv cf { s.setJob j none with
      logSynced := s.log.length
      obsolete := fun f => (s.obsolete f).or (if f ∈ job.inputs then some q else none) } := by
  generalize ht : ({ s.setJob j none with
    logSynced := s.log.length
    obsolete := fun f => (s.obsolete f).or (if f ∈ job.inputs then some q else none) } : State) = t
  have hg : Grows s t Nothing := by
    rw [← ht]
    exact { grows_refl s Nothing with logSynced := hs.manifest.length }
  have hc : Change s t j none Nothing := change_remove hg fromJob_nothing (by rw [← ht]; rfl)
  obtain ⟨hq, hinputs⟩ := (hs.jobs j job hj).deleting q hp
  have hobs : ∀ f o, t.obsolete f = some o → s.obsolete f = some o ∨ (f ∈ job.inputs ∧ o = q) := by
    intro f o ho
    rw [← ht] at ho
    simp only [Option.or_eq_some_iff] at ho
    rcases ho with ho | ⟨-, ho⟩
    · exact .inl ho
    · split at ho
      · exact .inr ⟨‹_›, (Option.some.inj ho).symm⟩
      · cases ho
  have hkeep : ∀ f, s.obsolete f ≠ none → t.obsolete f ≠ none := by
    intro f hf
    rw [← ht]
    simp [Option.or_eq_none_iff, hf]
  have hmanifest : ManifestOk cf t := by
    refine manifest_change hs hc (by rw [← ht]; rfl) (by rw [← ht])
      (by rw [← ht]; exact UInt64.le_refl _) hkeep ?_ ?_
    · intro f o ho
      rcases hobs f o ho with hold | ⟨hin, -⟩
      · exact .inl hold
      · refine .inr ?_
        rw [← ht]
        simpa [State.setJob] using (hinputs f hin).1
    · intro old o hold hph
      obtain rfl := Option.some.inj (hj.symm.trans hold)
      refine .inl fun f hf hn => ?_
      rw [← ht] at hn
      simp [hf] at hn
  subst ht
  refine inv_quiet hs hc rfl rfl rfl hs.data.filesOk { hs.bounds with } hmanifest (fun _ h => .inl h) ?_
    (fun f hf => hkeep f (hs.purged f hf)) (marked_change hc.jobs rfl rfl (by simp))
  · intro f o ho
    rcases hobs f o ho with hold | ⟨hin, rfl⟩
    · exact .inl hold
    · obtain ⟨-, q', -, hle, hgone⟩ := hinputs f hin
      exact .inr ⟨hq.trans hg.seq, gone_mono (gone_grows hg (fun _ h => h.elim) hgone) hle⟩

end TitanGC.Software.DeleteSteps
