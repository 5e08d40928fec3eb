import TitanGC.Software.Carry

/-!
# User writes, snapshots, purges and notifications keep the invariant
-/

namespace TitanGC.Software.UserSteps

open Lib.ByteCoding Lib.MultiVersion List Function Storage.BlobFiles GcJob Software.System Invariant
open Carry
open Function (update)

variable {cf : UInt32} {s t : State} {k : Key} {slot : Slot}

/-! ## Writing one version -/

/-- The next version of a key, with the jobs and the latest user writes after the step. -/
def appended (s : State) (k : Key) (slot : Slot) (jobs : Nat → Option Job) (last : Key → Option Bytes) :
    State :=
  { s.append k slot with jobs := jobs, lastWrite := last }

section

variable {jobs : Nat → Option Job} {last : Key → Option Bytes}

theorem lsm_append {l : Key} {n : Nat} {x : Slot} (h : (appended s k slot jobs last).lsm l n = some x) :
    (l = k ∧ n = s.seq + 1 ∧ x = slot) ∨ s.lsm l n = some x := by
  change update s.lsm k (write (s.lsm k) s.seq slot) l n = some x at h
  by_cases hl : l = k
  · subst hl
    rcases write_eq_some (by simpa using h) with ⟨hn, hx⟩ | hold
    · exact .inl ⟨rfl, hn, hx⟩
    · exact .inr hold
  · exact .inr (by simpa [hl] using h)

theorem bounds_append (hs : BoundsOk s) : BoundsOk (appended s k slot jobs last) where
  flushed := Nat.le_succ_of_le hs.flushed
  synced := Nat.le_succ_of_le hs.synced
  snapshots sn h := Nat.le_succ_of_le (hs.snapshots sn h)
  sorted := hs.sorted
  purging o ho := (hs.purging o ho).imp_right (And.imp_left Nat.le_succ_of_le)

variable (hb : ∀ l, BoundedBy (s.lsm l) s.seq)

include hb

theorem tip_append (l : Key) :
    tip (appended s k slot jobs last).lsm (appended s k slot jobs last).seq l =
      if l = k then some slot else tip s.lsm s.seq l := by
  change visible (update s.lsm k (write (s.lsm k) s.seq slot) l) (s.seq + 1) = _
  by_cases hl : l = k
  · subst hl
    simp [visible_write_new (hb l) slot (Nat.lt_succ_self _)]
  · simp [tip, hl, visible_of_bounded (hb l) (Nat.le_succ _)]

theorem bounded_append (l : Key) :
    BoundedBy ((appended s k slot jobs last).lsm l) (appended s k slot jobs last).seq := by
  change BoundedBy (update s.lsm k (write (s.lsm k) s.seq slot) l) (s.seq + 1)
  by_cases hl : l = k
  · subst hl
    simpa using bounded_write (hb l) slot
  · simpa [hl] using (hb l).mono (Nat.le_succ _)

theorem visible_append {l : Key} {q : Nat} {x : Slot}
    (h : visible ((appended s k slot jobs last).lsm l) q = some x) :
    visible (s.lsm l) q = some x ∨ slot = x := by
  change visible (update s.lsm k (write (s.lsm k) s.seq slot) l) q = some x at h
  by_cases hl : l = k
  · subst hl
    rw [update_self] at h
    rcases Nat.lt_or_ge s.seq q with hlt | hle
    · rw [visible_write_new (hb l) slot hlt] at h
      exact .inr (Option.some.inj h)
    · rw [visible_write_old slot hle] at h
      exact .inl h
  · rw [update_of_ne hl] at h
    exact .inl h

/-- A write refers to at most one new record, that of the written version. -/
theorem grows_append : Grows s (appended s k slot jobs last) fun r => slot = .index r :=
  { grows_refl s Nothing with
    seq := Nat.le_succ _
    refs := fun l n p h => (lsm_append h).symm.imp_right fun hnew => hnew.2.2.symm
    reads := fun l q r hq h => (visible_append hb h).imp_left fun hold => ⟨hq, hold⟩
    tips := by
      intro l r h
      rw [tip_append hb] at h
      split at h
      · exact .inr (Option.some.inj h)
      · exact .inl h }

end

variable (hs : Inv cf s)

include hs

/-- A step that writes one version: an index in it is of a record that nothing refers to,
and reads of the key find the latest user write. -/
theorem inv_append {jobs : Nat → Option Job} {last : Key → Option Bytes} {j : Nat} {job : Option Job}
    (hc : Change s (appended s k slot jobs last) j job fun r => slot = .index r)
    (hnew : ∀ p, slot = .index p → (∃ v, Holds s.files p k v) ∧ ¬ Referenced s p)
    (hreads : ReadsLast (appended s k slot jobs last) k) (hlast : ∀ l, l ≠ k → last l = s.lastWrite l)
    (hdel : ∀ old o, s.jobs j = some old → old.phase = .deleting o → job = some old)
    (hmarked : ∀ d, Marked (appended s k slot jobs last) d →
      Marked s d ∨ Dead (appended s k slot jobs last) d) : Inv cf (appended s k slot jobs last) := by
  refine inv_change hs hc ?_ (fun l => ?_) (bounds_append hs.bounds)
    (manifest_same hs hc rfl rfl (UInt64.le_refl _) rfl hdel) (fun _ h => .inl h) (fun _ _ h => .inl h)
    hs.purged hmarked
  · refine data_change hs hc hs.data.filesOk (bounded_append hs.data.bounded) ?_ ?_
    · intro l n p hp hln
      rcases lsm_append hln with ⟨rfl, -, -⟩ | hold
      · exact (hnew p hp).1
      · exact hs.data.stored l n p hold
    · intro l n l' n' p hp hln hln'
      rcases lsm_append hln with ⟨rfl, rfl, -⟩ | hold
      · rcases lsm_append hln' with ⟨rfl, rfl, -⟩ | hold
        · exact ⟨rfl, rfl⟩
        · exact absurd ⟨l', n', hold⟩ (hnew p hp).2
      · exact absurd ⟨l, n, hold⟩ (hnew p hp).2
  · by_cases hl : l = k
    · exact hl ▸ hreads
    · have hr := hs.reads l
      unfold ReadsLast at hr ⊢
      rw [tip_append hs.data.bounded, if_neg hl]
      simp only [appended, hlast l hl]
      exact hr

/-- A user write of a value or a tombstone. -/
theorem inv_write (k : Key) (slot : Slot) (last : Option Bytes)
    (hslot : (∃ v, slot = .value v ∧ last = some v) ∨ (slot = .deletion ∧ last = none)) :
    Inv cf { s.append k slot with lastWrite := update s.lastWrite k last } := by
  have hnone : ∀ r, slot ≠ .index r := by
    rcases hslot with ⟨v, rfl, -⟩ | ⟨rfl, -⟩ <;> simp
  have hnew : (fun r => slot = .index r) = Nothing := funext fun r => eq_false (hnone r)
  have hg : Grows s (appended s k slot s.jobs (update s.lastWrite k last)) Nothing :=
    hnew ▸ grows_append hs.data.bounded
  refine inv_append hs (hnew ▸ change_none hs hg rfl) (fun p hp => absurd hp (hnone p)) ?_
    (fun l hl => update_of_ne hl _ _) (fun _ _ hold _ => hold) fun d hd => .inl hd
  unfold ReadsLast
  rw [tip_append hs.data.bounded, if_pos rfl]
  rcases hslot with ⟨v, rfl, rfl⟩ | ⟨rfl, rfl⟩ <;> simp [appended]

/-! ## The WAL, snapshots, purges and notifications -/

/-- A step that touches neither the LSM, the files, the manifest nor a job. -/
theorem inv_idle (hg : Grows s t Nothing) (hjobs : t.jobs = s.jobs) (hlsm : t.lsm = s.lsm)
    (hseq : t.seq = s.seq) (hlast : t.lastWrite = s.lastWrite) (hfiles : t.files = s.files)
    (hlog : t.log = s.log) (hlogs : t.logSynced = s.logSynced) (hnext : t.nextFileNumber = s.nextFileNumber)
    (hobs : t.obsolete = s.obsolete) (hbounds : BoundsOk t)
    (hpurged : ∀ f, t.purged f = true → s.obsolete f ≠ none) (hmarked : ∀ d, Marked t d → Marked s d) :
    Inv cf t := by
  have hc := change_none hs hg hjobs
  refine inv_quiet hs hc hlsm hseq hlast (hfiles ▸ hs.data.filesOk) hbounds ?_ ?_ ?_ ?_
    (fun d hd => .inl (hmarked d hd))
  · exact manifest_same hs hc hlog hlogs (hnext ▸ UInt64.le_refl _) hobs fun _ _ hold _ => hold
  · rw [hlog]
    exact fun _ h => .inl h
  · rw [hobs]
    exact fun _ _ h => .inl h
  · rw [hobs]
    exact hpurged

theorem inv_syncWal : Inv cf { s with synced := s.seq } := by
  have hg : Grows s { s with synced := s.seq } Nothing :=
    { grows_refl s Nothing with synced := hs.bounds.synced }
  exact inv_idle hs hg rfl rfl rfl rfl rfl rfl rfl rfl rfl { hs.bounds with synced := le_rfl } hs.purged
    fun _ h => h

/-- A new snapshot reads at the newest sequence number, at which reads could already
happen. -/
theorem inv_getSnapshot : Inv cf { s with snapshots := s.snapshots ++ [s.seq] } := by
  have hrel : ∀ q, Relevant { s with snapshots := s.snapshots ++ [s.seq] } q → Relevant s q := by
    rintro q (hq | hq)
    · rcases mem_append.mp hq with h | h
      · exact .inl h
      · exact .inr (mem_singleton.mp h ▸ hs.bounds.flushed)
    · exact .inr hq
  have hg : Grows s { s with snapshots := s.snapshots ++ [s.seq] } Nothing :=
    { grows_refl s Nothing with reads := fun _ q _ hq h => .inl ⟨hrel q hq, h⟩ }
  refine inv_idle hs hg rfl rfl rfl rfl rfl rfl rfl rfl rfl ?_ hs.purged fun _ h => h
  refine ⟨hs.bounds.flushed, hs.bounds.synced, ?_, ?_, ?_⟩
  · intro sn hsn
    rcases mem_append.mp hsn with h | h
    · exact hs.bounds.snapshots sn h
    · exact (mem_singleton.mp h).le
  · refine pairwise_append.mpr ⟨hs.bounds.sorted, pairwise_singleton _ _, ?_⟩
    intro a ha b hb
    rw [mem_singleton.mp hb]
    exact hs.bounds.snapshots a ha
  · intro o ho
    rcases hs.bounds.purging o ho with h | ⟨hle, h⟩
    · exact .inl h
    · refine .inr ⟨hle, fun sn hsn => ?_⟩
      rcases mem_append.mp hsn with hold | hnew
      · exact h sn hold
      · exact (mem_singleton.mp hnew) ▸ hle

theorem inv_releaseSnapshot (i : Nat) : Inv cf { s with snapshots := s.snapshots.eraseIdx i } := by
  have hsub : ∀ sn ∈ s.snapshots.eraseIdx i, sn ∈ s.snapshots :=
    fun sn h => (eraseIdx_sublist _ _).subset h
  have hrel : ∀ q, Relevant { s with snapshots := s.snapshots.eraseIdx i } q → Relevant s q := by
    rintro q (hq | hq)
    · exact .inl (hsub q hq)
    · exact .inr hq
  have hg : Grows s { s with snapshots := s.snapshots.eraseIdx i } Nothing :=
    { grows_refl s Nothing with reads := fun _ q _ hq h => .inl ⟨hrel q hq, h⟩ }
  refine inv_idle hs hg rfl rfl rfl rfl rfl rfl rfl rfl rfl ?_ hs.purged fun _ h => h
  refine ⟨hs.bounds.flushed, hs.bounds.synced, fun sn h => hs.bounds.snapshots sn (hsub sn h),
    hs.bounds.sorted.sublist (eraseIdx_sublist _ _), fun o ho => ?_⟩
  rcases hs.bounds.purging o ho with h | h
  · exact .inl h
  · exact .inr ⟨h.1, fun sn hsn => h.2 sn (hsub sn hsn)⟩

theorem inv_purgeRead : Inv cf { s with purging := some s.oldestSnapshot } := by
  have hg : Grows s { s with purging := some s.oldestSnapshot } Nothing := { grows_refl s Nothing with }
  refine inv_idle hs hg rfl rfl rfl rfl rfl rfl rfl rfl rfl ?_ hs.purged fun _ h => h
  refine ⟨hs.bounds.flushed, hs.bounds.synced, hs.bounds.snapshots, hs.bounds.sorted, ?_⟩
  rintro o ho
  obtain rfl := Option.some.inj ho
  unfold State.oldestSnapshot
  cases hsn : s.snapshots with
  | nil => exact .inl rfl
  | cons a rest =>
    have hsorted := hs.bounds.sorted
    rw [hsn] at hsorted
    refine .inr ⟨hs.bounds.snapshots a (hsn ▸ mem_cons_self), fun sn h => ?_⟩
    rcases mem_cons.mp h with rfl | h
    · exact le_rfl
    · exact (pairwise_cons.mp hsorted).1 sn h

theorem inv_purgeRemove (oldest : Nat) :
    Inv cf { s with
      purging := none
      purged := fun f => s.purged f || (s.obsolete f).any fun q => decide (q < oldest) } := by
  refine inv_idle hs { grows_refl s Nothing with } rfl rfl rfl rfl rfl rfl rfl rfl rfl
    { hs.bounds with purging := by simp } ?_ fun _ h => h
  intro f hf
  rcases Bool.or_eq_true_iff.mp hf with h | h
  · exact hs.purged f h
  · intro hn
    simp [hn] at h

theorem inv_deliver {before after : List CompactionJobInfo} {info : CompactionJobInfo}
    (hn : s.notices = before ++ info :: after) :
    Inv cf { s with
      notices := before ++ after
      bits := fun f i => s.bits f i || ((s.obsolete f).isNone && info.invalid (f, i)) } := by
  refine inv_idle hs { grows_refl s Nothing with bits := fun f i hb => by simp [hb] } rfl rfl rfl rfl rfl rfl
    rfl rfl rfl { hs.bounds with } hs.purged ?_
  rintro d (hb | ⟨x, hx, hd⟩ | hj)
  · simp only [Bool.or_eq_true, Bool.and_eq_true] at hb
    rcases hb with hb | ⟨-, hb⟩
    · exact .inl hb
    · exact .inr (.inl ⟨info, by simp [hn], hb⟩)
  · refine .inr (.inl ⟨x, ?_, hd⟩)
    rw [hn]
    rcases mem_append.mp hx with h | h <;> simp [h]
  · exact .inr (.inr hj)

end TitanGC.Software.UserSteps
