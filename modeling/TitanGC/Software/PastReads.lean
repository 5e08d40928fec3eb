import TitanGC.Software.Crash
import TitanGC.Software.Snapshots

/-!
# Reads of the past

What a read at a sequence number returns does not change for as long as a snapshot
holds the number, or nothing above it is flushed. So a live snapshot reads the
writes up to its number, and so does a database that recovers them after a crash.
-/

namespace TitanGC.Software.PastReads

open Relation List Lib.ByteCoding Lib.MultiVersion Lib.Runs Format.Coding Format.BlobFormat
open Storage.BlobFiles Manifest.VersionEdits Manifest.Replay
open Offload.Reads (titanGet)
open GcJob Software.System Invariant TipReads Snapshots Crash

variable {cf : UInt32} {s t : State} {p m : Nat} {k : Key} {a : Action} {fs : Files Key}

/-- A read at the sequence number, from all files that were ever written. -/
def read (s : State) (p : Nat) (k : Key) : Except Status Bytes :=
  titanGet s.files (baseResult (visible (s.lsm k) p))

theorem titanGet_index (ho : FilesOk fs) {r : BlobPtr} {v : Bytes} (h : Holds fs r k v) :
    titanGet fs (baseResult (some (.index r))) = .ok v := by
  simp only [baseResult, titanGet, BlobIndex.decodeFrom_encodeTo]
  exact storageGet_of_holds ho h

/-- No read notices what a flush or compaction makes of the version it finds. -/
theorem titanGet_readsAs (ho : FilesOk fs) {outputs : List UInt64} {old new : Option Slot}
    (h : ReadsAs (· = .deletion) (Moves fs outputs k) old new) :
    titanGet fs (baseResult old) = titanGet fs (baseResult new) := by
  cases old with
  | none =>
    cases new with
    | none => rfl
    | some w => exact h.elim
  | some v =>
    cases new with
    | none =>
      obtain rfl : v = .deletion := h
      rfl
    | some w =>
      rcases h with rfl | hmoves
      · rfl
      · cases hmoves with
        | keep => rfl
        | separate x r hr => rw [titanGet_index ho hr]; rfl
        | relocate x q r hq hr => rw [titanGet_index ho hq, titanGet_index ho hr]
        | putInline x q hq => rw [titanGet_index ho hq]; rfl

/-! ## What a step keeps -/

theorem read_append (hp : p ≤ s.seq) (l : Key) (slot : Slot) : read (s.append l slot) p k = read s p k := by
  by_cases hk : k = l
  · subst hk
    simp [read, State.append, visible_write_old slot hp]
  · simp [read, State.append, hk]

/-- A read from other files that hold the record it finds. -/
theorem read_eq (hs : Inv cf s) (ho : FilesOk fs)
    (h : ∀ r v, visible (s.lsm k) p = some (.index r) → Holds s.files r k v → Holds fs r k v) :
    titanGet fs (baseResult (visible (s.lsm k) p)) = read s p k := by
  unfold read
  rcases hslot : visible (s.lsm k) p with _ | _ | _ | r
  · rfl
  · rfl
  · rfl
  · obtain ⟨n, hn⟩ := exists_of_visible hslot
    obtain ⟨v, hv⟩ := hs.data.stored k n r hn
    rw [titanGet_index hs.data.filesOk hv, titanGet_index ho (h r v hslot hv)]

/-- A step changes no read at a number that a snapshot holds or that is not flushed over. -/
theorem read_step (hs : Inv cf s) (hstep : Step cf s a t) (hrel : Relevant t p) (hp : p ≤ s.seq) :
    read t p k = read s p k := by
  have hadd : ∀ new, Fresh s.files new →
      titanGet (add s.files new) (baseResult (visible (s.lsm k) p)) = read s p k := fun _ hfresh =>
    read_eq hs (filesOk_add hs.data.filesOk hfresh) fun _ _ _ => holds_add_old hfresh
  have hinstall : ∀ outputs region lsm, Installs s outputs region lsm →
      (p ∈ s.snapshots ∨ ∀ n, region k n → n ≤ p) →
      titanGet s.files (baseResult (visible (lsm k) p)) = read s p k := fun _ _ _ hi hq =>
    (titanGet_readsAs hs.data.filesOk (readsAs_of_rewritten (hi.rewritten k) hq)).symm
  cases hstep with
  | put => exact read_append hp _ _
  | delete => exact read_append hp _ _
  | writeBack => exact read_append hp _ _
  | build j new outputs next hj hw => exact hadd new hw.fresh
  | rewriteFiles j job sc fallback new outputs next pending hj hph ht hw => exact hadd new hw.fresh
  | flush j job flushed lsm hj hph hf hseq hi =>
    exact hinstall _ _ _ hi (hrel.imp_right fun hle n hn => hn.2.trans hle)
  | compact j job region lsm info hj hph hr hi =>
    exact hinstall _ _ _ hi (hrel.imp_right fun hle n hn => (hr k n hn).trans hle)
  | _ => rfl

theorem seq_step (hstep : Step cf s a t) : t.seq = s.seq ∨ t.seq = s.seq + 1 := by
  cases hstep with
  | put => exact .inr rfl
  | delete => exact .inr rfl
  | writeBack => exact .inr rfl
  | _ => exact .inl rfl

theorem read_seq (hs : Inv cf s) (k : Key) : read s s.seq k = lastResult s k :=
  (read_eq hs (filesOk_present hs) fun _ _ => present_holds hs).symm.trans (get_eq_lastResult hs k)

theorem relevant_step (hs : Inv cf s) (hstep : Step cf s a t) (hrel : Relevant t p) : Relevant s p := by
  cases hstep with
  | getSnapshot =>
    rcases hrel with hsn | hf
    · rcases mem_append.mp hsn with hold | hnew
      · exact .inl hold
      · rw [mem_singleton.mp hnew]
        exact .inr hs.bounds.flushed
    · exact .inr hf
  | releaseSnapshot i => exact hrel.imp_left fun hsn => (eraseIdx_sublist _ _).subset hsn
  | flush j job flushed lsm hj hph hf => exact hrel.imp_right hf.trans
  | _ => exact hrel

/-- The reads return, for all keys, the latest writes of one moment of the run to `t`, when `p`
was the latest sequence number. -/
def AsAt (cf : UInt32) (t : State) (p : Nat) (reads : Key → Except Status Bytes) : Prop :=
  ∃ s, ReflTransGen (SomeStep cf) (init cf) s ∧ ReflTransGen (SomeStep cf) s t ∧ s.seq = p ∧
    ∀ k, reads k = lastResult s k

theorem asAt_read (run : ReflTransGen (SomeStep cf) (init cf) t) (hrel : Relevant t p) (hp : p ≤ t.seq) :
    AsAt cf t p (read t p) := by
  -- either the last step made `p` the latest number, or it kept what a read at `p` returns
  induction run with
  | refl =>
    obtain rfl : p = 0 := Nat.le_zero.mp hp
    exact ⟨_, .refl, .refl, rfl, read_seq (inv_init cf)⟩
  | @tail b c run hstep ih =>
    by_cases heq : c.seq = p
    · subst heq
      exact ⟨c, run.tail hstep, .refl, rfl, read_seq (inv_run (run.tail hstep))⟩
    · obtain ⟨a, hstep'⟩ := id hstep
      have hseq := seq_step hstep'
      have hle : p ≤ b.seq := by omega
      obtain ⟨s, hs, hsb, hsp, hreads⟩ := ih (relevant_step (inv_run run) hstep' hrel) hle
      exact ⟨s, hs, hsb.tail hstep, hsp, fun k =>
        (read_step (inv_run run) hstep' hrel hle).trans (hreads k)⟩

/-- The same from other files, if they have what the reads look for. -/
theorem asAt_of_holds (run : ReflTransGen (SomeStep cf) (init cf) t) (hrel : Relevant t p) (hp : p ≤ t.seq)
    (ho : FilesOk fs) (h : ∀ k r, visible (t.lsm k) p = some (.index r) → fs r.fileNumber =
      t.files r.fileNumber) :
    AsAt cf t p fun k => titanGet fs (baseResult (visible (t.lsm k) p)) := by
  obtain ⟨s, hs, hst, hseq, hreads⟩ := asAt_read run hrel hp
  refine ⟨s, hs, hst, hseq, fun k => (read_eq (inv_run run) ho fun r v hr hv => ?_).trans (hreads k)⟩
  obtain ⟨recs, hrecs, hmem⟩ := hv
  exact ⟨recs, (h k r hr).trans hrecs, hmem⟩

/-! ## Snapshots -/

def getAt (s : State) (snapshot : Nat) (k : Key) : Except Status Bytes :=
  titanGet s.present (baseResult (visible (s.lsm k) snapshot))

/-- In every run whose purges are careful, a live snapshot reads the past. -/
theorem snapshot_reads_past (run : ReflTransGen (CarefulStep cf) (init cf) t) (hp : p ∈ t.snapshots) :
    AsAt cf t p (getAt t p) := by
  obtain ⟨ht, hold⟩ : Inv cf t ∧ PurgedOld t := by
    refine run_invariant (fun s => Inv cf s ∧ PurgedOld s) ?_ run ⟨inv_init cf, by simp [PurgedOld, init]⟩
    rintro s t ⟨hs, h⟩ ⟨a, hstep, hc⟩
    exact ⟨inv_step hs hstep, purgedOld_step hs h hstep hc⟩
  have run' : ReflTransGen (SomeStep cf) (init cf) t := by
    refine ReflTransGen.mono ?_ _ _ run
    rintro s t ⟨a, hstep, -⟩
    exact ⟨a, hstep⟩
  refine asAt_of_holds run' (.inl hp) (ht.bounds.snapshots p hp) (filesOk_present ht) fun k r hr => ?_
  -- a purged file is obsolete since before the snapshot, which sees no version in it
  refine if_neg fun hpurged => ?_
  cases ho : t.obsolete r.fileNumber with
  | none => exact ht.purged _ hpurged ho
  | some q => exact (ht.obsolete _ q ho).2 p (.inl hp) (hold _ q hpurged ho p hp) k r hr rfl

/-- The key is overwritten after the snapshot is taken. -/
theorem snapshot_reads_past_overwritten :
    ∃ t : State, t.lastWrite key = some [2, 2] ∧ AsAt 0 t 1 (getAt t 1) := by
  have run := ((carefulStep_of_other run_flushed).tail ⟨_, .getSnapshot _, trivial⟩).tail
    ⟨_, .put _ key [2, 2], trivial⟩
  exact ⟨_, rfl, snapshot_reads_past run (mem_singleton.mpr rfl)⟩

/-! ## Crashes -/

def recoveredFiles (s : State) (st : BlobStorage) : Files Key :=
  fun f => if (st.files f).isSome ∧ s.fileSynced f = true then s.present f else none

/-- At every crash point: with every prefix of the writes that holds the synced and flushed ones
and every prefix of the manifest that holds the synced records, the recovered database reads
the past, as long as no sync of the manifest has failed. -/
theorem recovered_reads_past (run : ReflTransGen (SyncedStep cf) (init cf) t) (hw : t.synced ≤ p)
    (hf : t.flushed ≤ p) (hp : p ≤ t.seq) (hm : t.logSynced ≤ m) :
    ∃ st next, recover [cf] (t.log.take m) = .ok ([(cf, st)], next) ∧
      AsAt cf t p fun k => titanGet (recoveredFiles t st) (baseResult (visible (t.lsm k) p)) := by
  have ht := inv_run (someStep_of_synced run)
  obtain ⟨st, next, hrecover, hlive⟩ :=
    recover_live (wellFormed_take ht.manifest.wellFormed m) (recovered_next ht hm)
  have hok : FilesOk (recoveredFiles t st) := by
    refine ⟨fun f recs hrecs => (filesOk_present ht).records f recs ?_, ?_⟩
    · exact (Option.ite_none_right_eq_some.mp hrecs).2
    · rw [recoveredFiles, (filesOk_present ht).nonzero, ite_self]
  refine ⟨st, next, hrecover, asAt_of_holds (someStep_of_synced run) (.inr hf) hp hok fun k r hr => ?_⟩
  obtain ⟨hsynced, _, _, hpresent, -⟩ := visible_on_disk ht hw hf hr
  have hadded := added_take_mono hm (ht.manifest.referenced r (referenced_of_visible hr))
  have hkept := (hlive r.fileNumber).mpr
    ⟨hadded, fun hdel => visible_not_deleted ht hw hf hr (deleted_take_subset _ _ _ hdel)⟩
  exact (if_pos ⟨hkept, hsynced⟩).trans (if_neg (Option.ite_none_left_eq_some.mp hpresent).1)

/-- A crash after a job has deleted file 2. -/
theorem recovered_reads_past_collected :
    ∃ st, AsAt 0 (collected [] none) 2 fun k =>
      titanGet (recoveredFiles (collected [] none) st)
        (baseResult (visible ((collected [] none).lsm k) 2)) := by
  have run := synced_of_other (run_flushed.trans (run_collected [] none))
  obtain ⟨st, -, -, hreads⟩ := recovered_reads_past run (show 2 ≤ 2 from le_rfl)
    (show 1 ≤ 2 by decide) (show 2 ≤ 2 from le_rfl) (show 5 ≤ 5 from le_rfl)
  exact ⟨st, hreads⟩

end TitanGC.Software.PastReads
