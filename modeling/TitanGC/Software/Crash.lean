import TitanGC.Software.TipReads

/-!
# Crash consistency

After a crash the base DB has some prefix of its writes, with everything that was
synced or flushed, and the manifest some prefix of its records, with everything
that was synced. The two prefixes are independent of each other. A record whose sync
fails may be there after a crash although its edit was not applied; what is shown here is
of runs in which no sync of the manifest fails.
-/

namespace TitanGC.Software.Crash

open Relation Lib.MultiVersion Format.BlobFormat Storage.BlobFiles
open Function (update_idem)
open List (mem_singleton nodup_nil nodup_singleton)
open Manifest.VersionEdits Manifest.Replay GcJob Software.System Invariant TipReads

variable {cf : UInt32} {s : State} {p m : Nat} {k : Key} {r : BlobPtr}

/-- No read at a recovered sequence number finds a version in a file that some record
of the manifest deletes. -/
theorem visible_not_deleted (hs : Inv cf s) (hw : s.synced ≤ p) (hf : s.flushed ≤ p)
    (hr : visible (s.lsm k) p = some (.index r)) : r.fileNumber ∉ deleted s.log := by
  intro hdel
  obtain ⟨q, hq, hgone⟩ := hs.gone _ hdel
  exact hgone p (.inr hf) (hq.trans hw) k r hr rfl

theorem referenced_of_visible (hr : visible (s.lsm k) p = some (.index r)) : Referenced s r := by
  obtain ⟨n, hn⟩ := exists_of_visible hr
  exact ⟨k, n, hn⟩

theorem added_take_mono {log : List VersionEdit} {n : Nat} (hnm : n ≤ m) {f : UInt64}
    (hf : f ∈ added (log.take n)) : f ∈ added (log.take m) := by
  have htake : log.take n = (log.take m).take n := by rw [List.take_take, Nat.min_eq_left hnm]
  rw [htake] at hf
  exact added_take_subset _ _ f hf

/-- The recovered prefix of the manifest starts with its snapshot record. -/
theorem recovered_next (hs : Inv cf s) (hm : s.logSynced ≤ m) :
    ∃ e ∈ s.log.take m, e.nextFileNumber.isSome := by
  obtain ⟨e, rest, hlog, hsome⟩ := hs.manifest.started
  obtain ⟨n, rfl⟩ : ∃ n, m = n + 1 := ⟨m - 1, by have := hs.manifest.first; omega⟩
  exact ⟨e, by simp [hlog], hsome⟩

/-- The file of a version that a read finds is on disk with the version's record. -/
theorem visible_on_disk (hs : Inv cf s) (hw : s.synced ≤ p) (hf : s.flushed ≤ p)
    (hr : visible (s.lsm k) p = some (.index r)) :
    s.fileSynced r.fileNumber = true ∧ ∃ v, Holds s.present r k v := by
  have hadded := added_take_subset _ _ _ (hs.manifest.referenced r (referenced_of_visible hr))
  have hpurged : s.purged r.fileNumber = false := by
    by_contra hp
    cases ho : s.obsolete r.fileNumber with
    | none => exact hs.purged _ (by simpa using hp) ho
    | some o =>
      exact visible_not_deleted hs hw hf hr
        (deleted_take_subset _ _ _ (hs.manifest.obsolete _ o ho))
  obtain ⟨n, hn⟩ := exists_of_visible hr
  obtain ⟨v, recs, hrecs, hmem⟩ := hs.data.stored k n r hn
  exact ⟨(hs.manifest.inFiles _ hadded).2, v, recs,
    by simpa [State.present, hpurged] using hrecs, hmem⟩

/-- A step, or a sync of the manifest that fails: the record may be durable, its edit is not
applied, and the job gives its files back. -/
inductive FaultyStep (cf : UInt32) (s : State) : Bool → State → Prop
  | step {t : State} (h : SomeStep cf s t) : FaultyStep cf s false t
  | syncFails (j : Nat) (job : Job) (hj : s.jobs j = some job)
      (hp : (∃ after, job.phase = .finishing .logged after) ∨ ∃ q, job.phase = .deleting q) :
      FaultyStep cf s true (s.setJob j none)

abbrev SyncedStep (cf : UInt32) (s t : State) : Prop := FaultyStep cf s false t

theorem someStep_of_synced {t : State} (run : ReflTransGen (SyncedStep cf) s t) :
    ReflTransGen (SomeStep cf) s t := by
  refine ReflTransGen.mono ?_ _ _ run
  rintro s t ⟨h⟩
  exact h

theorem synced_of_other {t : State} (run : ReflTransGen (OtherStep cf) s t) :
    ReflTransGen (SyncedStep cf) s t :=
  ReflTransGen.mono (fun _ _ h => .step ⟨_, h⟩) _ _ run

/-- At every crash point, `Recover` succeeds on every prefix of the manifest that holds
the synced records, and every newest version in every prefix of the writes that holds
the synced and flushed ones refers to a recovered, synced file that has its record. -/
theorem recovered_indexes_resolve (run : ReflTransGen (SyncedStep cf) (init cf) s)
    (hw : s.synced ≤ p) (hf : s.flushed ≤ p) (hm : s.logSynced ≤ m) :
    ∃ st next, recover [cf] (s.log.take m) = .ok ([(cf, st)], next) ∧
      ∀ k r, visible (s.lsm k) p = some (.index r) →
        (st.files r.fileNumber).isSome ∧ s.fileSynced r.fileNumber = true ∧
          ∃ v, Holds s.present r k v := by
  have hs := inv_run (someStep_of_synced run)
  obtain ⟨st, next, hrecover, hlive⟩ :=
    recover_live (wellFormed_take hs.manifest.wellFormed m) (recovered_next hs hm)
  refine ⟨st, next, hrecover, fun k r hr => ⟨(hlive _).mpr ⟨?_, ?_⟩, visible_on_disk hs hw hf hr⟩⟩
  · exact added_take_mono hm (hs.manifest.referenced r (referenced_of_visible hr))
  · exact fun hdel => visible_not_deleted hs hw hf hr (deleted_take_subset _ _ _ hdel)

/-- A crash after a job has deleted file 2: the key is found in file 3. -/
theorem recovered_indexes_resolve_collected :
    ∃ st next, recover [0] ((collected [] none).log.take 5) = .ok ([(0, st)], next) ∧
      (st.files 3).isSome ∧ ∃ v, Holds (collected [] none).present (ptr 3) key v := by
  have run := synced_of_other (run_flushed.trans (run_collected [] none))
  have hall := recovered_indexes_resolve (p := 2) (m := 5) run (show 2 ≤ 2 from le_rfl)
    (show 1 ≤ 2 by decide) (show 5 ≤ 5 from le_rfl)
  obtain ⟨st, next, hrecover, hresolve⟩ := hall
  obtain ⟨hlive, -, hholds⟩ := hresolve key (ptr 3) rfl
  exact ⟨st, next, hrecover, hlive, hholds⟩

abbrev AnyStep (cf : UInt32) (s t : State) : Prop := ∃ failed, FaultyStep cf s failed t

theorem anyStep_of_other {t : State} (run : ReflTransGen (OtherStep cf) s t) :
    ReflTransGen (AnyStep cf) s t :=
  ReflTransGen.mono (fun _ _ h => ⟨_, .step ⟨_, h⟩⟩) _ _ run

/-- The job has logged the deletion of file 2, and the sync has failed. -/
def unsynced : State :=
  { collected [] none with logSynced := 4, obsolete := fun _ => none }

theorem run_unsynced : ReflTransGen (AnyStep 0) (init 0) unsynced := by
  have hcallback : callback ((copied false [] none).baseGet key) (ptr 2).plain = .ok () := rfl
  have hlogged := ((((run_flushed.trans (run_copied false [] none)).tail
    (.writeBack _ 1 _ _ [] [] rfl rfl hcallback)).tail
    (.markDropped _ 1 _ [] rfl rfl)).tail
    (.flushWal _ 1 _ rfl rfl)).tail
    (.logDelete _ 1 _ rfl rfl)
  have run := (anyStep_of_other hlogged).tail ⟨_, .syncFails 1 _ rfl (.inr ⟨2, rfl⟩)⟩
  simp only [State.setJob, State.append, update_idem] at run
  exact run

theorem writes_nothing (s : State) : Writes s (fun _ => none) [] s.nextFileNumber where
  fresh _ _ h := absurd h.symm (Option.some_ne_none _)
  numbers _ := by simp
  nodup := nodup_nil
  next := UInt64.le_refl _

/-- Another job picks the file again, finds nothing to copy, and deletes it once more. -/
theorem failed_sync_unrecoverable : ∃ s status, ReflTransGen (AnyStep 0) (init 0) s ∧
    s.logSynced = s.log.length ∧ recover [0] s.log = .error status := by
  have hpick : ∀ f ∈ [(2 : UInt64)], unsynced.Pickable f := by
    intro f hf
    obtain rfl := mem_singleton.mp hf
    refine ⟨by decide, rfl, fun j job hj => ?_⟩
    simp [unsynced, collected, copied] at hj
  have hscan : scanRecord false (unsynced.baseGet key) { bitmap := fun _ _ => false, todo := [] }
      ⟨key, ptr 2, value⟩ = .ok { bitmap := fun _ _ => false, todo := [], lastKey := key } := rfl
  have run := run_unsynced.trans (anyStep_of_other (((((((((((ReflTransGen.single (r := OtherStep 0)
    (.pick unsynced 1 [2] false rfl (nodup_singleton _) hpick)).tail
    (.buildIterator _ 1 _ [⟨key, ptr 2, value⟩] rfl rfl (.refl _))).tail
    (.scan _ 1 _ _ _ _ _ rfl rfl rfl hscan)).tail
    (.rewriteFiles _ 1 _ _ false _ [] _ [] rfl rfl rfl (writes_nothing _) .nil nodup_nil)).tail
    (.syncFiles _ 1 _ _ rfl rfl)).tail
    (.logFiles _ 1 _ _ [] rfl rfl rfl)).tail
    (.applyRewrite _ 1 _ _ rfl rfl)).tail
    (.markDropped _ 1 _ [] rfl rfl)).tail
    (.flushWal _ 1 _ rfl rfl)).tail
    (.logDelete _ 1 _ rfl rfl)).tail
    (.applyDelete _ 1 _ 2 rfl rfl)))
  exact ⟨_, _, run, rfl, rfl⟩

end TitanGC.Software.Crash
