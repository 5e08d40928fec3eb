import TitanGC.Software.TipReads

/-!
# Soundness of the bitmaps

A bit that is set belongs to a record that no version refers to. It is set for the
records that a compaction dropped, in whatever order the notifications arrive, and
for copies that were overwritten before they were written back.
-/

namespace TitanGC.Software.Bitmaps

open Relation Format.BlobFormat Storage.BlobFiles Manifest.Replay GcJob Software.System TipReads

variable {cf : UInt32} {s : State}

/-- In every reachable state, no version refers to a record whose bit is set; and a
scan that goes by the bitmap has every record of its inputs that some version refers
to queued or ahead of it. -/
theorem set_bit_unreferenced (run : ReflTransGen (SomeStep cf) (init cf) s) :
    (∀ f i, s.bits f i = true → ∀ k n p, s.lsm k n = some (.index p) → slotOf p ≠ (f, i)) ∧
      ∀ j job sc, s.jobs j = some job → job.useBitmap = true → job.phase = .scanning sc →
        ∀ k n p, s.lsm k n = some (.index p) → p.fileNumber ∈ job.inputs →
          ∃ r, (r ∈ sc.todo ∨ r ∈ sc.queue) ∧ r.ptr = p := by
  have hs := inv_run run
  refine ⟨fun f i hb k n p hp => ?_, fun j job sc hj hu hph k n p hp hin => ?_⟩
  · exact (hs.marked (f, i) (.inl hb)).unreferenced p ⟨k, n, hp⟩
  · exact ((hs.jobs j job hj).scanning sc hph).referenced hu p hin ⟨k, n, hp⟩

/-- The key is overwritten while a job holds a copy of it, so the bit of the copy is
set. -/
theorem set_bit_unreferenced_copy :
    ∃ s, ReflTransGen (SomeStep 0) (init 0) s ∧ s.bits 3 0 = true ∧
      ∀ k n p, s.lsm k n = some (.index p) → slotOf p ≠ (3, 0) := by
  have run := ((run_flushed.trans (run_copied true [] none)).tail (.put _ key [2, 2])).tail
    (.overwritten _ 1 _ _ [] [] "key overwritten with other value" rfl rfl rfl)
  have hmarked := someStep_of_other (run.tail (.markDropped _ 1 _ [(3, 0)] rfl rfl))
  exact ⟨_, hmarked, rfl, (set_bit_unreferenced hmarked).1 3 0 rfl⟩

/-- One bit for each record is enough: the index of every version is of a record of its key in
a synced file that the synced manifest adds, and no other version refers to it. -/
theorem index_stored_once (run : ReflTransGen (SomeStep cf) (init cf) s) {k : Key} {n : Nat} {p : BlobPtr}
    (hp : s.lsm k n = some (.index p)) :
    (∃ v, Holds s.files p k v) ∧ s.fileSynced p.fileNumber = true ∧
      p.fileNumber ∈ added (s.log.take s.logSynced) ∧
      ∀ k' n', s.lsm k' n' = some (.index p) → k' = k ∧ n' = n := by
  have hs := inv_run run
  have hadded := hs.manifest.referenced p ⟨k, n, hp⟩
  have hsynced := (hs.manifest.inFiles _ (added_take_subset _ _ _ hadded)).2
  exact ⟨hs.data.stored k n p hp, hsynced, hadded, fun k' n' hp' => hs.data.unique k' n' k n p hp' hp⟩

theorem index_stored_once_collected : ∃ v, Holds (collected [] none).files (ptr 3) key v :=
  (index_stored_once (someStep_of_other (run_flushed.trans (run_collected [] none))) (n := 2) rfl).1

end TitanGC.Software.Bitmaps
