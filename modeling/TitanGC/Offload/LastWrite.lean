import TitanGC.Lib.Runs
import TitanGC.Offload.GcSteps

/-!
# Reads return the last user write in careful runs

Every careful step keeps the invariant, and the invariant says what a read
returns. A write-back that is not careful can hide a newer value: the plain
write gives it a newer sequence number than the value that replaced its record.
-/

namespace TitanGC.Offload.LastWrite

open Relation (ReflTransGen)
open Function Lib.ByteCoding Lib.Runs Format.BlobFormat Compaction.Merge Storage.BlobFiles
open Reads Offload.System History Invariant LsmSteps GcSteps

section

variable {K : Type} {s t : State K}

/-- A file that is not obsolete has not been purged. -/
theorem holds_present (hs : Inv s) {p : BlobPtr} {k : K} {v : Bytes} (hp : Holds s.files p k v)
    (hlive : s.obsolete p.fileNumber = false) : Holds s.present p k v := by
  have hpurged : s.purged p.fileNumber = false := by
    rw [Bool.eq_false_iff]
    intro h
    rw [hs.purged _ h] at hlive
    cases hlive
  obtain ⟨recs, hrecs, hmem⟩ := hp
  exact ⟨recs, by simp [State.present, hpurged, hrecs], hmem⟩

theorem filesOk_present (hs : Inv s) : FilesOk s.present where
  records := by
    intro f recs h
    refine hs.filesOk.records f recs ?_
    unfold State.present at h
    split at h
    · cases h
    · exact h
  nonzero := by simp [State.present, hs.filesOk.nonzero]

theorem get_of_inv (hs : Inv s) (k : K) :
    s.get k = match s.lastPut k with
      | some v => .ok v
      | none => .error ⟨.notFound, ""⟩ := by
  have hr := hs.reads k
  unfold ReadsLast at hr
  rw [get_eq]
  cases hseen : seen s k with
  | none =>
    rw [hseen] at hr
    rw [hr]
  | some tgt =>
    rw [hseen] at hr
    cases tgt with
    | value v => rw [hr]
    | address p =>
      obtain ⟨v, hv, hhold, hlive⟩ := hr
      rw [hv]
      exact storageGet_of_holds (filesOk_present hs) (holds_present hs hhold hlive)

end

variable {K : Type} [DecidableEq K] {minBlobSize : Nat}

theorem inv_step {s t : State K} {a : Action K} (hs : Inv s) (h : Step minBlobSize s a t)
    (hc : Careful s a) : Inv t := by
  cases h with
  | put k v => exact inv_put hs k v
  | switchMem => exact inv_switchMem hs hc
  | flush keep new out hnew hout => exact inv_flush hs keep new out hnew hout hc
  | compact newer run older new out dropped hssts hnew hout hdropped =>
    exact inv_compact hs newer run older new out dropped hssts hnew hout hdropped hc
  | deliver before after dropped hn => exact inv_deliver hs before after dropped hn
  | startGc j inputs hj hpick => exact inv_startGc hs j inputs hpick
  | copyGc j inputs bitmap output recs hj hnew hcopy => exact inv_copyGc hs j hj hnew hcopy
  | writeBack j inputs output k b rest hj => exact inv_writeBack ⟨hj, rfl⟩ hs hc
  | finishGc j inputs output hj => exact inv_finishGc hs j inputs output hj
  | abortGc j => exact inv_abortGc hs j
  | purge f hf => exact inv_purge hs f hf

def SomeStep (minBlobSize : Nat) (s t : State K) : Prop := ∃ a, Step minBlobSize s a t

def CarefulStep (minBlobSize : Nat) (s t : State K) : Prop :=
  ∃ a, Step minBlobSize s a t ∧ Careful s a

/-- In every state that careful steps reach, every read without a snapshot returns
the value of the latest user `Put` of its key. -/
theorem get_eq_last_put {s : State K} (hrun : ReflTransGen (CarefulStep minBlobSize) init s)
    (k : K) :
    s.get k = match s.lastPut k with
      | some v => .ok v
      | none => .error ⟨.notFound, ""⟩ := by
  have hinv : Inv s := by
    refine run_invariant Inv ?_ hrun inv_init
    rintro t u ht ⟨a, hstep, hcare⟩
    exact inv_step ht hstep hcare
  exact get_of_inv hinv k

/-- On the same runs, nothing that is referenced or waits to be written back has its bit set, and
a job still has in hand every record of its inputs that a read reaches: the hardware drops
nothing that is needed. -/
theorem bitmap_keeps_reached {s : State K} (hrun : ReflTransGen (CarefulStep minBlobSize) init s) :
    (∀ f i, s.bits f i = true → (∀ k, ∀ p ∈ ptrs (s.history k), slot p ≠ (f, i)) ∧
        ∀ j job, s.jobs j = some job → ∀ kb ∈ pendingOf job.phase, slot kb.2.ptr ≠ (f, i)) ∧
      ∀ j job, s.jobs j = some job → ∀ k p, seen s k = some (.address p) →
        p.fileNumber ∈ job.inputs → Covered k p job.phase := by
  have hs : Inv s := by
    refine run_invariant Inv ?_ hrun inv_init
    rintro t u ht ⟨a, hstep, hcare⟩
    exact inv_step ht hstep hcare
  refine ⟨fun f i hbit => ?_, fun j job hj => (hs.jobs j job hj).covers⟩
  have hdead := hs.marked (f, i) (.inl hbit)
  exact ⟨hdead.unreferenced, hdead.notPending⟩

/-! ## One job on one key -/

def oneRecord (f : UInt64) : Files Nat := single f [⟨⟨12, 14, 0⟩, 0, [1, 1]⟩]

def flushedEntry (k : Nat) : Option Entry :=
  if k = 0 then some (.blobIndex (BlobPtr.plain ⟨1, ⟨12, 14, 0⟩⟩)) else none

def flushed : State Nat :=
  { (init : State Nat) with
      ssts := fun k => (flushedEntry k).toList ++ []
      files := add (fun _ => none) (oneRecord 1)
      lastPut := update (fun _ => none) 0 (some [1, 1]) }

def moved : BlobIndex := ⟨2, ⟨12, 14, 0⟩, 1, ⟨12, 14, 0⟩⟩

def copied : State Nat :=
  { flushed with
      files := add flushed.files (oneRecord 2)
      jobs := update (update (fun _ => none) 0 (some ⟨[1], .copying fun _ _ => false⟩)) 0
        (some ⟨[1], .writing 2 [(0, moved)]⟩) }

theorem fresh_oneRecord {fs : Files Nat} {f : UInt64} (h : fs f = none) (h0 : f ≠ 0) :
    Fresh fs (oneRecord f) := by
  intro g recs hg
  simp only [oneRecord, single, Option.ite_none_right_eq_some, Option.some.injEq] at hg
  obtain ⟨rfl, rfl⟩ := hg
  exact ⟨h, h0, by simp, by simp⟩

theorem builds_flushed (k : Nat) :
    Builds 1 (oneRecord 1) k (mergeEntries (update (fun _ => []) 0 [.value [1, 1]] k))
      (flushedEntry k) := by
  by_cases hk : k = 0
  · subst hk
    exact .separated [1, 1] ⟨1, ⟨12, 14, 0⟩⟩ (by decide) ⟨_, rfl, List.mem_cons_self⟩
  · simp only [flushedEntry, hk, ne_eq, not_false_eq_true, update_of_ne, ↓reduceIte]
    exact .empty

theorem run_flushed : ReflTransGen (CarefulStep 1) init flushed := by
  let written : State Nat := { (init : State Nat) with
    mem := update (fun _ => []) 0 [.value [1, 1]]
    lastPut := update (fun _ => none) 0 (some [1, 1]) }
  have hput : CarefulStep 1 init written := ⟨_, .put _ 0 [1, 1], trivial⟩
  have hswitch : CarefulStep 1 written { written with mem := fun _ => [], imm := [written.mem] } := by
    refine ⟨_, .switchMem _, fun k b v rest h => ?_⟩
    by_cases hk : k = 0
    · subst hk
      simp [written] at h
    · simp [written, hk] at h
  have hflush : CarefulStep 1 { written with mem := fun _ => [], imm := [written.mem] } flushed := by
    refine ⟨_, .flush _ 0 (oneRecord 1) flushedEntry (fresh_oneRecord rfl (by decide)) ?_, ?_⟩
    · intro k
      simpa [flushRun, written] using builds_flushed k
    · intro k _
      by_cases hk : k = 0
      · subst hk
        exact .inl ⟨[1, 1], [], rfl⟩
      · exact .inr (by simp [flushRun, written, hk])
  exact ((ReflTransGen.single hput).tail hswitch).tail hflush

theorem run_copied : ReflTransGen (CarefulStep 1) init copied := by
  let started : State Nat := { flushed with
    jobs := update (fun _ => none) 0 (some ⟨[1], .copying fun _ _ => false⟩) }
  have hstart : CarefulStep 1 flushed started := by
    refine ⟨_, .startGc _ 0 [1] rfl ?_, trivial⟩
    intro f hf
    obtain rfl := List.mem_singleton.mp hf
    exact ⟨by decide, rfl, by simp [flushed, init]⟩
  have hcopy : CarefulStep 1 started copied :=
    ⟨_, .copyGc started 0 [1] (fun _ _ => false) 2 _ rfl (fresh_oneRecord rfl (by decide)) rfl, trivial⟩
  exact (run_flushed.tail hstart).tail hcopy

/-- A write-back over the flushed record is careful, and reads follow it to file 2. -/
theorem get_eq_last_put_moved :
    ∃ s : State Nat, ReflTransGen (CarefulStep 1) init s ∧ s.mem 0 = [.blobIndex moved] ∧
      s.get 0 = .ok [1, 1] := by
  let t : State Nat := { copied with
    mem := update (fun _ => []) 0 [.blobIndex moved]
    jobs := update copied.jobs 0 (some ⟨[1], .writing 2 []⟩) }
  have hstep : CarefulStep 1 copied t :=
    ⟨_, .writeBack copied 0 [1] 2 0 moved [] rfl, .inr ⟨⟨1, ⟨12, 14, 0⟩⟩, rfl, rfl⟩⟩
  exact ⟨t, run_copied.tail hstep, rfl, get_eq_last_put (run_copied.tail hstep) 0⟩

theorem bitmap_keeps_reached_copied : Covered 0 ⟨1, ⟨12, 14, 0⟩⟩ (.writing 2 [(0, moved)]) :=
  (bitmap_keeps_reached run_copied).2 0 _ rfl 0 _ rfl (List.mem_singleton.mpr rfl)

/-- Key 0 is written again while its record is copied, and the memtable is switched
before the write-back: the read then finds the copy of the old value. -/
theorem get_loses_put :
    ∃ s : State Nat, ReflTransGen (SomeStep 1) init s ∧ s.lastPut 0 = some [2, 2] ∧
      s.get 0 = .ok [1, 1] := by
  have hcopied : ReflTransGen (SomeStep 1) init copied :=
    ReflTransGen.mono (fun _ _ ⟨a, h, _⟩ => ⟨a, h⟩) _ _ run_copied
  let again : State Nat := { copied with
    mem := update (fun _ => []) 0 [.value [2, 2]]
    lastPut := update copied.lastPut 0 (some [2, 2]) }
  let switched : State Nat := { again with mem := fun _ => [], imm := [again.mem] }
  let back : State Nat := { switched with
    mem := update (fun _ => []) 0 [.blobIndex moved]
    jobs := update copied.jobs 0 (some ⟨[1], .writing 2 []⟩) }
  have hput : SomeStep 1 copied again := ⟨_, .put _ 0 [2, 2]⟩
  have hswitch : SomeStep 1 again switched := ⟨_, .switchMem _⟩
  have hback : SomeStep 1 switched back := ⟨_, .writeBack switched 0 [1] 2 0 moved [] rfl⟩
  exact ⟨back, ((hcopied.tail hput).tail hswitch).tail hback, rfl, rfl⟩

end TitanGC.Offload.LastWrite
