import TitanGC.Accounting.GcPreservation
import TitanGC.Accounting.LiveData

/-!
# Live data sizes with garbage collection

While no job runs and no notification is to come, the size of a file is what the
tables and memtables reference of it, plus what was lost on the way. So it is what the
newest entries reference exactly if nothing was lost and no index of the file is
overwritten in a memtable. Each way to lose a reference makes a wrong size.
-/

namespace TitanGC.Accounting.GcLiveData

open Lib.Runs List Format.BlobFormat SizeCollector Tracking Listener
open Balance GcHistory GcPreservation
open History (refs)
open LiveData (indexed inline table allReferenced referenced_le refs_le)

/-! ## Overwritten entries -/

theorem newest_subset (mem : List Entry) : newest mem ⊆ mem := by
  induction mem with
  | nil => exact List.Subset.refl []
  | cons e mem ih =>
    rw [newest]
    exact cons_subset_cons e (List.Subset.trans (filter_subset_self _) ih)

theorem overwritten_subset (mem : List Entry) : overwritten mem ⊆ mem := by
  induction mem with
  | nil => exact List.Subset.refl []
  | cons e mem ih =>
    rw [overwritten]
    refine append_subset.mpr ⟨?_, subset_cons_of_subset e ih⟩
    exact subset_cons_of_subset e (List.Subset.trans (filter_subset_self _) (newest_subset mem))

theorem referenced_newest (mem : List Entry) (file : UInt64) :
    referenced mem file = referenced (newest mem) file + referenced (overwritten mem) file := by
  induction mem with
  | nil => rfl
  | cons e mem ih =>
    have hsplit := referenced_perm (filter_append_perm (·.key = e.key) (newest mem)) file
    rw [referenced_append] at hsplit
    rw [newest, overwritten, referenced_cons, referenced_cons e (List.filter _ _), referenced_append, ih,
      ← hsplit]
    simp only [ne_eq, decide_not]
    omega

/-! ## Whole runs -/

theorem inv_opened {s : State} (h : Opened s) : Inv (fun _ _ => 0) s := by
  have hbase := LiveData.inv_opened h.base
  constructor
  · intro cf
    obtain ⟨hmem, hfinished, hundelivered, hjobs⟩ := h.quiet cf
    have hnone : ∀ file, ¬ Relocated (s.family cf) file := by
      intro file hr
      rcases hr with ⟨size, hm⟩ | ⟨p, hp, -⟩ | ⟨j, hj, -⟩
      · rw [hmem] at hm
        cases hm
      · rw [hundelivered] at hp
        cases hp
      · rw [hjobs] at hj
        cases hj
    refine ⟨(hbase.lsm cf).sane, (hbase.lsm cf).small, ?_, ?_, ?_, fun file f hf _ => ?_,
      fun file hfile => ?_,
      ?_, ?_, fun file f hr => absurd hr (hnone file), hbase.stored cf⟩
    · rw [hmem]
      exact forall_mem_nil _
    · rw [hundelivered]
      exact forall_mem_nil _
    · rw [hjobs]
      exact forall_mem_nil _
    · have hbalanced := hbase.balanced cf file f hf
      rw [settle_of_balanced hbalanced, total, owed, deltas, hmem, hundelivered, hjobs]
      exact hbalanced
    · rw [hfinished] at hfile
      have hu := (hbase.untouched cf file (.inl (hfile.resolve_right not_mem_nil))).1
      refine ⟨⟨hu.tables, fun hm => hnone file (.inl hm), ?_, fun j hj hmem =>
        hnone file (.inr (.inr ⟨j, hj, hmem⟩))⟩, rfl⟩
      rw [hundelivered]
      exact forall_mem_nil _
    · rw [hfinished]
      exact fun file f hfile => absurd hfile not_mem_nil
    · rw [hfinished]
      exact forall_mem_nil _
  · exact hbase.distinct

/-- What was lost along a run is all that stands between the sizes and the references. -/
theorem inv_history (options : UInt32 → CFOptions) {s₀ : State} (hopened : Opened s₀) {ops : List Op}
    (hrun : Along (exec options) Allowed s₀ ops) :
    Inv (fun cf file => sumAlong (exec options) (fun s op => lost s cf file op) s₀ ops)
      (ops.foldl (exec options) s₀) := by
  have hinv := foldl_invariant_sum Inv (fun s op cf file => lost s cf file op)
    (fun slack s op h hallowed => inv_exec options h hallowed) (inv_opened hopened) hrun
  have hslack : ((fun _ _ => 0 : UInt32 → UInt64 → ℕ) +
      sumAlong (exec options) (fun s op cf file => lost s cf file op) s₀ ops) =
      fun cf file => sumAlong (exec options) (fun s op => lost s cf file op) s₀ ops := by
    funext cf file
    rw [Pi.add_apply, Pi.add_apply, zero_add, sumAlong_apply, sumAlong_apply]
  rwa [hslack] at hinv

def Idle (l : Family) : Prop := l.undelivered = [] ∧ l.jobs = []

/-- The size of a file is what the newest entries reference, exactly if no index of the
file is overwritten in a memtable and no reference to it was lost. -/
theorem live_data_eq_held_iff (options : UInt32 → CFOptions) {s₀ : State} (hopened : Opened s₀)
    {ops : List Op}
    (hrun : Along (exec options) Allowed s₀ ops) {cf : UInt32}
    (hidle : Idle ((ops.foldl (exec options) s₀).family cf)) {file : UInt64} {f : TrackedFile}
    (hf : ((ops.foldl (exec options) s₀).blobs.storage cf).files file = some f)
      (hlive : f.state ≠ .obsolete) :
    f.liveDataSize.toNat = held ((ops.foldl (exec options) s₀).family cf) file ↔
      ¬ Mentions (overwritten ((ops.foldl (exec options) s₀).family cf).mem) file ∧
        Along (exec options) (fun s op => lost s cf file op = 0) s₀ ops := by
  have hok := (inv_history options hopened hrun).ok cf
  have hbalance := (hok.balanced file f hf hlive).balance
  rw [← sumAlong_eq_zero]
  generalize sumAlong (exec options) (fun s op => lost s cf file op) s₀ ops = slack at hbalance ⊢
  have hpositive := hok.positive
  generalize (ops.foldl (exec options) s₀).family cf = l at *
  have howed : owed l file = 0 := by
    rw [owed, hidle.2]
    rfl
  have hdeltas : deltas l file = [] := by
    rw [deltas, hidle.1]
    rfl
  have hover : ¬ Mentions (overwritten l.mem) file ↔ referenced (overwritten l.mem) file = 0 := by
    refine ⟨referenced_eq_zero, fun hzero hm => ?_⟩
    have hpos := referenced_pos (positive_of_subset hpositive (overwritten_subset l.mem)) hm
    omega
  rw [hdeltas, howed, total, referenced_newest, value, settle_live] at hbalance
  rw [hover, held]
  simp only [sum_nil, add_zero, Nat.cast_add, Nat.cast_zero] at hbalance
  -- the counter of a file that waits is a debt, and here there is none
  split at hbalance
  · omega
  · omega

/-! ## A key that is relocated -/

def empty : State := { blobs := { ids := [0], storage := fun _ => {} } }

theorem empty_opened : Opened empty where
  base := LiveData.empty_opened
  quiet _ := ⟨rfl, rfl, rfl, rfl⟩

def plain (_ : UInt32) : CFOptions := {}

def index (file : UInt64) : BlobIndex := { fileNumber := file, blobHandle := { size := 10 } }

def relocation : Rewrite := { key := [1], blobIndex := index 3, newBlobIndex := some (index 4) }

/-- The conditions on a flush, checked for the files that its table mentions. -/
theorem flush_allowed {s : State} {cf : UInt32} {newer : Nat} {t : Table} {created : List UInt64}
    (h : cf ∈ s.blobs.ids ∧ History.Sane t ∧ created.all (· ∈ (s.family cf).finished) ∧
      (((s.family cf).tables ++ [t]).map (allReferenced ·.entries)).sum < 2 ^ 63)
    (hflush : FlushOf created ((s.family cf).mem.drop newer) t) : Allowed s (.flush cf newer t created) := by
  obtain ⟨hcf, hsane, hcreated, hsum⟩ := h
  simp only [all_eq_true, decide_eq_true_eq] at hcreated
  exact ⟨hcf, hsane, hcreated, hflush, fun file => (refs_le _ file).trans_lt hsum⟩

def flushed : List Op :=
  [.finish 0 [{ fileNumber := 3 }] .ok, .write 0 (inline 1), .flush 0 0 (table 10 0 1 1 [indexed 1]) [3],
   .deliver 0 0 0 .ok]

def copied : List Op := [.pick 0 [3], .install 0 0 [{ fileNumber := 4 }] [relocation] .ok]

def completed : List Op :=
  flushed ++ copied ++ [.writeBack 0 0 (.ok ((index 3).encodeTo, true)), .subtract 0 0, .finishJob 0 0 7 .ok]

theorem inline_writes : Writes [3] (inline 1) (indexed 1) := by
  refine .inr ⟨rfl, fun r hr => ?_⟩
  cases hr
  exact mem_singleton.mpr rfl

theorem relocation_allowed {s : State} (hused : 4 ∉ s.used) {i : Nat}
    (hrunning : ∀ j, (s.family 0).jobs[i]? = some j → j.phase = .running) :
    Allowed s (.install 0 i [{ fileNumber := 4 }] [relocation] .ok) := by
  refine ⟨nodup_singleton _, fun f hf => ?_, hrunning, fun r hr => ?_, fun file => ?_⟩
  · rw [mem_singleton.mp hf]
    exact hused
  · rw [mem_singleton.mp hr]
    decide
  · exact (referenced_le _ file).trans_lt (by decide)

theorem flushed_allowed : Along (exec plain) Allowed empty flushed :=
  ⟨⟨by decide, by decide, by decide⟩, EntryType.noConfusion, flush_allowed (by decide)
    ⟨[inline 1], [indexed 1], .refl _, .cons inline_writes .nil, .refl _⟩, mem_singleton.mpr rfl, trivial⟩

theorem pick_allowed : Allowed (flushed.foldl (exec plain) empty) (.pick 0 [3]) := by
  intro n hn
  rw [mem_singleton.mp hn]
  exact ⟨_, rfl, rfl⟩

theorem copied_allowed : Along (exec plain) Allowed (flushed.foldl (exec plain) empty) copied := by
  refine ⟨pick_allowed, relocation_allowed (by decide) fun j hj => ?_, trivial⟩
  cases hj
  rfl

theorem completed_allowed : Along (exec plain) Allowed empty completed :=
  (flushed_allowed.append copied_allowed).append ⟨trivial, trivial, trivial, trivial⟩

theorem live_data_eq_held_iff_completed :
    Idle ((completed.foldl (exec plain) empty).family 0) ∧
      ∃ f, ((completed.foldl (exec plain) empty).blobs.storage 0).files 4 = some f ∧ f.liveDataSize = 10 ∧
        f.liveDataSize.toNat = held ((completed.foldl (exec plain) empty).family 0) 4 :=
  ⟨⟨rfl, rfl⟩, _, rfl, rfl, (live_data_eq_held_iff plain empty_opened completed_allowed ⟨rfl, rfl⟩ rfl
    FileState.noConfusion).mpr ⟨by decide, rfl, rfl, rfl, rfl, rfl, rfl, rfl, rfl, rfl, trivial⟩⟩

/-! ## References that are lost -/

/-- At the end of the run the file has another size than what is referenced. -/
def Miscounts (ops : List Op) (file : UInt64) : Prop :=
  Along (exec plain) Allowed empty ops ∧ Idle ((ops.foldl (exec plain) empty).family 0) ∧
    ∃ f, ((ops.foldl (exec plain) empty).blobs.storage 0).files file = some f ∧ f.state = .normal ∧
      f.liveDataSize.toNat ≠ held ((ops.foldl (exec plain) empty).family 0) file

/-- A user overwrites the key while its new index is in the memtable. -/
def overwrites : List Op := completed ++ [.write 0 (inline 1)]

def drops : List Op :=
  overwrites ++ [.flush 0 0 (table 11 0 1 1 [inline 1]) [], .deliver 0 0 0 .ok]

/-- A compaction drops the key while a job has its file; the job fails. -/
def ignores : List Op :=
  flushed ++ [.pick 0 [3], .compact 0 [table 10 0 1 1 [indexed 1]] [] 1 [], .deliver 0 0 0 .ok, .failJob 0 0]

def abandons : List Op := flushed ++ copied ++ [.failJob 0 0]

theorem overwrites_allowed : Along (exec plain) Allowed empty overwrites :=
  completed_allowed.append ⟨EntryType.noConfusion, trivial⟩

theorem drops_allowed : Along (exec plain) Allowed empty drops :=
  overwrites_allowed.append ⟨flush_allowed (by decide) ⟨[inline 1], [inline 1],
    .cons_cons _ (nil_sublist _), .cons (.inl rfl) .nil, .refl _⟩, mem_singleton.mpr rfl, trivial⟩

theorem ignores_allowed : Along (exec plain) Allowed empty ignores := by
  have hnamed : History.Named ([table 10 0 1 1 [indexed 1]] ++ []) := by
    intro a ha b hb _
    rw [mem_singleton.mp ha, mem_singleton.mp hb]
  refine flushed_allowed.append ⟨pick_allowed, ⟨by decide, forall_mem_nil _, by decide,
    hnamed, forall_mem_nil _, fun file _ => Nat.zero_le _⟩,
    mem_singleton.mpr rfl, fun j dropped hj => ?_, trivial⟩
  cases hj
  exact Phase.noConfusion

theorem abandons_allowed : Along (exec plain) Allowed empty abandons := by
  refine (flushed_allowed.append copied_allowed).append ⟨fun j dropped hj hphase => ?_, trivial⟩
  cases hj
  cases hphase

theorem gc_loses_live_data :
    Miscounts overwrites 4 ∧ Miscounts drops 4 ∧ Miscounts ignores 3 ∧ Miscounts abandons 4 :=
  ⟨⟨overwrites_allowed, ⟨rfl, rfl⟩, _, rfl, rfl, by decide⟩,
    ⟨drops_allowed, ⟨rfl, rfl⟩, _, rfl, rfl, by decide⟩,
    ⟨ignores_allowed, ⟨rfl, rfl⟩, _, rfl, rfl, by decide⟩,
      ⟨abandons_allowed, ⟨rfl, rfl⟩, _, rfl, rfl, by decide⟩⟩

end TitanGC.Accounting.GcLiveData
