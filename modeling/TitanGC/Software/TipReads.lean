import TitanGC.Lib.Runs
import TitanGC.Software.InstallSteps
import TitanGC.Software.RewriteSteps
import TitanGC.Software.DeleteSteps

/-!
# Software garbage collection is invisible to readers

Every step keeps the invariant, so it holds in every reachable state. A read
without a snapshot then returns the latest user write, and an obsolete file holds
no newest version of any key.
-/

namespace TitanGC.Software.TipReads

open Relation List Function Lib.ByteCoding Lib.MultiVersion Lib.Runs Format.Coding Format.BlobFormat
open Storage.BlobFiles Manifest.Replay
open Offload.Reads (titanGet)
open GcJob Software.System Invariant UserSteps FileSteps InstallSteps
open ScanSteps RewriteSteps DeleteSteps
open Function (update)

variable {cf : UInt32} {s t : State}

def SomeStep (cf : UInt32) (s t : State) : Prop := ∃ a, Step cf s a t

theorem inv_init (cf : UInt32) : Inv cf (init cf) where
  data := by
    refine ⟨⟨?_, ?_⟩, ?_, ?_, ?_⟩ <;> simp [init, BoundedBy]
  reads := by
    intro k
    have htip : tip (init cf).lsm (init cf).seq k = none := rfl
    unfold ReadsLast
    rw [htip]
    rfl
  bounds := by constructor <;> simp [init]
  manifest :=
    { wellFormed := by
        refine ⟨by simp [init], by simp [init, added], by simp [init, deleted], ?_, by simp [init]⟩
        intro m f hf
        have := deleted_take_subset _ _ f hf
        simp [init] at this
      started := ⟨_, _, rfl, rfl⟩
      first := by simp [init]
      length := by simp [init]
      inFiles := by simp [init]
      next := by simp [init]
      unlogged := by simp [init]
      referenced := by simp [init, Referenced]
      deleting := by simp [init]
      obsolete := by simp [init]
      outputs := by simp [init] }
  gone := by simp [init]
  obsolete := by simp [init]
  purged := by simp [init]
  marked := by simp [init, Marked]
  jobs := by simp [init]
  separated := by constructor <;> simp [init]

theorem inv_step {a : Action} (hs : Inv cf s) (h : Step cf s a t) : Inv cf t := by
  cases h with
  | put k v => exact inv_write hs k (.value v) (some v) (.inl ⟨v, rfl, rfl⟩)
  | delete k => exact inv_write hs k .deletion none (.inr ⟨rfl, rfl⟩)
  | syncWal => exact inv_syncWal hs
  | getSnapshot => exact inv_getSnapshot hs
  | releaseSnapshot i => exact inv_releaseSnapshot hs i
  | build j new outputs next hj hw => exact inv_build hs hj hw
  | syncFiles j job after hj hp => exact inv_syncFiles hs hj hp
  | logFiles j job after metas hj hp hm => exact inv_logFiles hs hj hp hm
  | applyBuild j job hj hp => exact inv_applied hs hj hp (.inl ⟨rfl, rfl⟩)
  | flush j job flushed lsm hj hp hf hseq hi => exact inv_flush flushed hs hj hp hf hseq hi
  | compact j job region lsm info hj hp hr hi hin hout => exact inv_compact hs hj hp hr hi hin hout
  | deliver before after info hn => exact inv_deliver hs hn
  | pick j inputs useBitmap hj hn hp => exact inv_pick hs hj hn hp
  | buildIterator j job todo hj hp ht => exact inv_buildIterator hs hj hp ht
  | scan j job sc sc' r rest hj hp ht hscan => exact inv_scan hs hj hp ht hscan
  | rewriteFiles j job sc fallback new outputs next pending hj hp ht hw hc hn =>
    exact inv_rewriteFiles hs hj hp ht hw hc hn
  | applyRewrite j job pending hj hp => exact inv_applied hs hj hp (.inr ⟨pending, rfl, rfl⟩)
  | writeBack j job e rest dropped hj hp hc => exact inv_writeBack hs hj hp hc
  | overwritten j job e rest dropped msg hj hp hc => exact inv_overwritten hs hj hp hc
  | markDropped j job dropped hj hp => exact inv_markDropped hs hj hp
  | flushWal j job hj hp => exact inv_flushWal hs hj hp
  | logDelete j job hj hp => exact inv_logDelete hs hj hp
  | applyDelete j job q hj hp => exact inv_applyDelete hs hj hp
  | abort j job hj hl hd => exact inv_abort hs hj hd
  | purgeRead hp => exact inv_purgeRead hs
  | purgeRemove oldest hp => exact inv_purgeRemove hs oldest

theorem inv_run (run : ReflTransGen (SomeStep cf) (init cf) s) : Inv cf s :=
  run_invariant (Inv cf) (fun _ _ hs ⟨_, h⟩ => inv_step hs h) run (inv_init cf)

/-! ## Reads -/

/-- No newest version is in an obsolete file. -/
theorem tip_not_obsolete (hs : Inv cf s) {k : Key} {p : BlobPtr}
    (htip : tip s.lsm s.seq k = some (.index p)) : s.obsolete p.fileNumber = none := by
  cases ho : s.obsolete p.fileNumber with
  | none => rfl
  | some o =>
    obtain ⟨hle, hgone⟩ := hs.obsolete _ o ho
    exact absurd rfl (hgone s.seq (.inr hs.bounds.flushed) hle k p htip)

/-- A purge removes only obsolete files, so the record of a newest version is there. -/
theorem present_holds (hs : Inv cf s) {k : Key} {p : BlobPtr} {v : Bytes}
    (htip : tip s.lsm s.seq k = some (.index p)) (hv : Holds s.files p k v) :
    Holds s.present p k v := by
  obtain ⟨recs, hrecs, hmem⟩ := hv
  have hpurged : s.purged p.fileNumber = false := by
    by_contra hp
    exact hs.purged _ (by simpa using hp) (tip_not_obsolete hs htip)
  exact ⟨recs, by simpa [State.present, hpurged] using hrecs, hmem⟩

theorem filesOk_present (hs : Inv cf s) : FilesOk s.present where
  records := by
    intro f recs h
    unfold State.present at h
    split at h
    · cases h
    · exact hs.data.filesOk.records f recs h
  nonzero := by
    unfold State.present
    split
    · rfl
    · exact hs.data.filesOk.nonzero

def lastResult (s : State) (k : Key) : Except Status Bytes :=
  match s.lastWrite k with
  | some v => .ok v
  | none => .error ⟨.notFound, ""⟩

theorem get_eq_lastResult (hs : Inv cf s) (k : Key) : s.get k = lastResult s k := by
  have hr := hs.reads k
  unfold ReadsLast at hr
  unfold State.get State.baseGet lastResult
  cases htip : tip s.lsm s.seq k with
  | none =>
    rw [htip] at hr
    rw [hr]
    rfl
  | some slot =>
    rw [htip] at hr
    cases slot with
    | value v =>
      rw [hr]
      rfl
    | deletion =>
      rw [hr]
      rfl
    | index p =>
      obtain ⟨v, hv, hh⟩ := hr
      rw [hv]
      simp only [baseResult, titanGet, BlobIndex.decodeFrom_encodeTo]
      exact storageGet_of_holds (filesOk_present hs) (present_holds hs htip hh)

/-- In every reachable state, reads return the latest user writes, and no newest
version refers to a file that a job has made obsolete. -/
theorem get_eq_last_write (run : ReflTransGen (SomeStep cf) (init cf) s) :
    (∀ k, s.get k = lastResult s k) ∧
      ∀ f, s.obsolete f ≠ none → ∀ k p, tip s.lsm s.seq k = some (.index p) → p.fileNumber ≠ f := by
  have hs := inv_run run
  refine ⟨get_eq_lastResult hs, ?_⟩
  rintro f hf k p htip rfl
  exact hf (tip_not_obsolete hs htip)

/-! ## A run -/

def OtherStep (cf : UInt32) (s t : State) : Prop := Step cf s .other t

theorem someStep_of_other (run : ReflTransGen (OtherStep cf) s t) : ReflTransGen (SomeStep cf) s t :=
  ReflTransGen.mono (fun _ _ h => ⟨.other, h⟩) _ _ run

def key : Key := [7]

def value : Bytes := [1, 1]

/-- The record of the key in a file that has no other. -/
def ptr (f : UInt64) : BlobPtr := ⟨f, ⟨12, 14, 0⟩⟩

def oneRecord (f : UInt64) : Files Key := single f [⟨(ptr f).blobHandle, key, value⟩]

theorem holds_oneRecord (f : UInt64) : Holds (oneRecord f) (ptr f) key value :=
  ⟨_, by simp [oneRecord, single, ptr], mem_singleton.mpr rfl⟩

theorem writes_oneRecord {s : State} {f next : UInt64} (hf : s.files f = none) (h0 : f ≠ 0)
    (hn : s.nextFileNumber ≤ next) : Writes s (oneRecord f) [f] next where
  fresh := by
    intro g recs hg
    simp only [oneRecord, single, Option.ite_none_right_eq_some, Option.some.injEq] at hg
    obtain ⟨rfl, rfl⟩ := hg
    exact ⟨hf, h0, by simp, by simp⟩
  numbers := by simp [oneRecord, single]
  nodup := nodup_singleton f
  next := hn

/-- The key is written, and its value separated to file 2, which is applied. -/
def built : State :=
  { init 0 with
      lsm := update (init 0).lsm key (write ((init 0).lsm key) 0 (.value value))
      seq := 1
      files := add (init 0).files (oneRecord 2)
      fileSynced := fun f => false || decide (f ∈ [(2 : UInt64)])
      log := (init 0).log ++
        [{ nextFileNumber := some 3, columnFamilyId := 0, addedFiles := [{ fileNumber := 2 }] }]
      logSynced := 3
      nextFileNumber := 3
      jobs := update (init 0).jobs 0 (some { outputs := [2], phase := .built })
      lastWrite := update (init 0).lastWrite key (some value) }

theorem run_built : ReflTransGen (OtherStep 0) (init 0) built := by
  have run := ((((ReflTransGen.single (r := OtherStep 0) (.put (init 0) key value)).tail
    (.build _ 0 (oneRecord 2) [2] 3 rfl (writes_oneRecord rfl (by decide) (by decide)))).tail
    (.syncFiles _ 0 _ _ rfl rfl)).tail
    (.logFiles _ 0 _ _ [{ fileNumber := 2 }] rfl rfl rfl)).tail
    (.applyBuild _ 0 _ rfl rfl)
  simp only [State.setJob, update_idem] at run
  exact run

def flushedLsm : Lsm := fun k n => if k = key ∧ n = 1 then some (.index (ptr 2)) else none

def flushed (snapshots : List Nat) (purging : Option Nat) : State :=
  { built with lsm := flushedLsm, flushed := 1, snapshots, purging, jobs := fun _ => none }

theorem installs_flushed :
    Installs built [2] (fun _ n => built.flushed < n ∧ n ≤ 1) flushedLsm where
  rewritten := by
    intro k
    refine ⟨fun n hn => ?_, fun n hn hw => ?_, fun n w hn hw => ?_⟩
    · have hne : n ≠ 1 := by
        rintro rfl
        exact hn ⟨by decide, le_rfl⟩
      by_cases hk : k = key <;> simp [flushedLsm, built, init, write, hk, hne]
    · obtain rfl : n = 1 := by
        have := hn.1
        have := hn.2
        omega
      have hk : k ≠ key := by
        rintro rfl
        simp [flushedLsm] at hw
      exact .inl (by simp [built, init, hk])
    · simp only [flushedLsm, Option.ite_none_right_eq_some, Option.some.injEq] at hw
      obtain ⟨⟨rfl, rfl⟩, rfl⟩ := hw
      refine ⟨.value value, by simp [built, init, write], .separate value (ptr 2) ?_ (by simp [ptr])⟩
      exact holds_add_new (holds_oneRecord 2)
  once := by
    intro k n k' n' p _ h h'
    simp only [flushedLsm, Option.ite_none_right_eq_some] at h h'
    obtain ⟨⟨rfl, rfl⟩, -⟩ := h
    obtain ⟨⟨rfl, rfl⟩, -⟩ := h'
    exact ⟨rfl, rfl⟩

theorem run_flushed : ReflTransGen (OtherStep 0) (init 0) (flushed [] none) := by
  have run := run_built.tail (.flush built 0 _ 1 flushedLsm rfl rfl (by decide) le_rfl
    installs_flushed)
  have hjobs : update built.jobs 0 none = fun _ => none := by
    simp [built, init]
  simp only [State.setJob, hjobs] at run
  exact run

/-- A job has copied the record to file 3, which is applied, and not written it back. -/
def copied (useBitmap : Bool) (snapshots : List Nat) (purging : Option Nat) : State :=
  { flushed snapshots purging with
      files := add (flushed snapshots purging).files (oneRecord 3)
      fileSynced := fun f => (flushed snapshots purging).fileSynced f || decide (f ∈ [(3 : UInt64)])
      log := (flushed snapshots purging).log ++
        [{ nextFileNumber := some 4, columnFamilyId := 0, addedFiles := [{ fileNumber := 3 }] }]
      logSynced := 4
      nextFileNumber := 4
      jobs := update (fun _ => none) 1 (some
        { inputs := [2], outputs := [3], useBitmap,
          phase := .rewriting [⟨key, ptr 2, .index (ptr 3)⟩] [] }) }

theorem run_copied (useBitmap : Bool) (snapshots : List Nat) (purging : Option Nat) :
    ReflTransGen (OtherStep 0) (flushed snapshots purging) (copied useBitmap snapshots purging) := by
  have hpick : ∀ f ∈ [(2 : UInt64)], (flushed snapshots purging).Pickable f := by
    intro f hf
    obtain rfl := mem_singleton.mp hf
    exact ⟨by simp [flushed, built, init, added], rfl, by simp [flushed]⟩
  have hscan : scanRecord useBitmap ((flushed snapshots purging).baseGet key)
      { bitmap := fun _ _ => false, todo := [] } ⟨key, ptr 2, value⟩ =
        .ok { bitmap := fun _ _ => false, todo := [], lastKey := key,
              lastKeyIsFresh := !useBitmap, queue := [⟨key, ptr 2, value⟩] } := by
    cases useBitmap <;> rfl
  have hcopies : List.Forall₂ (Copies (oneRecord 3) false) [⟨key, ptr 2, value⟩]
      [⟨key, ptr 2, .index (ptr 3)⟩] :=
    .cons (.record (ptr 3) rfl (holds_oneRecord 3)) .nil
  have run := (((((((ReflTransGen.single (r := OtherStep 0)
    (.pick (flushed snapshots purging) 1 [2] useBitmap rfl (nodup_singleton _) hpick)).tail
    (.buildIterator _ 1 _ [⟨key, ptr 2, value⟩] rfl rfl (.refl _))).tail
    (.scan _ 1 _ _ _ _ _ rfl rfl rfl hscan)).tail
    (.rewriteFiles _ 1 _ _ false (oneRecord 3) [3] 4 _ rfl rfl rfl
      (writes_oneRecord rfl (by decide) (show (3 : UInt64) ≤ 4 by decide)) hcopies (nodup_singleton _))).tail
    (.syncFiles _ 1 _ _ rfl rfl)).tail
    (.logFiles _ 1 _ _ [{ fileNumber := 3 }] rfl rfl rfl)).tail
    (.applyRewrite _ 1 _ _ rfl rfl))
  simp only [State.setJob, update_idem] at run
  exact run

/-- The job has written the key back at sequence number 2 and deleted file 2. -/
def collected (snapshots : List Nat) (purging : Option Nat) : State :=
  { copied false snapshots purging with
      lsm := update flushedLsm key (write (flushedLsm key) 1 (.index (ptr 3)))
      seq := 2
      synced := 2
      log := (copied false snapshots purging).log ++
        [{ nextFileNumber := some 4, columnFamilyId := 0, deletedFiles := [(2, 2)] }]
      logSynced := 5
      obsolete := fun f => Option.or none (if f ∈ [(2 : UInt64)] then some 2 else none)
      bits := fun _ _ => false
      jobs := update (copied false snapshots purging).jobs 1 none }

theorem run_collected (snapshots : List Nat) (purging : Option Nat) :
    ReflTransGen (OtherStep 0) (flushed snapshots purging) (collected snapshots purging) := by
  have hcallback : callback ((copied false snapshots purging).baseGet key) (ptr 2).plain = .ok () :=
    rfl
  have run := (((((run_copied false snapshots purging).tail
    (.writeBack _ 1 _ _ [] [] rfl rfl hcallback)).tail
    (.markDropped _ 1 _ [] rfl rfl)).tail
    (.flushWal _ 1 _ rfl rfl)).tail
    (.logDelete _ 1 _ rfl rfl)).tail
    (.applyDelete _ 1 _ 2 rfl rfl)
  simp only [State.setJob, State.append, update_idem] at run
  exact run

/-- File 2 is obsolete, and the key is read from file 3. -/
theorem get_eq_last_write_collected :
    ∃ s, ReflTransGen (SomeStep 0) (init 0) s ∧ s.obsolete 2 = some 2 ∧ s.get key = .ok value ∧
      ∀ k p, tip s.lsm s.seq k = some (.index p) → p.fileNumber ≠ 2 := by
  have run := someStep_of_other (run_flushed.trans (run_collected [] none))
  obtain ⟨hget, hobsolete⟩ := get_eq_last_write run
  exact ⟨_, run, rfl, hget key, hobsolete 2 (by decide)⟩

end TitanGC.Software.TipReads
