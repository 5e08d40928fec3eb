import TitanGC.Software.TipReads

/-!
# Purged files and live snapshots

A purge removes the files that became obsolete before the oldest snapshot it has
read. A snapshot that is live when the files are removed is covered if the purge
has read some snapshot; if there was none, the purge removes every obsolete file,
also one that a younger snapshot still sees.
-/

namespace TitanGC.Software.Snapshots

open Relation List Lib.MultiVersion Lib.Runs Format.Coding Format.BlobFormat
open GcJob Software.System Invariant TipReads

variable {cf : UInt32} {s t : State} {a : Action}

/-- A purge that has read no snapshot removes files only while every live snapshot is
at or above the obsolete sequence of every obsolete file. -/
def Careful (s : State) : Action → Prop
  | .purgeRemove => s.purging = some kMaxSequenceNumber →
      ∀ sn ∈ s.snapshots, ∀ f q, s.obsolete f = some q → q ≤ sn
  | .other => True

def CarefulStep (cf : UInt32) (s t : State) : Prop := ∃ a, Step cf s a t ∧ Careful s a

/-- Every live snapshot is at or above the obsolete sequence of a purged file. -/
def PurgedOld (s : State) : Prop :=
  ∀ f q, s.purged f = true → s.obsolete f = some q → ∀ sn ∈ s.snapshots, q ≤ sn

theorem purgedOld_same (h : PurgedOld s) (hp : t.purged = s.purged) (ho : t.obsolete = s.obsolete)
    (hsn : t.snapshots = s.snapshots) : PurgedOld t := by
  intro f q hf hq sn hmem
  exact h f q (hp ▸ hf) (ho ▸ hq) sn (hsn ▸ hmem)

theorem purgedOld_purgeRemove (hs : Inv cf s) (h : PurgedOld s) {oldest : Nat}
    (hp : s.purging = some oldest) (hc : Careful s .purgeRemove) :
    PurgedOld { s with
      purging := none
      purged := fun f => s.purged f || (s.obsolete f).any fun q => decide (q < oldest) } := by
  intro f q hf hq sn hsn
  rcases Bool.or_eq_true_iff.mp hf with hold | hnew
  · exact h f q hold hq sn hsn
  · rcases hs.bounds.purging oldest hp with rfl | ⟨-, holdest⟩
    · exact hc hp sn hsn f q hq
    · have hlt : q < oldest := by
        have hq' : s.obsolete f = some q := hq
        simpa [hq'] using hnew
      exact hlt.le.trans (holdest sn hsn)

theorem purgedOld_step (hs : Inv cf s) (h : PurgedOld s) (hstep : Step cf s a t)
    (hc : Careful s a) : PurgedOld t := by
  cases hstep with
  | getSnapshot =>
    intro f q hf hq sn hmem
    rcases mem_append.mp hmem with hold | hnew
    · exact h f q hf hq sn hold
    · rw [mem_singleton.mp hnew]
      exact (hs.obsolete f q hq).1
  | releaseSnapshot i =>
    exact fun f q hf hq sn hmem => h f q hf hq sn ((eraseIdx_sublist _ _).subset hmem)
  | applyDelete j job q hj hp =>
    intro f o hf ho sn hmem
    refine h f o hf ?_ sn hmem
    -- a purged file is obsolete already, and stays so with its sequence number
    cases hob : s.obsolete f with
    | none => exact absurd hob (hs.purged f hf)
    | some q' => simpa [hob] using ho
  | purgeRemove oldest hp => exact purgedOld_purgeRemove hs h hp hc
  | _ => exact purgedOld_same h rfl rfl rfl

/-- In every run whose purges are careful, no live snapshot sees a version in a purged
file. -/
theorem purged_unseen (run : ReflTransGen (CarefulStep cf) (init cf) s) {f : UInt64}
    (hf : s.purged f = true) {sn : Nat} (hsn : sn ∈ s.snapshots) {k : Key} {r : BlobPtr}
    (hr : visible (s.lsm k) sn = some (.index r)) : r.fileNumber ≠ f := by
  have hboth : Inv cf s ∧ PurgedOld s := by
    refine run_invariant (fun s => Inv cf s ∧ PurgedOld s) ?_ run ⟨inv_init cf, by simp [PurgedOld, init]⟩
    rintro s t ⟨hs, h⟩ ⟨a, hstep, hc⟩
    exact ⟨inv_step hs hstep, purgedOld_step hs h hstep hc⟩
  obtain ⟨hs, hold⟩ := hboth
  cases ho : s.obsolete f with
  | none => exact absurd ho (hs.purged f hf)
  | some q =>
    obtain ⟨-, hgone⟩ := hs.obsolete f q ho
    exact hgone sn (.inl hsn) (hold f q hf ho sn hsn) k r hr

theorem carefulStep_of_other (run : ReflTransGen (OtherStep cf) s t) :
    ReflTransGen (CarefulStep cf) s t :=
  ReflTransGen.mono (fun _ _ h => ⟨.other, h, trivial⟩) _ _ run

/-- File 2 is purged while there is no snapshot; one taken later sees the copy. -/
theorem purged_unseen_collected :
    ∃ s, ReflTransGen (CarefulStep 0) (init 0) s ∧ s.purged 2 = true ∧ s.snapshots = [2] ∧
      ∀ k r, visible (s.lsm k) 2 = some (.index r) → r.fileNumber ≠ 2 := by
  have hcollected : ReflTransGen (CarefulStep 0) (init 0) (collected [] none) :=
    carefulStep_of_other (run_flushed.trans (run_collected [] none))
  have run := ((hcollected.tail ⟨_, .purgeRead _ rfl, trivial⟩).tail
    ⟨_, .purgeRemove _ kMaxSequenceNumber rfl, fun _ sn h => by cases h⟩).tail
    ⟨_, .getSnapshot _, trivial⟩
  exact ⟨_, run, rfl, rfl, fun k r hr => purged_unseen run rfl (mem_singleton.mpr rfl) hr⟩

/-- A purge finds no snapshot. A snapshot is taken, and a job makes file 2 obsolete
above it; the purge then removes the file that the snapshot sees. -/
theorem purge_under_snapshot :
    ∃ s, ReflTransGen (SomeStep 0) (init 0) s ∧ s.purged 2 = true ∧ s.snapshots = [1] ∧
      visible (s.lsm key) 1 = some (.index (ptr 2)) := by
  have hread : ReflTransGen (OtherStep 0) (init 0) (flushed [1] (some kMaxSequenceNumber)) :=
    (run_flushed.tail (.purgeRead _ rfl)).tail (.getSnapshot _)
  have run := (someStep_of_other (hread.trans (run_collected [1] (some kMaxSequenceNumber)))).tail
    ⟨_, .purgeRemove _ kMaxSequenceNumber rfl⟩
  exact ⟨_, run, rfl, rfl, rfl⟩

end TitanGC.Software.Snapshots
