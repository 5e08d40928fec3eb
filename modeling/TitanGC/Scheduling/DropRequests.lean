import TitanGC.Format.Coding
import TitanGC.Lib.Runs

/-!
# Requests to drop column families

`DropColumnFamilies` announces itself in `drop_cf_requests_`, waits until no GC job is
running, drops the column families in the base DB and then in the blob file set, and
gives its request back. `BackgroundCallGC` does not start a job while there are requests.
Both wait on `bg_cv_`; a thread that waits is asleep until it is signalled, or wakes up
by itself, and then tests its condition again. Each step is what a thread does while it
holds `mutex_`, or its call of the base DB.
-/

namespace TitanGC.Scheduling.DropRequests

open Format.Coding Lib.Runs List

/-! ## Threads -/

inductive DropPhase where
  | asleep | awake | dropping | dropped
  deriving Repr, DecidableEq

inductive GcPhase where
  | asleep | awake | running
  deriving Repr, DecidableEq

def DropPhase.wake : DropPhase → DropPhase
  | .asleep => .awake
  | p => p

def GcPhase.wake : GcPhase → GcPhase
  | .asleep => .awake
  | p => p

structure State where
  dropCfRequests : Int := 0
  bgGcRunning : Int := 0
  bgGcScheduled : Int := 0
  /-- The calls of `DropColumnFamilies` in progress. -/
  drops : List DropPhase := []
  gcs : List GcPhase := []
  deriving Repr, DecidableEq

inductive Op where
  | dropColumnFamilies
  /-- A thread wakes up without a signal. -/
  | wakeDrop (i : Nat)
  | recheckDrop (i : Nat)
  /-- The base DB's `DropColumnFamilies` returns. -/
  | baseDrop (i : Nat) (status : Option Status)
  /-- The last part of the call, with the result of `BlobFileSet::DropColumnFamilies`. -/
  | finishDrop (i : Nat) (status : Option Status)
  | scheduleGC
  | backgroundCallGC
  | wakeGC (i : Nat)
  | recheckGC (i : Nat)
  /-- A job ends; `MaybeScheduleGC` schedules more. -/
  | finishGC (i : Nat) (scheduled : Nat)
  deriving Repr, DecidableEq

namespace State

/-- `bg_cv_.SignalAll()`. -/
def signalAll (s : State) : State :=
  { s with drops := s.drops.map DropPhase.wake, gcs := s.gcs.map GcPhase.wake }

/-- `while (bg_gc_running_ > 0) bg_cv_.Wait()`: what a drop does next. -/
def waitForJobs (s : State) : DropPhase := if 0 < s.bgGcRunning then .asleep else .dropping

/-- `while (drop_cf_requests_ > 0) bg_cv_.Wait()`: what a job does next. -/
def waitForDrops (s : State) : GcPhase := if 0 < s.dropCfRequests then .asleep else .running

def count (s : State) (p : GcPhase) : Int := s.bgGcRunning + if p = .running then 1 else 0

/-- The request is given back, whatever the blob file set has answered. -/
def giveBack (s : State) (i : Nat) : State :=
  let s := { s with dropCfRequests := s.dropCfRequests - 1, drops := s.drops.eraseIdx i }
  if s.dropCfRequests = 0 then s.signalAll else s

def endJob (s : State) (i scheduled : Nat) : State :=
  let s := { s with bgGcRunning := s.bgGcRunning - 1, bgGcScheduled := s.bgGcScheduled - 1 + scheduled
                    gcs := s.gcs.eraseIdx i }
  if s.bgGcScheduled = 0 ∨ s.bgGcRunning = 0 then s.signalAll else s

end State

/-- A step of a thread that is not there, or at another place, does nothing. -/
def exec (s : State) : Op → State
  | .dropColumnFamilies =>
    { s with dropCfRequests := s.dropCfRequests + 1, drops := s.drops ++ [s.waitForJobs] }
  | .wakeDrop i => if s.drops[i]? = some .asleep then { s with drops := s.drops.set i .awake } else s
  | .recheckDrop i =>
    if s.drops[i]? = some .awake then { s with drops := s.drops.set i s.waitForJobs } else s
  | .baseDrop i none =>
    if s.drops[i]? = some .dropping then { s with drops := s.drops.set i .dropped } else s
  -- the call returns the status, with its request still counted
  | .baseDrop i (some _) =>
    if s.drops[i]? = some .dropping then { s with drops := s.drops.eraseIdx i } else s
  | .finishDrop i _ => if s.drops[i]? = some .dropped then s.giveBack i else s
  | .scheduleGC => { s with bgGcScheduled := s.bgGcScheduled + 1 }
  | .backgroundCallGC =>
    { s with gcs := s.gcs ++ [s.waitForDrops], bgGcRunning := s.count s.waitForDrops }
  | .wakeGC i => if s.gcs[i]? = some .asleep then { s with gcs := s.gcs.set i .awake } else s
  | .recheckGC i =>
    if s.gcs[i]? = some .awake then
      { s with gcs := s.gcs.set i s.waitForDrops, bgGcRunning := s.count s.waitForDrops }
    else s
  | .finishGC i scheduled => if s.gcs[i]? = some .running then s.endJob i scheduled else s

/-! ## Requests and calls in progress -/

/-- The requests are those of the calls in progress; without one, no job is blocked. -/
def Balanced (s : State) : Prop :=
  s.dropCfRequests = s.drops.length ∧ (s.drops = [] → .asleep ∉ s.gcs)

/-- The base DB does not refuse the drop of a call in progress. -/
def DropsSucceed (s : State) : Op → Prop
  | .baseDrop i (some _) => s.drops[i]? ≠ some .dropping
  | _ => True

/-- A job sleeps for a request. -/
structure Inv (s : State) : Prop where
  requests : s.dropCfRequests = s.drops.length
  asleep : .asleep ∈ s.gcs → 0 < s.dropCfRequests

theorem Inv.balanced {s : State} (h : Inv s) : Balanced s := by
  refine ⟨h.requests, fun hnone hasleep => ?_⟩
  have hpos := h.asleep hasleep
  rw [h.requests, hnone] at hpos
  exact absurd hpos (by decide)

theorem wake_ne_asleep (p : GcPhase) : p.wake ≠ .asleep := by cases p <;> decide

/-- Nobody sleeps after a signal. -/
theorem Inv.signalAll {s : State} (h : s.dropCfRequests = s.drops.length) : Inv s.signalAll := by
  refine ⟨by rw [State.signalAll, h, length_map], fun hasleep => ?_⟩
  obtain ⟨p, -, hp⟩ := mem_map.mp hasleep
  exact absurd hp (wake_ne_asleep p)

theorem length_eraseIdx_of_getElem? {α : Type} {xs : List α} {i : Nat} {x : α} (h : xs[i]? = some x) :
    (xs.eraseIdx i).length + 1 = xs.length := by
  obtain ⟨hi, -⟩ := List.getElem?_eq_some_iff.mp h
  rw [length_eraseIdx_of_lt hi]
  omega

section

variable {s : State} (h : Inv s)
include h

/-- A drop moves on. -/
theorem Inv.setDrop (i : Nat) (p : DropPhase) : Inv { s with drops := s.drops.set i p } :=
  ⟨by rw [h.requests, length_set], h.asleep⟩

/-- A job moves on, and sleeps only for a request. -/
theorem Inv.withGcs {gcs : List GcPhase} (running : Int)
    (hgcs : .asleep ∈ gcs → .asleep ∈ s.gcs ∨ 0 < s.dropCfRequests) :
    Inv { s with gcs := gcs, bgGcRunning := running } :=
  ⟨h.requests, fun hasleep => (hgcs hasleep).elim h.asleep id⟩

omit h in
theorem waitForDrops_asleep (hp : s.waitForDrops = .asleep) : 0 < s.dropCfRequests := by
  by_contra hnot
  rw [State.waitForDrops, if_neg hnot] at hp
  cases hp

theorem Inv.giveBack {i : Nat} (hi : s.drops[i]? = some .dropped) : Inv (s.giveBack i) := by
  have hlen := length_eraseIdx_of_getElem? hi
  have hrequests : s.dropCfRequests - 1 = (s.drops.eraseIdx i).length := by
    rw [h.requests]
    omega
  rw [State.giveBack]
  dsimp only
  split
  · exact .signalAll hrequests
  · rename_i hne
    refine ⟨hrequests, fun _ => ?_⟩
    dsimp only at hne ⊢
    omega

theorem Inv.endJob (i scheduled : Nat) : Inv (s.endJob i scheduled) := by
  rw [State.endJob]
  dsimp only
  split
  · exact .signalAll h.requests
  · exact ⟨h.requests, fun hasleep => h.asleep (mem_of_mem_eraseIdx hasleep)⟩

theorem Inv.exec (op : Op) (hop : DropsSucceed s op) : Inv (exec s op) := by
  cases op with
  | dropColumnFamilies =>
    refine ⟨?_, fun hasleep => ?_⟩
    · rw [DropRequests.exec, length_append, h.requests]
      rfl
    · have hpos := h.asleep hasleep
      exact Int.lt_trans hpos (Int.lt_succ _)
  | wakeDrop i =>
    rw [DropRequests.exec]
    split
    · exact h.setDrop i _
    · exact h
  | recheckDrop i =>
    rw [DropRequests.exec]
    split
    · exact h.setDrop i _
    · exact h
  | baseDrop i status =>
    cases status with
    | none =>
      rw [DropRequests.exec]
      split
      · exact h.setDrop i _
      · exact h
    | some status =>
      rw [DropRequests.exec, if_neg hop]
      exact h
  | finishDrop i status =>
    rw [DropRequests.exec]
    split
    · rename_i hi
      exact h.giveBack hi
    · exact h
  | scheduleGC => exact ⟨h.requests, h.asleep⟩
  | backgroundCallGC =>
    refine h.withGcs _ fun hasleep => ?_
    rcases mem_append.mp hasleep with hold | hnew
    · exact .inl hold
    · exact .inr (waitForDrops_asleep (mem_singleton.mp hnew).symm)
  | wakeGC i =>
    rw [DropRequests.exec]
    split
    · refine h.withGcs _ fun hasleep => ?_
      rcases mem_or_eq_of_mem_set hasleep with hold | hnew
      · exact .inl hold
      · cases hnew
    · exact h
  | recheckGC i =>
    rw [DropRequests.exec]
    split
    · refine h.withGcs _ fun hasleep => ?_
      rcases mem_or_eq_of_mem_set hasleep with hold | hnew
      · exact .inl hold
      · exact .inr (waitForDrops_asleep hnew.symm)
    · exact h
  | finishGC i scheduled =>
    rw [DropRequests.exec]
    split
    · exact h.endJob i scheduled
    · exact h

/-- A call that the base DB refuses ends with its request still counted. -/
theorem Inv.refused (op : Op) (hop : Balanced (DropRequests.exec s op)) : DropsSucceed s op := by
  cases op with
  | baseDrop i status =>
    cases status with
    | none => trivial
    | some status =>
      intro hi
      have hlen := length_eraseIdx_of_getElem? hi
      have hcount := hop.1
      rw [DropRequests.exec, if_pos hi] at hcount
      dsimp only at hcount
      rw [h.requests] at hcount
      omega
  | _ => trivial

end

/-- Along every run, the requests are those of the calls in progress, and without one no
job is blocked, exactly if the base DB refuses no drop. -/
theorem requests_balanced_iff (ops : List Op) :
    Always exec Balanced {} ops ↔ Along exec DropsSucceed {} ops :=
  always_iff_along Inv (fun _ op h hop => h.exec op hop) (fun _ h => h.balanced)
    (fun _ op h hop => h.refused op hop) ⟨rfl, fun h => absurd h not_mem_nil⟩

/-- The base DB refuses a drop. No call is in progress afterwards, but its request is
still counted, and a GC job that starts goes to sleep. -/
theorem refused_drop_blocks_gc :
    [.dropColumnFamilies, .baseDrop 0 (some ⟨.invalidArgument, "Can't drop default column family"⟩),
        .scheduleGC, .backgroundCallGC].foldl exec {} =
      { dropCfRequests := 1, bgGcRunning := 0, bgGcScheduled := 1, drops := [], gcs := [.asleep] } := by
  decide

end TitanGC.Scheduling.DropRequests
