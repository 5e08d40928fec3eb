import Mathlib.Tactic.Common
import Mathlib.Algebra.Order.Ring.Int
import TitanGC.Lib.Runs

/-!
# Scheduling of garbage collection and its exclusion with dropped column families

The counters, the queue and the condition variable that `AddToGCQueue`,
`MaybeScheduleGC`, `BackgroundCallGC` and `DropColumnFamilies` share under
`mutex_`. A step is a critical section: it starts and ends where `mutex_` is
free. A thread that waits on `bg_cv_` takes its step when the condition it waits
for holds, whoever woke it.
-/

namespace TitanGC.Scheduling.GcQueue

open Relation List Lib.Runs

structure DBOptions where
  disableBackgroundGc : Bool
  maxBackgroundGc : Int

/-- The GC threads that may run: without a positive `max_background_gc` there is
no thread pool. -/
def DBOptions.capacity (o : DBOptions) : Int := max 0 o.maxBackgroundGc

/-- Where a thread of `BackgroundCallGC` that has passed its wait stands while
`mutex_` is free: in the job it runs, or past `BackgroundGC`, flushing its log. -/
inductive Phase where
  | collecting
  | logging
  deriving DecidableEq

structure Job where
  columnFamilyId : Nat
  phase : Phase
  deriving DecidableEq

structure State where
  unscheduledGc : Int
  bgGcScheduled : Int
  bgGcRunning : Int
  dropCfRequests : Int
  gcQueue : List Nat
  initialized : Bool
  shutingDown : Bool
  /-- Threads submitted to the pool that have not passed their wait. -/
  submitted : Nat
  /-- Threads that have passed it and not left `BackgroundCallGC`. -/
  jobs : List Job
  /-- Calls of `DropColumnFamilies` that wait for the running jobs. -/
  waitingDrops : Nat
  /-- Calls of `DropColumnFamilies` between their wait and their last critical
  section. -/
  passedDrops : Nat
  deriving DecidableEq

def init : State where
  unscheduledGc := 0
  bgGcScheduled := 0
  bgGcRunning := 0
  dropCfRequests := 0
  gcQueue := []
  initialized := false
  shutingDown := false
  submitted := 0
  jobs := []
  waitingDrops := 0
  passedDrops := 0

def addToGCQueue (s : State) (columnFamilyId : Nat) : State :=
  { s with
    unscheduledGc := s.unscheduledGc + 1
    gcQueue := s.gcQueue ++ [columnFamilyId] }

/-- One turn of the loop of `MaybeScheduleGC`. -/
def submitJob (s : State) : State :=
  { s with
    unscheduledGc := s.unscheduledGc - 1
    bgGcScheduled := s.bgGcScheduled + 1
    submitted := s.submitted + 1 }

/-- The loop of `MaybeScheduleGC`; `turns` bounds how often it can go round. -/
def scheduleLoop (o : DBOptions) : Nat → State → State
  | 0, s => s
  | turns + 1, s =>
    if 0 < s.unscheduledGc ∧ s.bgGcScheduled < o.maxBackgroundGc then
      scheduleLoop o turns (submitJob s)
    else s

def maybeScheduleGC (o : DBOptions) (s : State) : State :=
  if o.disableBackgroundGc then s
  else if s.shutingDown then s
  -- each turn takes one request, so there are at most `unscheduledGc` turns
  else scheduleLoop o s.unscheduledGc.toNat s

/-- `AddToGCQueue` for each family, then `MaybeScheduleGC`, in one critical
section: `OnCompactionCompleted` and `DeleteFilesInRanges` for their own family,
`InitializeGC` for all of them. -/
def requestGC (o : DBOptions) (columnFamilyIds : List Nat) (s : State) : State :=
  maybeScheduleGC o (columnFamilyIds.foldl addToGCQueue s)

/-- The end of `BackgroundCallGC`. -/
def leaveBackgroundCallGC (o : DBOptions) (s : State) : State :=
  maybeScheduleGC o
    { s with bgGcRunning := s.bgGcRunning - 1, bgGcScheduled := s.bgGcScheduled - 1 }

/-- `BackgroundCallGC` from the end of its wait to the first point where it
releases `mutex_`: in the job, when `BackgroundGC` picked one, else for the log
after `BackgroundGC`, else at its end. -/
def enterBackgroundCallGC (o : DBOptions) (picked : Bool) (s : State) : State :=
  let s := { s with bgGcRunning := s.bgGcRunning + 1, submitted := s.submitted - 1 }
  match s.gcQueue with
  | [] => leaveBackgroundCallGC o s
  | columnFamilyId :: rest =>
    { s with
      gcQueue := rest
      jobs := ⟨columnFamilyId, if picked then .collecting else .logging⟩ :: s.jobs }

/-- Whether the queue is short enough for a family that has more to collect. -/
def hasRoomForNext (o : DBOptions) (s : State) : Bool :=
  decide (s.bgGcScheduled - 1 + s.gcQueue.length < 2 * o.maxBackgroundGc)

/-- `BackgroundGC` after its job has taken `mutex_` back, without the job's own
`Finish`; `MaybeScheduleGC` is left to the end of `BackgroundCallGC`. -/
def triggerNextGC (o : DBOptions) (triggerNext : Bool) (columnFamilyId : Nat)
    (s : State) : State :=
  if triggerNext && hasRoomForNext o s then addToGCQueue s columnFamilyId else s

/-- The first critical section of `DropColumnFamilies`: the call waits unless no
job is running. -/
def beginDropColumnFamilies (s : State) : State :=
  let s := { s with dropCfRequests := s.dropCfRequests + 1 }
  if 0 < s.bgGcRunning then { s with waitingDrops := s.waitingDrops + 1 }
  else { s with passedDrops := s.passedDrops + 1 }

/-- The critical sections of the threads, each from the states in which its
thread can run. The calls of `DropColumnFamilies` are those whose base call
succeeds, which alone reach the last one. -/
inductive Step (o : DBOptions) : State → State → Prop
  | request (s : State) (columnFamilyIds : List Nat) : Step o s (requestGC o columnFamilyIds s)
  | initialized (s : State) : Step o s { s with initialized := true }
  | shutDown (s : State) : Step o s { s with shutingDown := true }
  | enter (s : State) (picked : Bool) (hthread : 0 < s.submitted) (hwait : ¬ 0 < s.dropCfRequests) :
      Step o s (enterBackgroundCallGC o picked s)
  | collected (s : State) (before after : List Job) (columnFamilyId : Nat) (triggerNext : Bool)
      (hjob : s.jobs = before ++ ⟨columnFamilyId, .collecting⟩ :: after) :
      Step o s (triggerNextGC o triggerNext columnFamilyId
        { s with jobs := before ++ ⟨columnFamilyId, .logging⟩ :: after })
  | leave (s : State) (before after : List Job) (columnFamilyId : Nat)
      (hjob : s.jobs = before ++ ⟨columnFamilyId, .logging⟩ :: after) :
      Step o s (leaveBackgroundCallGC o { s with jobs := before ++ after })
  | beginDrop (s : State) : Step o s (beginDropColumnFamilies s)
  | passDrop (s : State) (hcall : 0 < s.waitingDrops) (hwait : ¬ 0 < s.bgGcRunning) :
      Step o s { s with
        waitingDrops := s.waitingDrops - 1
        passedDrops := s.passedDrops + 1 }
  | endDrop (s : State) (hcall : 0 < s.passedDrops) :
      Step o s { s with
        passedDrops := s.passedDrops - 1
        dropCfRequests := s.dropCfRequests - 1 }

/-! ## What the counters count -/

/-- The counters against the threads and the calls they stand for. -/
structure Tallies (o : DBOptions) (s : State) : Prop where
  running : s.bgGcRunning = s.jobs.length
  scheduled : s.bgGcScheduled = s.submitted + s.jobs.length
  capacity : s.bgGcScheduled ≤ o.capacity
  unscheduled : 0 ≤ s.unscheduledGc
  queue : (s.gcQueue.length : Int) = s.unscheduledGc + s.submitted
  drops : s.dropCfRequests = s.waitingDrops + s.passedDrops
  excluded : 0 < s.passedDrops → s.jobs = []

/-- `caughtUp` is what `MaybeScheduleGC` leaves behind. Only a job that has put
its family back into the queue and has not yet left can break it. -/
structure Counts (o : DBOptions) (s : State) : Prop extends Tallies o s where
  caughtUp : o.disableBackgroundGc = false → s.shutingDown = false → s.jobs = [] →
    0 < s.unscheduledGc → o.capacity ≤ s.bgGcScheduled

section
variable {o : DBOptions} {s : State}

theorem capacity_of_scheduled_lt (h : s.bgGcScheduled < o.maxBackgroundGc) :
    s.bgGcScheduled + 1 ≤ o.capacity := by
  have hm : o.maxBackgroundGc ≤ o.capacity := le_max_right _ _
  omega

theorem Tallies.submitJob (h : Tallies o s) (hu : 0 < s.unscheduledGc)
    (hs : s.bgGcScheduled < o.maxBackgroundGc) : Tallies o (submitJob s) := by
  have hcapacity := capacity_of_scheduled_lt hs
  have hscheduled := h.scheduled
  have hqueue := h.queue
  constructor
  · exact h.running
  · show s.bgGcScheduled + 1 = ((s.submitted + 1 : Nat) : Int) + s.jobs.length
    omega
  · exact hcapacity
  · show 0 ≤ s.unscheduledGc - 1
    omega
  · show (s.gcQueue.length : Int) = s.unscheduledGc - 1 + ((s.submitted + 1 : Nat) : Int)
    omega
  · exact h.drops
  · exact h.excluded

theorem Tallies.scheduleLoop (h : Tallies o s) (turns : Nat) :
    Tallies o (scheduleLoop o turns s) := by
  induction turns generalizing s with
  | zero => exact h
  | succ turns ih =>
    rw [GcQueue.scheduleLoop]
    split
    · next hg => exact ih (h.submitJob hg.1 hg.2)
    · exact h

/-- The loop ends because its condition fails, not because `turns` is used up. -/
theorem scheduleLoop_done (turns : Nat) (hturns : s.unscheduledGc ≤ turns) :
    ¬ (0 < (scheduleLoop o turns s).unscheduledGc ∧
      (scheduleLoop o turns s).bgGcScheduled < o.maxBackgroundGc) := by
  induction turns generalizing s with
  | zero =>
    intro hg
    have hu : 0 < s.unscheduledGc := hg.1
    omega
  | succ turns ih =>
    rw [GcQueue.scheduleLoop]
    split
    · apply ih
      show s.unscheduledGc - 1 ≤ turns
      omega
    · next hg => exact hg

/-- `MaybeScheduleGC` leaves a request unscheduled only when every thread is
taken. -/
theorem Tallies.maybeScheduleGC (h : Tallies o s) : Counts o (maybeScheduleGC o s) := by
  rw [GcQueue.maybeScheduleGC]
  split
  · next hd =>
      refine ⟨h, fun hd' => ?_⟩
      rw [hd] at hd'
      cases hd'
  · split
    · next hs =>
        refine ⟨h, fun _ hs' => ?_⟩
        rw [hs] at hs'
        cases hs'
    · have hloop := h.scheduleLoop s.unscheduledGc.toNat
      refine ⟨hloop, fun _ _ _ hu => ?_⟩
      have hdone := scheduleLoop_done (o := o) s.unscheduledGc.toNat (Int.self_le_toNat _)
      have hs := hloop.scheduled
      rw [DBOptions.capacity]
      omega

theorem Tallies.addToGCQueue (h : Tallies o s) (columnFamilyId : Nat) :
    Tallies o (addToGCQueue s columnFamilyId) := by
  have hunscheduled := h.unscheduled
  have hqueue := h.queue
  constructor
  · exact h.running
  · exact h.scheduled
  · exact h.capacity
  · show 0 ≤ s.unscheduledGc + 1
    omega
  · show ((s.gcQueue ++ [columnFamilyId]).length : Int) = s.unscheduledGc + 1 + s.submitted
    rw [length_append, length_singleton]
    omega
  · exact h.drops
  · exact h.excluded

theorem Tallies.foldl_addToGCQueue (columnFamilyIds : List Nat) (h : Tallies o s) :
    Tallies o (columnFamilyIds.foldl GcQueue.addToGCQueue s) := by
  induction columnFamilyIds generalizing s with
  | nil => exact h
  | cons c cs ih => exact ih (h.addToGCQueue c)

variable (h : Counts o s)

include h

theorem counts_requestGC (columnFamilyIds : List Nat) : Counts o (requestGC o columnFamilyIds s) :=
  (h.toTallies.foldl_addToGCQueue columnFamilyIds).maybeScheduleGC

theorem counts_enterBackgroundCallGC (picked : Bool) (hthread : 0 < s.submitted)
    (hwait : ¬ 0 < s.dropCfRequests) : Counts o (enterBackgroundCallGC o picked s) := by
  have hqueue := h.queue
  have hunscheduled := h.unscheduled
  have hscheduled := h.scheduled
  have hrunning := h.running
  have hdrops := h.drops
  rw [enterBackgroundCallGC]
  cases hq : s.gcQueue with
  | nil =>
    -- a submitted thread has a request in the queue
    rw [hq, length_nil] at hqueue
    omega
  | cons c rest =>
    rw [hq, length_cons] at hqueue
    refine ⟨⟨?_, ?_, h.capacity, hunscheduled, ?_, hdrops, ?_⟩, ?_⟩
    · show s.bgGcRunning + 1 = ((_ :: s.jobs).length : Int)
      rw [length_cons]
      omega
    · show s.bgGcScheduled = ((s.submitted - 1 : Nat) : Int) + ((_ :: s.jobs).length : Int)
      rw [length_cons]
      omega
    · show (rest.length : Int) = s.unscheduledGc + ((s.submitted - 1 : Nat) : Int)
      omega
    · intro hp
      have hp' : 0 < s.passedDrops := hp
      omega
    · intro _ _ hj
      cases hj

theorem counts_triggerNextGC (before after : List Job) (columnFamilyId : Nat) (triggerNext : Bool)
    (hjob : s.jobs = before ++ ⟨columnFamilyId, .collecting⟩ :: after) :
    Counts o (triggerNextGC o triggerNext columnFamilyId
      { s with jobs := before ++ ⟨columnFamilyId, .logging⟩ :: after }) := by
  have hlength : s.jobs.length = (before ++ ⟨columnFamilyId, .logging⟩ :: after).length := by
    rw [hjob]
    simp only [length_append, length_cons]
  have hjobs : Tallies o { s with jobs := before ++ ⟨columnFamilyId, .logging⟩ :: after } := by
    refine ⟨?_, ?_, h.capacity, h.unscheduled, h.queue, h.drops, ?_⟩
    · rw [← hlength]
      exact h.running
    · rw [← hlength]
      exact h.scheduled
    · intro hp
      have hnone := h.excluded hp
      rw [hjob] at hnone
      exact absurd hnone (append_ne_nil_of_right_ne_nil _ (cons_ne_nil _ _))
  have hsome : before ++ ⟨columnFamilyId, Phase.logging⟩ :: after ≠ [] :=
    append_ne_nil_of_right_ne_nil _ (cons_ne_nil _ _)
  rw [triggerNextGC]
  split
  · exact ⟨hjobs.addToGCQueue columnFamilyId, fun _ _ hj => absurd hj hsome⟩
  · exact ⟨hjobs, fun _ _ hj => absurd hj hsome⟩

theorem counts_leaveBackgroundCallGC (before after : List Job) (columnFamilyId : Nat)
    (hjob : s.jobs = before ++ ⟨columnFamilyId, .logging⟩ :: after) :
    Counts o (leaveBackgroundCallGC o { s with jobs := before ++ after }) := by
  have hlength : s.jobs.length = (before ++ after).length + 1 := by
    rw [hjob]
    simp only [length_append, length_cons]
    omega
  have hrunning := h.running
  have hscheduled := h.scheduled
  have hcapacity := h.capacity
  apply Tallies.maybeScheduleGC
  refine ⟨?_, ?_, ?_, h.unscheduled, h.queue, h.drops, ?_⟩
  · show s.bgGcRunning - 1 = ((before ++ after).length : Int)
    omega
  · show s.bgGcScheduled - 1 = (s.submitted : Int) + ((before ++ after).length : Int)
    omega
  · show s.bgGcScheduled - 1 ≤ o.capacity
    omega
  · intro hp
    have hnone := h.excluded hp
    rw [hnone, length_nil] at hlength
    omega

theorem counts_beginDropColumnFamilies : Counts o (beginDropColumnFamilies s) := by
  have hdrops := h.drops
  have hrunning := h.running
  rw [beginDropColumnFamilies]
  split
  · refine ⟨⟨h.running, h.scheduled, h.capacity, h.unscheduled, h.queue, ?_, h.excluded⟩, h.caughtUp⟩
    show s.dropCfRequests + 1 = ((s.waitingDrops + 1 : Nat) : Int) + s.passedDrops
    omega
  · next hnone =>
      refine ⟨⟨h.running, h.scheduled, h.capacity, h.unscheduled, h.queue, ?_, ?_⟩, h.caughtUp⟩
      · show s.dropCfRequests + 1 = (s.waitingDrops : Int) + ((s.passedDrops + 1 : Nat) : Int)
        omega
      · intro _
        have hr : ¬ 0 < s.bgGcRunning := hnone
        apply eq_nil_of_length_eq_zero
        show s.jobs.length = 0
        omega

theorem counts_step {t : State} (hstep : Step o s t) : Counts o t := by
  have hdrops := h.drops
  cases hstep with
  | request columnFamilyIds => exact counts_requestGC h columnFamilyIds
  | initialized => exact { h with }
  | shutDown =>
    refine ⟨{ h.toTallies with }, ?_⟩
    intro _ hs
    cases hs
  | enter picked hthread hwait => exact counts_enterBackgroundCallGC h picked hthread hwait
  | collected before after c triggerNext hjob =>
    exact counts_triggerNextGC h before after c triggerNext hjob
  | leave before after c hjob => exact counts_leaveBackgroundCallGC h before after c hjob
  | beginDrop => exact counts_beginDropColumnFamilies h
  | passDrop hcall hwait =>
    have hrunning := h.running
    refine ⟨⟨h.running, h.scheduled, h.capacity, h.unscheduled, h.queue, ?_, ?_⟩, h.caughtUp⟩
    · show s.dropCfRequests =
        ((s.waitingDrops - 1 : Nat) : Int) + ((s.passedDrops + 1 : Nat) : Int)
      omega
    · intro _
      apply eq_nil_of_length_eq_zero
      show s.jobs.length = 0
      omega
  | endDrop hcall =>
    refine ⟨⟨h.running, h.scheduled, h.capacity, h.unscheduled, h.queue, ?_, ?_⟩, h.caughtUp⟩
    · show s.dropCfRequests - 1 = (s.waitingDrops : Int) + ((s.passedDrops - 1 : Nat) : Int)
      omega
    · intro _
      exact h.excluded hcall

end

theorem counts_init (o : DBOptions) : Counts o init :=
  ⟨⟨rfl, rfl, le_max_left _ _, le_rfl, rfl, rfl, fun _ => rfl⟩, fun _ _ _ hu => absurd hu (lt_irrefl _)⟩

/-- Whenever `mutex_` is free the counters are in order, the queue holds the
requests that no running job has taken, none of them is forgotten, and no job
runs while a call of `DropColumnFamilies` is past its wait. -/
theorem gc_bookkeeping (o : DBOptions) {s : State} (hrun : ReflTransGen (Step o) init s) :
    (0 ≤ s.bgGcRunning ∧ s.bgGcRunning ≤ s.bgGcScheduled ∧
      s.bgGcScheduled ≤ max 0 o.maxBackgroundGc) ∧
    (s.gcQueue.length : Int) = s.unscheduledGc + (s.bgGcScheduled - s.bgGcRunning) ∧
    (o.disableBackgroundGc = false → s.initialized = true → s.shutingDown = false →
      s.bgGcRunning = 0 → 0 < s.unscheduledGc → s.bgGcScheduled = max 0 o.maxBackgroundGc) ∧
    (0 < s.passedDrops → s.jobs = [] ∧ s.bgGcRunning = 0) := by
  have h : Counts o s :=
    run_invariant (Counts o) (fun _ _ h hstep => counts_step h hstep) hrun (counts_init o)
  have hrunning := h.running
  have hscheduled := h.scheduled
  have hqueue := h.queue
  refine ⟨⟨?_, ?_, h.capacity⟩, ?_, ?_, ?_⟩
  · omega
  · omega
  · omega
  · intro hd _ hs hr hu
    have hnone : s.jobs = [] := eq_nil_of_length_eq_zero (by omega)
    exact le_antisymm h.capacity (h.caughtUp hd hs hnone hu)
  · intro hp
    have hnone := h.excluded hp
    rw [hnone, length_nil] at hrunning
    exact ⟨hnone, hrunning⟩

/-- Two requests with one thread: the first is in its job, the second waits. -/
def oneOfTwo : State where
  unscheduledGc := 1
  bgGcScheduled := 1
  bgGcRunning := 1
  dropCfRequests := 0
  gcQueue := [5]
  initialized := true
  shutingDown := false
  submitted := 0
  jobs := [⟨0, .collecting⟩]
  waitingDrops := 0
  passedDrops := 0

theorem oneOfTwo_reached : ReflTransGen (Step ⟨false, 1⟩) init oneOfTwo :=
  ((ReflTransGen.single (.request init [0, 5])).tail (.initialized _)).tail
    (.enter _ true (by decide) (by decide))

theorem gc_bookkeeping_oneOfTwo :
    ReflTransGen (Step ⟨false, 1⟩) init oneOfTwo ∧
      (oneOfTwo.gcQueue.length : Int) =
        oneOfTwo.unscheduledGc + (oneOfTwo.bgGcScheduled - oneOfTwo.bgGcRunning) :=
  ⟨oneOfTwo_reached, (gc_bookkeeping ⟨false, 1⟩ oneOfTwo_reached).2.1⟩

end TitanGC.Scheduling.GcQueue
