import Mathlib.Data.List.Perm.Basic
import TitanGC.Accounting.Tracking

/-!
# What a garbage collection job holds when it returns

`BlobGCJob::Run` takes `mutex_` to read the blob storage again, and in offload mode
takes a compute unit from the driver's queue. The threads of any number of jobs are
interleaved with the other users of `mutex_`; a thread that waits for it does not
move. The storage a job finds is whatever it has become since the job was picked.
-/

namespace TitanGC.Scheduling.JobExits

open Accounting.Tracking List Lib.Runs

/-! ## The driver's queue -/

def computeUnits : List UInt8 := [1, 2, 3, 4, 5, 6, 7, 8]

/-- The index and the rest of the queue, or `Busy`. -/
def getFreeCuIndex : List UInt8 → Option (UInt8 × List UInt8)
  | [] => none
  | index :: rest => some (index, rest)

def setFreeCuIndex (freeIndexQueue : List UInt8) (index : UInt8) : List UInt8 :=
  freeIndexQueue ++ [index]

/-! ## Reading the storage again -/

inductive RereadError where
  | columnFamilyNotFound
  | fileNotFound (fileNumber : UInt64)
  deriving Repr, DecidableEq

def RereadError.message : RereadError → String
  | .columnFamilyNotFound => "BlobGC::BuildIterator: Column family not Found."
  | .fileNotFound _ => "BlobGC::BuildIterator: File not Found."

/-- The loop over the inputs: the first that is missing or obsolete ends it. -/
def findInputs (bs : Storage) : List UInt64 → Except RereadError Unit
  | [] => .ok ()
  | fileNumber :: rest =>
    match bs.files fileNumber with
    | none => .error (.fileNotFound fileNumber)
    | some file => if file.isObsolete then .error (.fileNotFound fileNumber) else findInputs bs rest

def reread (view : Option Storage) (fileNumbers : List UInt64) : Except RereadError Unit :=
  match view with
  | none => .error .columnFamilyNotFound
  | some bs => findInputs bs fileNumbers

/-- The column family is there, and each of the files is there and not obsolete. -/
def Found (view : Option Storage) (fileNumbers : List UInt64) : Prop :=
  ∃ bs, view = some bs ∧ ∀ n ∈ fileNumbers, ∃ f, bs.files n = some f ∧ f.isObsolete = false

theorem findInputs_ok_iff (bs : Storage) (fileNumbers : List UInt64) :
    findInputs bs fileNumbers = .ok () ↔
      ∀ n ∈ fileNumbers, ∃ f, bs.files n = some f ∧ f.isObsolete = false := by
  induction fileNumbers with
  | nil => exact ⟨fun _ _ hn => absurd hn not_mem_nil, fun _ => rfl⟩
  | cons n rest ih =>
    rw [findInputs, forall_mem_cons]
    cases h : bs.files n with
    | none => simp
    | some f => cases hf : f.isObsolete <;> simp [hf, ih]

theorem reread_ok_iff (view : Option Storage) (fileNumbers : List UInt64) :
    reread view fileNumbers = .ok () ↔ Found view fileNumbers := by
  cases view with
  | none => simp [reread, Found]
  | some bs =>
    rw [reread, findInputs_ok_iff]
    simp [Found]

/-! ## The thread of a job -/

/-- Who holds `mutex_`: the thread of a job inside `Run`, or anyone else. -/
inductive Holder where
  | job (id : Nat)
  | other
  deriving DecidableEq

inductive Phase where
  /-- At the start of `Run`. -/
  | run
  /-- `DoRunGCOnHardware`, with a compute unit, about to lock `mutex_`. -/
  | reading (cuIndex : UInt8)
  /-- `DoRunGCOnHardware`, past the lock, running the kernel. -/
  | kernel (cuIndex : UInt8)
  /-- `DoRunGCOnHardware`, queueing the new indexes. -/
  | queueing
  /-- `BuildIterator`, opening the inputs. -/
  | opening
  /-- `BuildIterator`, with the first `opened` inputs open, about to lock `mutex_`. -/
  | bitmaps (opened : Nat)
  /-- `DoRunGC`, past `BuildIterator`. -/
  | merging
  | returned
  deriving DecidableEq

/-- The compute unit that a thread has taken and not yet given back. -/
def Phase.cuIndex : Phase → Option UInt8
  | .reading cuIndex | .kernel cuIndex => some cuIndex
  | .run | .queueing | .opening | .bitmaps _ | .merging | .returned => none

theorem Phase.cuIndex_merging_or_returned (c : Prop) [Decidable c] :
    (if c then Phase.merging else .returned).cuIndex = none := by
  split <;> rfl

structure Job where
  gcOffload : Bool
  useBitmap : Bool
  inputs : List UInt64
  phase : Phase
  deriving DecidableEq

def Job.cuIndex (j : Job) : Option UInt8 := j.phase.cuIndex

structure Shared where
  mutex : Option Holder
  freeIndexQueue : List UInt8
  deriving DecidableEq

/-- The critical section in which both `DoRunGCOnHardware` and `BuildIterator` copy the
bitmaps of their files. Their early returns stand between `Lock` and `Unlock`. -/
def Job.copyBitmaps (id : Nat) (view : Option Storage) (fileNumbers : List UInt64) (next : Phase)
    (sh : Shared) (j : Job) : Shared × Job :=
  match sh.mutex with
  | some _ => (sh, j)
  | none =>
    match reread view fileNumbers with
    | .ok _ => (sh, { j with phase := next })
    | .error _ => ({ sh with mutex := some (.job id) }, { j with phase := .returned })

/-- The next move of the thread of job `id`. `opened` is how many inputs could be
opened, `view` the storage that it finds. -/
def Job.step (id : Nat) (opened : Nat) (view : Option Storage) (sh : Shared) (j : Job) :
    Shared × Job :=
  match j.phase with
  | .run =>
    if j.gcOffload then
      match getFreeCuIndex sh.freeIndexQueue with
      | some (cuIndex, rest) =>
        ({ sh with freeIndexQueue := rest }, { j with phase := .reading cuIndex })
      | none => (sh, { j with gcOffload := false, phase := .opening })
    else (sh, { j with phase := .opening })
  | .reading cuIndex => j.copyBitmaps id view j.inputs (.kernel cuIndex) sh
  | .kernel cuIndex =>
    ({ sh with freeIndexQueue := setFreeCuIndex sh.freeIndexQueue cuIndex },
      { j with phase := .queueing })
  | .queueing => (sh, { j with phase := .returned })
  | .opening =>
    if j.useBitmap then (sh, { j with phase := .bitmaps opened })
    else (sh, { j with phase := if j.inputs.length ≤ opened then .merging else .returned })
  | .bitmaps opened =>
    -- copying a bitmap overwrites the status of an input that could not be opened
    j.copyBitmaps id view (j.inputs.take opened)
      (if 0 < opened ∨ j.inputs.length ≤ opened then .merging else .returned) sh
  | .merging => (sh, { j with phase := .returned })
  | .returned => (sh, j)

/-- If the thread is about to read the storage and `mutex_` is free, it finds every
input it looks for. -/
def Job.FindsInputs (view : Option Storage) (sh : Shared) (j : Job) : Prop :=
  match j.phase with
  | .reading _ => sh.mutex = none → Found view j.inputs
  | .bitmaps opened => sh.mutex = none → Found view (j.inputs.take opened)
  | _ => True

variable {fileNumbers : List UInt64}

section
variable (id opened : Nat) {view : Option Storage} {sh : Shared} {j : Job}

theorem Job.copyBitmaps_found (next : Phase) (h : sh.mutex = none → Found view fileNumbers) :
    j.copyBitmaps id view fileNumbers next sh = (sh, j) ∨
      j.copyBitmaps id view fileNumbers next sh = (sh, { j with phase := next }) := by
  rw [Job.copyBitmaps]
  cases hm : sh.mutex with
  | some holder => exact .inl rfl
  | none =>
    have hread := (reread_ok_iff view fileNumbers).2 (h hm)
    rw [hread]
    exact .inr rfl

theorem Job.copyBitmaps_lost (next : Phase) (h : ¬ (sh.mutex = none → Found view fileNumbers)) :
    j.copyBitmaps id view fileNumbers next sh =
      ({ sh with mutex := some (.job id) }, { j with phase := .returned }) := by
  obtain ⟨hm, hlost⟩ := Classical.not_imp.1 h
  rw [Job.copyBitmaps, hm]
  cases hread : reread view fileNumbers with
  | ok u => exact absurd ((reread_ok_iff view fileNumbers).1 hread) hlost
  | error e => rfl

/-- A thread that finds its inputs leaves `mutex_` as it was. -/
theorem Job.step_mutex (h : j.FindsInputs view sh) :
    (j.step id opened view sh).1.mutex = sh.mutex := by
  rw [Job.step]
  rw [Job.FindsInputs] at h
  cases hp : j.phase with
  | run =>
    dsimp only
    split
    · split <;> rfl
    · rfl
  | reading cuIndex =>
    rw [hp] at h
    obtain hstep | hstep := Job.copyBitmaps_found (j := j) id (.kernel cuIndex) h <;>
      simp only [hstep]
  | bitmaps n =>
    rw [hp] at h
    dsimp only
    obtain hstep | hstep := Job.copyBitmaps_found (j := j) id _ h <;> rw [hstep]
  | opening =>
    dsimp only
    split <;> rfl
  | kernel | queueing | merging | returned => rfl

/-- A thread that finds its inputs takes a compute unit from the queue, puts its own
back or leaves the queue alone. -/
theorem Job.step_units (h : j.FindsInputs view sh) :
    ((j.step id opened view sh).1.freeIndexQueue ++
      (j.step id opened view sh).2.cuIndex.toList).Perm
        (sh.freeIndexQueue ++ j.cuIndex.toList) := by
  rw [Job.step]
  rw [Job.FindsInputs] at h
  cases hp : j.phase with
  | run =>
    dsimp only
    split
    · cases hq : sh.freeIndexQueue with
      | nil => simp [getFreeCuIndex, Job.cuIndex, Phase.cuIndex, hp, hq]
      | cons index rest =>
        simp [getFreeCuIndex, Job.cuIndex, Phase.cuIndex, hp, perm_append_singleton]
    · simp [Job.cuIndex, Phase.cuIndex, hp]
  | reading cuIndex =>
    rw [hp] at h
    dsimp only
    obtain hstep | hstep := Job.copyBitmaps_found (j := j) id (.kernel cuIndex) h
    · rw [hstep]
    · rw [hstep, Job.cuIndex, Job.cuIndex, hp]
      rfl
  | bitmaps n =>
    rw [hp] at h
    dsimp only
    obtain hstep | hstep := Job.copyBitmaps_found (j := j) id _ h
    · rw [hstep]
    · rw [hstep, Job.cuIndex, Job.cuIndex, hp, Phase.cuIndex_merging_or_returned]
      rfl
  | opening =>
    dsimp only
    split
    · simp [Job.cuIndex, Phase.cuIndex, hp]
    · simp only [Job.cuIndex, hp, Phase.cuIndex_merging_or_returned]
      rfl
  | kernel cuIndex => simp [Job.cuIndex, Phase.cuIndex, hp, setFreeCuIndex]
  | queueing | merging | returned => simp [Job.cuIndex, Phase.cuIndex, hp]

/-- A thread that does not find them returns with `mutex_`. -/
theorem Job.step_keeps_mutex (h : ¬ j.FindsInputs view sh) :
    (j.step id opened view sh).1.mutex = some (.job id) ∧
      (j.step id opened view sh).2.phase = .returned := by
  rw [Job.step]
  rw [Job.FindsInputs] at h
  cases hp : j.phase with
  | reading cuIndex =>
    rw [hp] at h
    simp only [Job.copyBitmaps_lost (j := j) id (.kernel cuIndex) h, and_self]
  | bitmaps n =>
    rw [hp] at h
    dsimp only
    rw [Job.copyBitmaps_lost (j := j) id _ h]
    exact ⟨rfl, rfl⟩
  | run | opening | kernel | queueing | merging | returned => simp [hp] at h

end

/-! ## All threads -/

structure State where
  shared : Shared
  /-- The calls of `Run` so far. -/
  jobs : List Job

def init : State := ⟨⟨none, computeUnits⟩, []⟩

inductive Op where
  /-- `Run` is called for a job with these inputs. -/
  | call (gcOffload useBitmap : Bool) (inputs : List UInt64)
  /-- The thread of a job moves. -/
  | move (id opened : Nat) (view : Option Storage)
  /-- Another thread locks `mutex_`, or unlocks it. `BackgroundGC` does so itself once
  `Run` has returned. -/
  | lock
  | unlock

def exec (s : State) : Op → State
  | .call gcOffload useBitmap inputs =>
    { s with jobs := s.jobs ++ [⟨gcOffload, useBitmap, inputs, .run⟩] }
  | .move id opened view =>
    match s.jobs[id]? with
    | none => s
    | some j =>
      { shared := (j.step id opened view s.shared).1
        jobs := s.jobs.set id (j.step id opened view s.shared).2 }
  | .lock =>
    match s.shared.mutex with
    | none => { s with shared := { s.shared with mutex := some .other } }
    | some _ => s
  | .unlock =>
    if s.shared.mutex = some .other then { s with shared := { s.shared with mutex := none } } else s

def InputsFound (s : State) : Op → Prop
  | .move id _ view => ∀ j, s.jobs[id]? = some j → j.FindsInputs view s.shared
  | _ => True

def inUse (s : State) : List UInt8 := s.jobs.filterMap Job.cuIndex

/-- No job that has returned holds `mutex_`, and the free compute units and those in use
are all of them, once each. -/
def Released (s : State) : Prop :=
  (∀ id j, s.jobs[id]? = some j → j.phase = .returned → s.shared.mutex ≠ some (.job id)) ∧
    (s.shared.freeIndexQueue ++ inUse s).Perm computeUnits ∧
    (s.shared.freeIndexQueue ++ inUse s).Nodup

/-- Between its moves a job does not hold `mutex_`. -/
structure Conserved (s : State) : Prop where
  free : ∀ id, s.shared.mutex ≠ some (.job id)
  units : (s.shared.freeIndexQueue ++ inUse s).Perm computeUnits

theorem computeUnits_nodup : computeUnits.Nodup := by decide

variable {s : State}

theorem Conserved.released (h : Conserved s) : Released s :=
  ⟨fun id _ _ _ => h.free id, h.units, h.units.symm.nodup computeUnits_nodup⟩

theorem filterMap_cons_toList (k : Job) (jobs : List Job) :
    (k :: jobs).filterMap Job.cuIndex = k.cuIndex.toList ++ jobs.filterMap Job.cuIndex := by
  rw [filterMap_cons]
  cases k.cuIndex <;> rfl

variable {id : Nat}

theorem filterMap_set_perm {jobs : List Job} {j : Job} (h : jobs[id]? = some j) (j' : Job) :
    ((jobs.set id j').filterMap Job.cuIndex ++ j.cuIndex.toList).Perm
      (jobs.filterMap Job.cuIndex ++ j'.cuIndex.toList) := by
  induction jobs generalizing id with
  | nil => cases h
  | cons k jobs ih =>
    cases id with
    | zero =>
      have hk : k = j := Option.some.inj h
      subst hk
      rw [set_cons_zero, filterMap_cons_toList, filterMap_cons_toList]
      refine perm_append_comm.trans ?_
      rw [append_assoc]
      exact perm_append_comm.append_left _
    | succ id =>
      rw [set_cons_succ, filterMap_cons_toList, filterMap_cons_toList, append_assoc,
        append_assoc]
      exact (ih h).append_left _

theorem Conserved.move (h : Conserved s) {id opened : Nat} {view : Option Storage}
    (hfound : InputsFound s (.move id opened view)) :
    Conserved (exec s (.move id opened view)) := by
  rw [exec]
  cases hj : s.jobs[id]? with
  | none => exact h
  | some j =>
    have hmutex := Job.step_mutex id opened (hfound j hj)
    have hunits := Job.step_units id opened (hfound j hj)
    constructor
    · intro id'
      rw [hmutex]
      exact h.free id'
    · refine List.Perm.trans ?_ h.units
      -- add the unit of the thread before its move on both sides
      apply (perm_append_right_iff j.cuIndex.toList).1
      have hset := filterMap_set_perm hj (j.step id opened view s.shared).2
      dsimp only [inUse] at hset ⊢
      calc _ = _ := append_assoc _ _ _
        List.Perm _ _ := hset.append_left _
        List.Perm _ _ := perm_append_comm.append_left _
        _ = _ := (append_assoc _ _ _).symm
        List.Perm _ _ := hunits.append_right _
        _ = _ := append_assoc _ _ _
        List.Perm _ _ := perm_append_comm.append_left _
        _ = _ := (append_assoc _ _ _).symm

theorem conserved_exec (h : Conserved s) (op : Op) (hfound : InputsFound s op) :
    Conserved (exec s op) := by
  cases op with
  | call gcOffload useBitmap inputs =>
    refine ⟨h.free, ?_⟩
    have hnone : inUse (exec s (.call gcOffload useBitmap inputs)) = inUse s := by
      rw [exec, inUse, filterMap_append, inUse]
      exact append_nil _
    rw [hnone]
    exact h.units
  | move id opened view => exact h.move hfound
  | lock =>
    rw [exec]
    cases hm : s.shared.mutex with
    | none => exact ⟨fun _ hj => Holder.noConfusion (Option.some.inj hj), h.units⟩
    | some holder => exact h
  | unlock =>
    rw [exec]
    split
    · exact ⟨fun _ hj => absurd hj.symm (Option.some_ne_none _), h.units⟩
    · exact h

/-- A job that does not find its inputs returns with `mutex_`. -/
theorem inputsFound_of_released (op : Op) (h : Released (exec s op)) : InputsFound s op := by
  cases op with
  | call | lock | unlock => trivial
  | move id opened view =>
    intro j hj
    by_contra hlost
    have hkept := Job.step_keeps_mutex id opened hlost
    have hlt : id < s.jobs.length := (List.getElem?_eq_some_iff.1 hj).1
    simp only [exec, hj] at h
    refine h.1 id _ ?_ hkept.2 hkept.1
    exact getElem?_set_self hlt

theorem conserved_init : Conserved init :=
  ⟨fun _ hm => absurd hm.symm (Option.some_ne_none _), List.Perm.refl _⟩

/-- The jobs release what they took, in every run, exactly when each of them finds the
inputs it looks for when it reads the storage again. -/
theorem exits_release_iff (ops : List Op) :
    Always exec Released init ops ↔ Along exec InputsFound init ops :=
  always_iff_along Conserved (fun _ op h hfound => conserved_exec h op hfound)
    (fun _ h => h.released) (fun _ op _ h => inputsFound_of_released op h) conserved_init

/-- File 7 after `DeleteBlobFilesInRanges` has made it obsolete. -/
def obsoletedInput : Storage :=
  ((({} : Storage).addBlobFile { file := { fileNumber := 7 } }).markFileObsolete 7 0).getD {}

def hardwareRun : List Op :=
  [.call true true [7], .move 0 0 none, .move 0 0 (some obsoletedInput)]

/-- The same for a job that copies the bitmaps in `BuildIterator`. -/
def bitmapRun : List Op :=
  [.call false true [7], .move 0 0 none, .move 0 1 none, .move 0 0 (some obsoletedInput)]

theorem exits_keep_mutex_and_unit :
    ¬ Always exec Released init hardwareRun ∧ ¬ Always exec Released init bitmapRun ∧
      (hardwareRun.foldl exec init).shared = ⟨some (.job 0), [2, 3, 4, 5, 6, 7, 8]⟩ ∧
      inUse (hardwareRun.foldl exec init) = [] := by
  refine ⟨?_, ?_, rfl, rfl⟩
  · intro h
    exact h.2.2.2.1 0 ⟨true, true, [7], .returned⟩ rfl rfl rfl
  · intro h
    exact h.2.2.2.2.1 0 ⟨false, true, [7], .returned⟩ rfl rfl rfl

end TitanGC.Scheduling.JobExits
