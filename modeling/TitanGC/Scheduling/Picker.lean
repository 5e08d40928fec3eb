import Mathlib.Order.Basic
import TitanGC.Accounting.Listener

/-!
# Picking the inputs of a garbage collection

`ComputeGCScore` lists the files of a storage that are not obsolete, those with
the most garbage first; `PickBlobGC` goes through that list later, when the files
may have changed. The ratios are doubles: all that is used of them is how they
compare. A file that is not found is read for the log message nevertheless, which
is an error here.
-/

namespace TitanGC.Scheduling.Picker

open Accounting.Tracking Accounting.Listener List

variable {R : Type} [LinearOrder R]

structure GCOptions (R : Type) where
  blobFileDiscardableRatio : R
  mergeSmallFileThreshold : UInt64
  maxGcBatchSize : UInt64
  minGcBatchSize : UInt64
  /-- `BlobFileMeta::GetDiscardableRatio`. -/
  discardableRatio : TrackedFile → R

structure GCScore (R : Type) where
  fileNumber : UInt64
  score : R
  deriving DecidableEq

/-! ## Scores -/

def GCOptions.score (o : GCOptions R) (f : TrackedFile) : R :=
  if f.file.fileSize < o.mergeSmallFileThreshold then o.blobFileDiscardableRatio
  else o.discardableRatio f

/-- What `ComputeGCScore` may leave in `gc_score_`: it goes through a hash map, and its
sort is not stable. -/
structure ComputeGCScore (o : GCOptions R) (st : Storage) (gcScore : List (GCScore R)) : Prop where
  once : (gcScore.map (·.fileNumber)).Nodup
  files : ∀ n, n ∈ gcScore.map (·.fileNumber) ↔ ∃ f, st.files n = some f ∧ f.isObsolete = false
  scores : ∀ g ∈ gcScore, ∀ f, st.files g.fileNumber = some f → g.score = o.score f
  sorted : gcScore.Pairwise fun a b => b.score ≤ a.score

/-! ## Picking -/

/-- The local variables of `PickBlobGC`. -/
structure Picking where
  blobFiles : List (UInt64 × TrackedFile) := []
  batchSize : UInt64 := 0
  estimateOutputSize : UInt64 := 0
  stopPicking : Bool := false
  maybeContinueNextTime : Bool := false
  nextGcSize : UInt64 := 0

def checkBlobFile (f : TrackedFile) : Bool := f.state == .normal

def Picking.take (o : GCOptions R) (p : Picking) (fileNumber : UInt64) (f : TrackedFile) : Picking :=
  { p with
    blobFiles := p.blobFiles ++ [(fileNumber, f)]
    batchSize := p.batchSize + f.file.fileSize
    estimateOutputSize := p.estimateOutputSize + f.liveDataSize
    stopPicking := decide (o.maxGcBatchSize ≤ p.batchSize + f.file.fileSize) }

/-- The loop of `PickBlobGC`; the error is the file number that was not found. -/
def pickLoop (o : GCOptions R) (st : Storage) : List (GCScore R) → Picking → Except UInt64 Picking
  | [], p => .ok p
  | g :: rest, p =>
    if g.score < o.blobFileDiscardableRatio then .ok p
    else
      match st.files g.fileNumber with
      | none => .error g.fileNumber
      | some f =>
        if checkBlobFile f = false then pickLoop o st rest p
        else if p.stopPicking = false then pickLoop o st rest (p.take o g.fileNumber f)
        else
          let nextGcSize := p.nextGcSize + f.file.fileSize
          if o.minGcBatchSize < nextGcSize then
            .ok { p with nextGcSize := nextGcSize, maybeContinueNextTime := true }
          else pickLoop o st rest { p with nextGcSize := nextGcSize }

structure BlobGC where
  inputs : List UInt64
  triggerNext : Bool
  deriving DecidableEq

def Picking.worthwhile (o : GCOptions R) (p : Picking) : Bool :=
  match p.blobFiles with
  | [] => false
  | [(_, f)] =>
    -- one small file is not merged alone
    decide (o.minGcBatchSize ≤ p.batchSize) &&
      !(decide (f.file.fileSize ≤ o.mergeSmallFileThreshold) &&
        decide (o.discardableRatio f < o.blobFileDiscardableRatio))
  | _ => decide (o.minGcBatchSize ≤ p.batchSize)

def pickBlobGC (o : GCOptions R) (st : Storage) (gcScore : List (GCScore R)) :
    Except UInt64 (Option BlobGC) :=
  match pickLoop o st gcScore {} with
  | .error n => .error n
  | .ok p =>
    .ok (if p.worthwhile o then some ⟨p.blobFiles.map (·.1), p.maybeContinueNextTime⟩ else none)

section
variable {o : GCOptions R} {st : Storage} {gcScore : List (GCScore R)}

/-- The loop reads no file that is missing. -/
theorem pickLoop_ok (h : ∀ g ∈ gcScore, ∃ f, st.files g.fileNumber = some f) (p : Picking) :
    ∃ p', pickLoop o st gcScore p = .ok p' := by
  induction gcScore generalizing p with
  | nil => exact ⟨p, rfl⟩
  | cons g rest ih =>
    have hrest : ∀ g ∈ rest, ∃ f, st.files g.fileNumber = some f :=
      fun g' hg' => h g' (mem_cons_of_mem g hg')
    obtain ⟨f, hf⟩ := h g mem_cons_self
    rw [pickLoop]
    split
    · exact ⟨p, rfl⟩
    · rw [hf]
      dsimp only
      split
      · exact ih hrest p
      · split
        · exact ih hrest _
        · split
          · exact ⟨_, rfl⟩
          · exact ih hrest _

/-- What the loop picks: files of the list, in its order, that are in state `kNormal`. -/
theorem pickLoop_picked {p p' : Picking} (h : pickLoop o st gcScore p = .ok p') :
    ∃ picked, p'.blobFiles = p.blobFiles ++ picked ∧
      (picked.map (·.1)).Sublist (gcScore.map (·.fileNumber)) ∧
      ∀ x ∈ picked, st.files x.1 = some x.2 ∧ x.2.state = .normal := by
  induction gcScore generalizing p with
  | nil =>
    cases h
    exact ⟨[], (append_nil _).symm, List.Sublist.refl _, forall_mem_nil _⟩
  | cons g rest ih =>
    have hnone : ∃ picked, p.blobFiles = p.blobFiles ++ picked ∧
        (picked.map (·.1)).Sublist ((g :: rest).map (·.fileNumber)) ∧
        ∀ x ∈ picked, st.files x.1 = some x.2 ∧ x.2.state = .normal :=
      ⟨[], (append_nil _).symm, nil_sublist _, forall_mem_nil _⟩
    rw [pickLoop] at h
    split at h
    · cases h
      exact hnone
    · cases hf : st.files g.fileNumber with
      | none =>
        rw [hf] at h
        cases h
      | some f =>
        rw [hf] at h
        dsimp only at h
        split at h
        · obtain ⟨picked, heq, hsub, hall⟩ := ih h
          exact ⟨picked, heq, hsub.cons _, hall⟩
        · next hcheck =>
            split at h
            · obtain ⟨picked, heq, hsub, hall⟩ := ih h
              refine ⟨(g.fileNumber, f) :: picked, ?_, hsub.cons_cons _, ?_⟩
              · rw [heq]
                exact append_assoc _ _ _
              · intro x hx
                rcases mem_cons.1 hx with rfl | hx
                · have hstate : checkBlobFile f = true := by simpa using hcheck
                  exact ⟨hf, beq_iff_eq.1 hstate⟩
                · exact hall x hx
            · split at h
              · cases h
                exact hnone
              · obtain ⟨picked, heq, hsub, hall⟩ := ih h
                exact ⟨picked, heq, hsub.cons _, hall⟩

theorem pickBlobGC_ne_error (h : ∀ g ∈ gcScore, ∃ f, st.files g.fileNumber = some f) (n : UInt64) :
    pickBlobGC o st gcScore ≠ .error n := by
  obtain ⟨p, hp⟩ := pickLoop_ok (o := o) h {}
  rw [pickBlobGC, hp]
  intro herror
  cases herror

theorem pickBlobGC_inputs {gc : BlobGC} (h : pickBlobGC o st gcScore = .ok (some gc)) :
    gc.inputs.Sublist (gcScore.map (·.fileNumber)) ∧
      ∀ n ∈ gc.inputs, ∃ f, st.files n = some f ∧ f.state = .normal := by
  rw [pickBlobGC] at h
  cases hloop : pickLoop o st gcScore {} with
  | error n =>
    rw [hloop] at h
    cases h
  | ok p =>
    rw [hloop] at h
    have hp := Except.ok.inj h
    split at hp
    · obtain ⟨picked, heq, hsub, hall⟩ := pickLoop_picked hloop
      have hinputs : gc.inputs = picked.map (·.1) := by
        rw [← Option.some.inj hp, heq]
        rfl
      rw [hinputs]
      refine ⟨hsub, fun n hn => ?_⟩
      obtain ⟨x, hx, rfl⟩ := mem_map.1 hn
      exact ⟨x.2, hall x hx⟩
    · cases hp

end

/-! ## The files of a job -/

/-- `MarkFilesBeingGC` and `ReleaseGcFiles` go through the files they hold. -/
def transitAll (st : Storage) (event : FileEvent) (fileNumbers : List UInt64) : Storage :=
  fileNumbers.foldl (fun st n => st.modify n (·.fileStateTransit event)) st

def markFilesBeingGC (st : Storage) (inputs : List UInt64) : Storage := transitAll st .gcBegin inputs

def releaseGcFiles (st : Storage) (inputs outputs : List UInt64) : Storage :=
  transitAll (transitAll st .gcCompleted inputs) .gcCompleted outputs

variable (st : Storage)

theorem transitAll_obsoleteFiles (event : FileEvent) (fileNumbers : List UInt64) :
    (transitAll st event fileNumbers).obsoleteFiles = st.obsoleteFiles := by
  induction fileNumbers generalizing st with
  | nil => rfl
  | cons n rest ih => exact ih _

theorem transitAll_files {event : FileEvent} (htwice : ∀ f : TrackedFile,
      (f.fileStateTransit event).fileStateTransit event = f.fileStateTransit event)
    (fileNumbers : List UInt64) (k : UInt64) :
    (transitAll st event fileNumbers).files k =
      if k ∈ fileNumbers then (st.files k).map (·.fileStateTransit event) else st.files k := by
  induction fileNumbers generalizing st with
  | nil => rw [if_neg not_mem_nil]; rfl
  | cons n rest ih =>
    rw [show transitAll st event (n :: rest) =
      transitAll (st.modify n (·.fileStateTransit event)) event rest from rfl, ih, modify_files]
    by_cases hn : k = n
    · subst hn
      rw [if_pos rfl, if_pos mem_cons_self, Option.map_map]
      split
      · exact congrArg (Option.map · _) (funext htwice)
      · rfl
    · rw [if_neg hn]
      simp only [mem_cons, hn, false_or]

variable (f : TrackedFile)

theorem gcBegin_twice :
    (f.fileStateTransit .gcBegin).fileStateTransit .gcBegin = f.fileStateTransit .gcBegin := rfl

theorem gcCompleted_twice :
    (f.fileStateTransit .gcCompleted).fileStateTransit .gcCompleted =
      f.fileStateTransit .gcCompleted := by
  simp only [TrackedFile.fileStateTransit]
  split <;> simp_all

theorem markFilesBeingGC_files (inputs : List UInt64) (k : UInt64) :
    (markFilesBeingGC st inputs).files k =
      if k ∈ inputs then (st.files k).map (·.fileStateTransit .gcBegin) else st.files k :=
  transitAll_files st gcBegin_twice inputs k

theorem releaseGcFiles_files (inputs outputs : List UInt64) (k : UInt64) :
    (releaseGcFiles st inputs outputs).files k =
      if k ∈ inputs ∨ k ∈ outputs then (st.files k).map (·.fileStateTransit .gcCompleted)
      else st.files k := by
  rw [releaseGcFiles, transitAll_files _ gcCompleted_twice, transitAll_files _ gcCompleted_twice]
  by_cases hi : k ∈ inputs
  · by_cases ho : k ∈ outputs
    · rw [if_pos hi, if_pos ho, if_pos (.inl hi), Option.map_map]
      exact congrArg (Option.map · _) (funext gcCompleted_twice)
    · rw [if_pos hi, if_neg ho, if_pos (.inl hi)]
  · rw [if_neg hi]
    simp only [hi, false_or]

end TitanGC.Scheduling.Picker
