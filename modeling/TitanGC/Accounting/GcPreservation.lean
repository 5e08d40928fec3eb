import TitanGC.Accounting.GcHistory
import TitanGC.Accounting.Preservation

/-!
# The balance with garbage collection

The balance of `Balance` for histories with garbage collection. The memtables
reference files as the tables do, overwritten entries included; a job owes what it has
still to write back or to subtract; and what is lost is never subtracted. A file that
belongs to a garbage collection counts as a settled one.
-/

namespace TitanGC.Accounting.GcPreservation

open Lib.OrderedMap List Function Format.Coding Format.BlobFormat
open Manifest.VersionEdits Manifest.Logging
open Offload.Reads (BaseResult)
open Scheduling.Picker (markFilesBeingGC releaseGcFiles markFilesBeingGC_files releaseGcFiles_files)
open Scheduling.Jobs (outputEdit deleteInputsEdit deleteEdit)
open SizeCollector Tracking Listener Balance
open History (refs Referenced Sane Event notify finishEdit refs_append refs_eq_zero refs_pos refs_diff
  refs_le_of_subperm referenced_singleton not_referenced_nil)
open Preservation (Compacts EventOk delta_eq_zero delta_bounds balanced_install logAndApply_added EventOk.totals
  notify_failed notify_handled onFlushCompleted_files onCompactionCompleted_accounts
    onCompactionCompleted_handled)
open GcHistory BlobFiles

/-! ## One file -/

/-- A file that belongs to a garbage collection has its size. -/
def settle (f : TrackedFile) : TrackedFile := if collecting f then { f with state := .normal } else f

theorem collecting_iff {f : TrackedFile} :
    collecting f = true ↔ f.state = .beingGC ∨ f.state = .pendingGC := by
  rw [collecting, Bool.or_eq_true, beq_iff_eq, beq_iff_eq]

theorem collecting_settled {f : TrackedFile} (h : collecting f = true) : f.state ≠ .pendingLSM := by
  rcases collecting_iff.mp h with hs | hs <;> simp [hs]

variable (f : TrackedFile)

theorem settle_live : (settle f).liveDataSize = f.liveDataSize := by
  rw [settle]
  split <;> rfl

theorem settle_pending {f : TrackedFile} : (settle f).state = .pendingLSM ↔ f.state = .pendingLSM := by
  rw [settle]
  split
  · rename_i h
    rcases collecting_iff.mp h with hs | hs <;> simp [hs]
  · rfl

theorem settle_obsolete {f : TrackedFile} : (settle f).state = .obsolete ↔ f.state = .obsolete := by
  rw [settle]
  split
  · rename_i h
    rcases collecting_iff.mp h with hs | hs <;> simp [hs]
  · rfl

theorem settle_of_balanced {f : TrackedFile} {refs owed slack : ℕ} {ds : List ℤ}
    (h : Balanced f refs owed slack ds) : settle f = f := by
  have hnot : ¬ collecting f = true := by
    rw [collecting_iff]
    rcases h.states with hs | hs | hs | hs <;> simp [hs]
  rw [settle, if_neg hnot]

section

variable {f : TrackedFile} {refs owed slack : ℕ} {ds : List ℤ}

/-- What is referenced, owed and lost counts together. -/
theorem balanced_move {refs' owed' slack' : ℕ} (h : Balanced f refs owed slack ds)
    (hsum : refs' + owed' + slack' = refs + owed + slack) : Balanced f refs' owed' slack' ds where
  states := h.states
  balance := by
    have hbalance := h.balance
    omega
  bounded := h.bounded
  oneIncrease := h.oneIncrease
  settled := h.settled
  gone := h.gone

/-- A difference that a settled file does not take is lost. -/
theorem balanced_ignore {d : ℤ} {rest : List ℤ} (h : Balanced f refs owed slack (d :: rest))
    (hf : f.state ≠ .pendingLSM) : Balanced f refs owed (slack + (-d).toNat) rest where
  states := h.states
  balance := by
    have hbalance := h.balance
    have hd := (h.settled hf).2 d mem_cons_self
    rw [sum_cons] at hbalance
    push_cast
    omega
  bounded e he := h.bounded e (mem_cons_of_mem d he)
  oneIncrease := (pairwise_cons.mp h.oneIncrease).2
  settled hf := ⟨(h.settled hf).1, fun e he => (h.settled hf).2 e (mem_cons_of_mem d he)⟩
  gone := h.gone

/-- A file that nothing is about yet, except the job that has copied records to it. -/
theorem balanced_start (hstate : f.state = .pendingLSM ∧ f.liveDataSize = 0 ∧ owed = 0 ∨
      f.state = .normal ∧ f.liveDataSize.toNat = owed ∧ owed < 2 ^ 63) (hzero : ∀ d ∈ ds, d = 0) :
    Balanced f 0 owed 0 ds := by
  have hsum : ds.sum = 0 := sum_eq_zero hzero
  have hone : OneIncrease ds := by
    refine pairwise_iff_forall_sublist.mpr fun {a b} hsub hab => ?_
    rw [hzero a (hsub.subset mem_cons_self)] at hab
    exact absurd hab.1 (lt_irrefl 0)
  have hbounded : ∀ d ∈ ds, -2 ^ 63 < d ∧ d < 2 ^ 63 := by
    intro d hd
    rw [hzero d hd]
    decide
  rcases hstate with ⟨hs, hlive, howed⟩ | ⟨hs, hlive, hsmall⟩
  · refine ⟨.inr (.inl hs), ?_, hbounded, hone, fun hnot => absurd hs hnot, fun hob => ?_⟩
    · rw [value, if_pos hs, hsum, hlive, howed]
      rfl
    · rw [hs] at hob
      cases hob
  · have hne : f.state ≠ .pendingLSM := by
      rw [hs]
      exact FileState.noConfusion
    refine ⟨.inl hs, ?_, hbounded, hone, fun _ => ⟨hlive ▸ hsmall, fun d hd => (hzero d hd).le⟩,
      fun hob => ?_⟩
    · rw [value, if_neg hne, hsum, hlive]
      simp
    · rw [hs] at hob
      cases hob

end

/-! ## The invariant -/

def total (l : Family) (file : UInt64) : ℕ := refs l.tables file + referenced l.mem file

def deltas (l : Family) (file : UInt64) : List ℤ := l.undelivered.map (Notification.delta file)

def owed (l : Family) (file : UInt64) : ℕ := (l.jobs.map (Job.owes file)).sum

/-- A garbage collection has the file, or has written an index of it that is in no
table yet, or whose flush is still to be notified. -/
def Relocated (l : Family) (file : UInt64) : Prop :=
  Mentions l.mem file ∨
  (∃ p ∈ l.undelivered, ∃ t, p.event = .flush t ∧ Mentions t.entries file ∧ file ∉ p.created) ∨
  ∃ j ∈ l.jobs, file ∈ j.files

structure Untouched (l : Family) (file : UInt64) : Prop where
  tables : ¬ Referenced l.tables file
  mem : ¬ Mentions l.mem file
  events : ∀ p ∈ l.undelivered, ¬ Referenced p.event.tables file
  jobs : ∀ j ∈ l.jobs, file ∉ j.files

/-- The new indexes of a job are of its outputs, and have bytes. -/
structure JobOk (j : Job) : Prop where
  small : ∀ file, j.owes file < 2 ^ 63
  own : ∀ file, file ∉ j.outputs → j.owes file = 0
  rewrites : ∀ pending dropped, j.phase = .rewriting pending dropped → Ordered dropped ∧
    ∀ r ∈ pending.filterMap (·.entry.reference), r.1 ∈ j.outputs ∧ 0 < r.2

structure Ok (used : List UInt64) (slack : UInt64 → ℕ) (st : Storage) (l : Family) : Prop where
  sane : ∀ t ∈ l.tables, Sane t
  small : ∀ file, refs l.tables file < 2 ^ 63
  positive : Positive l.mem
  events : ∀ p ∈ l.undelivered, EventOk p.event
  jobs : ∀ j ∈ l.jobs, JobOk j
  balanced : ∀ file f, st.files file = some f → f.state ≠ .obsolete →
    Balanced (settle f) (total l file) (owed l file) (slack file) (deltas l file)
  untouched : ∀ file, file ∉ used ∨ file ∈ l.finished → Untouched l file ∧ slack file = 0
  waiting : ∀ file f, file ∈ l.finished → st.files file = some f → f.state = .pendingLSM
  known : ∀ file ∈ l.finished, file ∈ used
  settled : ∀ file f, Relocated l file → st.files file = some f → f.state ≠ .pendingLSM
  stored : ∀ file, (st.files file).isSome → file ∈ used

structure Inv (slack : UInt32 → UInt64 → ℕ) (s : State) : Prop where
  ok : ∀ cf, Ok s.used (slack cf) (s.blobs.storage cf) (s.family cf)
  distinct : ∀ cf cf' file, ((s.blobs.storage cf).files file).isSome →
    ((s.blobs.storage cf').files file).isSome → cf = cf'

/-- A column family is as before when files go and others get new numbers. -/
theorem Ok.mono {used used' : List UInt64} {slack : UInt64 → ℕ} {st st' : Storage} {l : Family}
    (h : Ok used slack st l) (hused : ∀ file ∈ used, file ∈ used')
    (hfiles : ∀ file f, st'.files file = some f → st.files file = some f) : Ok used' slack st' l where
  sane := h.sane
  small := h.small
  positive := h.positive
  events := h.events
  jobs := h.jobs
  balanced file f hf := h.balanced file f (hfiles file f hf)
  untouched file hfile := h.untouched file (hfile.imp_left (mt (hused file)))
  waiting file f hfin hf := h.waiting file f hfin (hfiles file f hf)
  known file hfin := hused file (h.known file hfin)
  settled file f hr hf := h.settled file f hr (hfiles file f hf)
  stored file hfile := by
    obtain ⟨f, hf⟩ := Option.isSome_iff_exists.mp hfile
    exact hused file (h.stored file (Option.isSome_of_eq_some (hfiles file f hf)))

/-- An operation on one column family. -/
theorem Inv.of_family {slack slack' : UInt32 → UInt64 → ℕ} {s s' : State} (h : Inv slack s)
    (cf : UInt32) {l : Family} (hfamily : s'.family = update s.family cf l)
    (hused : ∀ file ∈ s.used, file ∈ s'.used)
    (hother : ∀ cf', cf' ≠ cf → slack' cf' = slack cf' ∧
      ∀ file f, (s'.blobs.storage cf').files file = some f → (s.blobs.storage cf').files file = some f)
    (hok : Ok s'.used (slack' cf) (s'.blobs.storage cf) l)
    (hnew : ∀ file g, (s'.blobs.storage cf).files file = some g →
      (∃ f, (s.blobs.storage cf).files file = some f) ∨ file ∉ s.used) : Inv slack' s' := by
  have hsome : ∀ cf', cf' ≠ cf → ∀ file, ((s'.blobs.storage cf').files file).isSome →
      ((s.blobs.storage cf').files file).isSome := by
    intro cf' hcf file hfile
    obtain ⟨f, hf⟩ := Option.isSome_iff_exists.mp hfile
    rw [(hother cf' hcf).2 file f hf]
    rfl
  constructor
  · intro cf'
    by_cases hcf : cf' = cf
    · subst hcf
      rw [hfamily, update_self]
      exact hok
    · rw [hfamily, update_of_ne hcf, (hother cf' hcf).1]
      exact (h.ok cf').mono hused (hother cf' hcf).2
  · refine distinct_of_family h.distinct (fun cf' => (h.ok cf').stored) cf hsome fun file hfile => ?_
    obtain ⟨g, hg⟩ := Option.isSome_iff_exists.mp hfile
    exact (hnew file g hg).imp_left Option.isSome_iff_exists.mpr

/-- Files may go, and others get new numbers. -/
theorem Inv.mono {slack : UInt32 → UInt64 → ℕ} {s s' : State} (h : Inv slack s)
    (hfamily : s'.family = s.family)
    (hused : ∀ file ∈ s.used, file ∈ s'.used)
    (hfiles : ∀ cf file f, (s'.blobs.storage cf).files file = some f →
      (s.blobs.storage cf).files file = some f) : Inv slack s' := by
  have hsame := update_eq_self 0 s.family
  exact h.of_family 0 (hfamily.trans hsame.symm) hused (fun cf _ => ⟨rfl, hfiles cf⟩)
    ((h.ok 0).mono hused (hfiles 0)) fun file g hg => .inl ⟨g, hfiles 0 file g hg⟩

/-! ## Facts about the parts -/

variable {p : Notification}

theorem notification_delta_eq_zero {file : UInt64} (h : ¬ Referenced p.event.tables file) :
    p.delta file = 0 := by
  have hzero := delta_eq_zero h
  rw [Notification.delta]
  cases hevent : p.event with
  | flush t =>
    rw [hevent, Event.delta] at hzero
    dsimp only
    rw [hzero, ite_self]
  | compaction status inputs outputs outputLevel =>
    dsimp only
    rw [← hevent]
    exact hzero

theorem notification_delta_bounds (h : EventOk p.event) (file : UInt64) :
    -2 ^ 63 < p.delta file ∧ p.delta file < 2 ^ 63 := by
  have hbounds := delta_bounds h file
  rw [Notification.delta]
  cases hevent : p.event with
  | flush t =>
    rw [hevent, Event.delta] at hbounds
    dsimp only
    split
    · exact hbounds
    · decide
  | compaction status inputs outputs outputLevel =>
    dsimp only
    rw [← hevent]
    exact hbounds

section

variable {used : List UInt64} {slack : UInt64 → ℕ} {st : Storage} {l : Family} {file : UInt64}

theorem referenced_eq_zero {entries : List Entry} (h : ¬ Mentions entries file) :
    referenced entries file = 0 :=
  Nat.eq_zero_of_not_pos fun hpos => h (mentions_of_referenced hpos)

theorem Untouched.deltas (h : Untouched l file) : ∀ d ∈ deltas l file, d = 0 :=
  forall_mem_map.mpr fun p hp => notification_delta_eq_zero (h.events p hp)

theorem Untouched.total (h : Untouched l file) : total l file = 0 := by
  rw [GcPreservation.total, refs_eq_zero h.tables, referenced_eq_zero h.mem]

theorem Untouched.owed (hjobs : ∀ j ∈ l.jobs, JobOk j) (h : Untouched l file) : owed l file = 0 := by
  rw [GcPreservation.owed, sum_eq_zero_iff, forall_mem_map]
  exact fun j hj => (hjobs j hj).own file fun hout => h.jobs j hj (mem_append_right _ hout)

theorem Untouched.not_relocated (h : Untouched l file) : ¬ Relocated l file := by
  intro hr
  rcases hr with hm | ⟨p, hp, t, ht, hm, -⟩ | ⟨j, hj, hfile⟩
  · exact h.mem hm
  · refine h.events p hp ?_
    rw [ht]
    exact referenced_singleton.mpr hm
  · exact h.jobs j hj hfile

end

/-! ## New files -/

variable {l l' : Family}

section

variable {slack : UInt32 → UInt64 → ℕ} {s : State} (options : UInt32 → CFOptions)

/-- A new file waits for its flush or compaction, or has what its job has copied. -/
def Fresh (l : Family) (n : UInt64) (g : TrackedFile) : Prop :=
  n ∈ l.finished ∧ g.state = .pendingLSM ∧ g.liveDataSize = 0 ∨
    n ∉ l.finished ∧ g.state = .pendingGC ∧ g.liveDataSize.toNat = owed l n ∧ owed l n < 2 ^ 63

/-- New files are given to a flush, a compaction or a job. -/
theorem ok_added {used numbers : List UInt64} {slack : UInt64 → ℕ} {st st' : Storage}
    (h : Ok used slack st l) (hfresh : ∀ n ∈ numbers, n ∉ used) (htables : l'.tables = l.tables)
    (hmem : l'.mem = l.mem) (hevents : l'.undelivered = l.undelivered)
    (hjobs : ∀ j ∈ l'.jobs, JobOk j) (howed : ∀ file, file ∉ numbers → owed l' file = owed l file)
    (hfinished : ∀ file ∈ l'.finished, file ∈ l.finished ∨ file ∈ numbers)
    (howner : ∀ j ∈ l'.jobs, ∀ file ∈ j.files,
      (∃ j ∈ l.jobs, file ∈ j.files) ∨ file ∈ numbers ∧ file ∉ l'.finished)
    (hfiles : ∀ n g, st'.files n = some g → st.files n = some g ∨ n ∈ numbers ∧ Fresh l' n g) :
    Ok (used ++ numbers) slack st' l' := by
  have hdeltas : ∀ file, deltas l' file = deltas l file := fun file => by
    rw [deltas, hevents, ← deltas]
  have htotal : ∀ file, total l' file = total l file := fun file => by
    rw [total, htables, hmem, ← total]
  have huntouched : ∀ file, file ∉ used ++ numbers ∨ file ∈ l'.finished → file ∉ used ∨
    file ∈ l.finished := by
    intro file hfile
    rcases hfile with hfile | hfile
    · exact .inl fun hused => hfile (mem_append_left _ hused)
    · exact (hfinished file hfile).symm.imp_left (hfresh file)
  have hold : ∀ file f, st.files file = some f → file ∉ numbers := fun file f hf hn =>
    hfresh file hn (h.stored file (Option.isSome_of_eq_some hf))
  have hkeep : ∀ file, file ∉ used ++ numbers ∨ file ∈ l'.finished → Untouched l' file ∧ slack file = 0 := by
    intro file hfile
    obtain ⟨hu, hslack⟩ := h.untouched file (huntouched file hfile)
    refine ⟨⟨htables ▸ hu.tables, hmem ▸ hu.mem, hevents ▸ hu.events, fun j hj hmem => ?_⟩, hslack⟩
    rcases howner j hj file hmem with ⟨j', hj', hmem'⟩ | ⟨hn, hnot⟩
    · exact hu.jobs j' hj' hmem'
    · exact hfile.elim (fun hfile => hfile (mem_append_right _ hn)) hnot
  refine ⟨htables ▸ h.sane, htables ▸ h.small, hmem ▸ h.positive, hevents ▸ h.events, hjobs,
    fun file g hg hlive => ?_, hkeep, fun file g hfin hg => ?_, fun file hfin => ?_,
    fun file g hr hg => ?_, fun file hfile => ?_⟩
  · rw [hdeltas, htotal]
    rcases hfiles file g hg with hf | ⟨hn, hnew⟩
    · rw [howed file (hold file g hf)]
      exact h.balanced file g hf hlive
    · obtain ⟨hu, hslack⟩ := h.untouched file (.inl (hfresh file hn))
      rw [hu.total, hslack]
      rcases hnew with ⟨hfin, hstate, hzero⟩ | ⟨-, hstate, howes, hsmall⟩
      · have hnone := (hkeep file (.inr hfin)).1.owed hjobs
        rw [hnone]
        exact balanced_start (.inl ⟨settle_pending.mpr hstate, (settle_live g).trans hzero, rfl⟩) hu.deltas
      · refine balanced_start (.inr ⟨?_, (settle_live g).symm ▸ howes, hsmall⟩) hu.deltas
        rw [settle, if_pos (collecting_iff.mpr (.inr hstate))]
  · rcases hfiles file g hg with hf | ⟨hn, ⟨-, hstate, -⟩ | ⟨hnot, -⟩⟩
    · exact h.waiting file g ((hfinished file hfin).resolve_right (hold file g hf)) hf
    · exact hstate
    · exact absurd hfin hnot
  · exact (hfinished file hfin).elim (fun hfin => mem_append_left _ (h.known file hfin))
      (mem_append_right _)
  · rcases hfiles file g hg with hf | ⟨hn, ⟨hfin, -⟩ | ⟨-, hstate, -⟩⟩
    · refine h.settled file g ?_ hf
      rcases hr with hm | hevent | ⟨j, hj, hfile⟩
      · exact .inl (hmem ▸ hm)
      · exact .inr (.inl (hevents ▸ hevent))
      · exact .inr (.inr ((howner j hj file hfile).resolve_right fun hnew => hold file g hf hnew.1))
    · exact absurd hr (hkeep file (.inr hfin)).1.not_relocated
    · rw [hstate]
      exact FileState.noConfusion
  · obtain ⟨g, hg⟩ := Option.isSome_iff_exists.mp hfile
    rcases hfiles file g hg with hf | ⟨hn, -⟩
    · exact mem_append_left _ (h.stored file (Option.isSome_of_eq_some hf))
    · exact mem_append_right _ hn

/-- The edit that adds new files: it is applied, or leaves only their numbers. -/
theorem inv_added (h : Inv slack s) (w : Write) {e : Edit} {numbers : List UInt64} {l' : Family}
    (hdeleted : e.deletedFiles = []) (hfresh : ∀ n ∈ numbers, n ∉ s.used)
    (hnew : ∀ g ∈ e.addedFiles, g.file.fileNumber ∈ numbers ∧ Fresh l' g.file.fileNumber g)
    (hok : ∀ st', (∀ n g, st'.files n = some g →
        (s.blobs.storage e.columnFamilyId).files n = some g ∨ n ∈ numbers ∧ Fresh l' n g) →
      Ok (s.used ++ numbers) (slack e.columnFamilyId) st' l') :
    Inv slack (if (s.blobs.logAndApply w e).1 = none then
      { s with blobs := (s.blobs.logAndApply w e).2, used := s.used ++ numbers }.setFamily e.columnFamilyId l'
      else { s with blobs := (s.blobs.logAndApply w e).2, used := s.used ++ numbers }) := by
  have hmono : ∀ file ∈ s.used, file ∈ s.used ++ numbers := fun file hfile => mem_append_left _ hfile
  have hfiles : ∀ cf n g, ((s.blobs.logAndApply w e).2.storage cf).files n = some g →
      (s.blobs.storage cf).files n = some g ∨
        cf = e.columnFamilyId ∧ (s.blobs.logAndApply w e).1 = none ∧ n ∈ numbers ∧ Fresh l' n g := by
    intro cf n g hg
    refine (logAndApply_added s.blobs w hdeleted hg).imp_right fun hadded => ?_
    obtain ⟨hcf, hstatus, hmem, rfl⟩ := hadded
    exact ⟨hcf, hstatus, hnew g hmem⟩
  split
  · refine h.of_family e.columnFamilyId rfl hmono (fun cf hcf => ⟨rfl, fun n g hg =>
      (hfiles cf n g hg).resolve_right fun hnew => hcf hnew.1⟩)
      (hok _ fun n g hg => (hfiles _ n g hg).imp_right fun hnew => hnew.2.2) (fun n g hg => ?_)
    exact (hfiles _ n g hg).imp (fun hold => ⟨g, hold⟩) fun hnew => hfresh n hnew.2.2.1
  · rename_i hstatus
    exact h.mono rfl hmono fun cf n g hg =>
      (hfiles cf n g hg).resolve_right fun hnew => hstatus hnew.2.1

theorem inv_finish (h : Inv slack s) {cf : UInt32} {files : List BlobFileMeta} {w : Write}
    (hnew : ∀ f ∈ files, f.fileNumber ∉ s.used) :
    Inv slack (exec options s (.finish cf files w)) := by
  have hfresh : ∀ n ∈ files.map (·.fileNumber), n ∉ s.used := forall_mem_map.mpr hnew
  refine inv_added h w (e := finishEdit cf files) rfl hfresh (fun g hg => ?_) fun st' hfiles => ?_
  · obtain ⟨f, hf, rfl⟩ := mem_map.mp hg
    have hn : f.fileNumber ∈ files.map (·.fileNumber) := mem_map_of_mem hf
    exact ⟨hn, .inl ⟨mem_append_right _ hn, rfl, rfl⟩⟩
  · exact ok_added (h.ok cf) hfresh rfl rfl rfl (h.ok cf).jobs (fun _ _ => rfl)
      (fun file hfin => mem_append.mp hfin) (fun j hj file hfile => .inl ⟨j, hj, hfile⟩) hfiles

end

/-! ## Flushes and compactions -/

variable {used : List UInt64} {st : Storage} {slack' : UInt32 → UInt64 → ℕ}
    {inputs outputs : List Table} {outputLevel : Int}

section

variable {slack : UInt32 → UInt64 → ℕ} {s : State} (options : UInt32 → CFOptions)

/-- A flush or compaction is installed, and its notification is to come. -/
theorem ok_install {slack slack' : UInt64 → ℕ} (h : Ok used slack st l) (gone : UInt64 → ℕ)
    (hlost : ∀ file, slack' file = slack file + gone file)
    (hevents : l'.undelivered = l.undelivered ++ [p]) (hjobs : l'.jobs = l.jobs)
    (hfinished : ∀ file ∈ l'.finished, file ∈ l.finished ∧ file ∉ p.created) (hp : EventOk p.event)
    (hsane : ∀ t ∈ l'.tables, Sane t) (hsmall : ∀ file, refs l'.tables file < 2 ^ 63)
    (hpositive : Positive l'.mem) (hmem : ∀ file, Mentions l'.mem file → Mentions l.mem file)
    (htotal : ∀ file, (total l' file : ℤ) + gone file = total l file + p.delta file)
    (hcreated : ∀ file ∈ p.created, file ∈ l.finished)
    (hinc : ∀ file, 0 < p.delta file → file ∈ p.created)
    (hmoved : ∀ t, p.event = .flush t → ∀ file, Mentions t.entries file → file ∉ p.created →
      Mentions l.mem file) (hnew : ∀ file, file ∉ p.created → Untouched l file →
      ¬ Referenced p.event.tables file ∧ ¬ Referenced l'.tables file ∧ gone file = 0) :
    Ok used slack' st l' := by
  have hold : ∀ file, file ∉ used ∨ file ∈ l'.finished →
      (file ∉ used ∨ file ∈ l.finished) ∧ file ∉ p.created := by
    intro file hfile
    rcases hfile with hfile | hfile
    · exact ⟨.inl hfile, fun hmem => hfile (h.known file (hcreated file hmem))⟩
    · exact ⟨.inr (hfinished file hfile).1, (hfinished file hfile).2⟩
  have hmem_events : ∀ {P : Notification → Prop}, (∀ q ∈ l.undelivered, P q) → P p →
      ∀ q ∈ l'.undelivered, P q := fun hold hlast => by
    rw [hevents]
    exact forall_mem_append.mpr ⟨hold, forall_mem_singleton.mpr hlast⟩
  have hrelocated : ∀ file, Relocated l' file → Relocated l file := by
    intro file hr
    rcases hr with hm | ⟨p', hp', t, ht, hm, hnot⟩ | ⟨j, hj, hfile⟩
    · exact .inl (hmem file hm)
    · rw [hevents] at hp'
      rcases mem_append.mp hp' with hp' | hp'
      · exact .inr (.inl ⟨p', hp', t, ht, hm, hnot⟩)
      · rw [mem_singleton.mp hp'] at ht hnot
        exact .inl (hmoved t ht file hm hnot)
    · exact .inr (.inr ⟨j, hjobs ▸ hj, hfile⟩)
  refine ⟨hsane, hsmall, hpositive, hmem_events h.events hp, hjobs ▸ h.jobs, fun file f hf hlive => ?_,
    fun file hfile => ?_, fun file f hfin hf => h.waiting file f (hfinished file hfin).1 hf,
    fun file hfin => h.known file (hfinished file hfin).1,
    fun file f hr hf => h.settled file f (hrelocated file hr) hf, h.stored⟩
  · have hdeltas : deltas l' file = deltas l file ++ [p.delta file] := by simp [deltas, hevents]
    have howed : owed l' file = owed l file := by rw [owed, hjobs, ← owed]
    have hbalanced := h.balanced file f hf hlive
    have hbefore : Balanced (settle f) (total l' file + gone file) (owed l file) (slack file)
        (deltas l file ++ [p.delta file]) := by
      refine balanced_install hbalanced (by push_cast; exact htotal file)
        (notification_delta_bounds hp file) ?_
      by_cases hd : 0 < p.delta file
      · have hfin := hcreated file (hinc file hd)
        refine .inr ⟨settle_pending.mpr (h.waiting file f hfin hf), fun d hmem => ?_⟩
        rw [(h.untouched file (.inr hfin)).1.deltas d hmem]
      · exact .inl (not_lt.mp hd)
    rw [hdeltas, howed, hlost]
    exact balanced_move hbefore (by omega)
  · obtain ⟨hfile, hnot⟩ := hold file hfile
    obtain ⟨hu, hslack⟩ := h.untouched file hfile
    obtain ⟨hevent, htables, hgone⟩ := hnew file hnot hu
    refine ⟨⟨htables, fun hm => hu.mem (hmem file hm), hmem_events hu.events hevent, hjobs ▸ hu.jobs⟩, ?_⟩
    rw [hlost, hslack, hgone]

variable {cf : UInt32} {entries entries' : List Entry} {created : List UInt64}

/-- The operation changes one column family, and no storage. -/
theorem Inv.setFamily (h : Inv slack s) {l : Family}
    (hother : ∀ cf', cf' ≠ cf → slack' cf' = slack cf')
    (hok : Ok s.used (slack' cf) (s.blobs.storage cf) l) : Inv slack' (s.setFamily cf l) :=
  h.of_family cf rfl (fun _ hfile => hfile) (fun cf' hcf => ⟨hother cf' hcf, fun _ _ hf => hf⟩) hok
    fun _ g hg => .inl ⟨g, hg⟩

theorem referenced_cons (e : Entry) (entries : List Entry) (file : UInt64) :
    referenced (e :: entries) file = referenced [e] file + referenced entries file :=
  referenced_append [e] entries file

theorem referenced_sublist (h : entries.Sublist entries') (file : UInt64) :
    referenced entries file ≤ referenced entries' file :=
  ((h.filterMap _).map _).sum_le_sum fun _ _ => Nat.zero_le _

theorem referenced_perm (h : entries.Perm entries') (file : UInt64) :
    referenced entries file = referenced entries' file := ((h.filterMap _).map _).sum_eq

/-- An entry that a flush writes references no file of another job that it did not
reference before. -/
theorem writes_referenced {e e' : Entry} (h : Writes created e e') {file : UInt64} (hfile : file ∉ created) :
    referenced [e'] file ≤ referenced [e] file := by
  rcases h with rfl | ⟨-, href⟩
  · exact le_rfl
  · have hzero : referenced [e'] file = 0 := by
      refine referenced_eq_zero fun hm => ?_
      obtain ⟨size, hmem⟩ := hm
      obtain ⟨e'', he'', hr⟩ := mem_filterMap.mp hmem
      rw [mem_singleton.mp he''] at hr
      exact hfile (href _ hr)
    omega

theorem flush_referenced_le {old : List Entry} {table : Table} (h : FlushOf created old table)
    {file : UInt64} (hfile : file ∉ created) : referenced table.entries file ≤ referenced old file := by
  obtain ⟨kept, written, hsub, hwrites, hperm⟩ := h
  have hle : referenced written file ≤ referenced kept file := by
    clear hsub hperm
    induction hwrites with
    | nil => exact le_rfl
    | @cons e e' _ _ hw _ ih =>
      have hfirst := writes_referenced hw hfile
      rw [referenced_cons e', referenced_cons e]
      omega
  rw [← referenced_perm hperm]
  exact hle.trans (referenced_sublist hsub file)

theorem positive_of_subset (h : Positive entries') (hsub : entries ⊆ entries') : Positive entries := by
  intro r hr
  obtain ⟨e, he, href⟩ := mem_filterMap.mp hr
  exact h r (mem_filterMap.mpr ⟨e, hsub he, href⟩)

theorem mentions_mono (hsub : entries ⊆ entries') {file : UInt64} (h : Mentions entries file) :
    Mentions entries' file := by
  obtain ⟨size, hmem⟩ := h
  obtain ⟨e, he, href⟩ := mem_filterMap.mp hmem
  exact ⟨size, mem_filterMap.mpr ⟨e, hsub he, href⟩⟩

theorem inv_flush (h : Inv slack s) {newer : Nat} {table : Table}
    (hallowed : Allowed s (.flush cf newer table created)) :
    Inv (fun cf' file => slack cf' file + lost s cf' file (.flush cf newer table created))
      (exec options s (.flush cf newer table created)) := by
  obtain ⟨-, hsane, hcreated, hflush, hsmall⟩ := hallowed
  have hok := h.ok cf
  have hsplit : ∀ file, referenced (s.family cf).mem file =
      referenced ((s.family cf).mem.take newer) file + referenced ((s.family cf).mem.drop newer) file := by
    intro file
    rw [← referenced_append, take_append_drop]
  have hnew : ∀ file ∈ created, referenced (s.family cf).mem file = 0 := fun file hfile =>
    referenced_eq_zero (hok.untouched file (.inr (hcreated file hfile))).1.mem
  have hrefs : ∀ file, refs ((s.family cf).tables ++ [table]) file =
      refs (s.family cf).tables file + referenced table.entries file := fun file => by
    rw [refs_append]
    simp [refs]
  have hmoved : ∀ file, Mentions table.entries file → file ∉ created → Mentions (s.family cf).mem file := by
    intro file hm hnot
    have hpos := referenced_pos hsane.2 hm
    have hle := flush_referenced_le hflush hnot
    exact mentions_mono (drop_subset _ _) (mentions_of_referenced (hpos.trans_le hle))
  refine h.setFamily (fun cf' hne => funext fun file => ?_) ?_
  · rw [lost_other hne file, add_zero]
  refine ok_install hok _ (fun _ => rfl) (p := ⟨.flush table, created⟩) rfl rfl
    (fun file hfile => by simpa using hfile)
    ⟨hsane, fun file => ?_⟩ (forall_mem_append.mpr ⟨hok.sane, forall_mem_singleton.mpr hsane⟩)
    hsmall (positive_of_subset hok.positive (take_subset _ _))
    (fun file hm => mentions_mono (take_subset _ _) hm) (fun file => ?_) hcreated (fun file hd => ?_)
    (fun t ht file hm hnot => ?_) (fun file hnot hu => ?_)
  · have hbound := hsmall file
    rw [hrefs] at hbound
    omega
  · have hmem := hsplit file
    rw [total, total, hrefs, lost, Notification.delta]
    dsimp only
    by_cases hfile : file ∈ created
    · have hzero := hnew file hfile
      rw [if_neg fun hand => hand.2 hfile, if_pos hfile]
      push_cast
      omega
    · have hle := flush_referenced_le hflush hfile
      rw [if_pos ⟨rfl, hfile⟩, if_neg hfile]
      push_cast
      omega
  · by_contra hnot
    rw [Notification.delta] at hd
    dsimp only at hd
    rw [if_neg hnot] at hd
    exact lt_irrefl 0 hd
  · cases ht
    exact hmoved file hm hnot
  · have htable : ¬ Mentions table.entries file := fun hm => hu.mem (hmoved file hm hnot)
    have hnone : ¬ Referenced [table] file := fun hr => htable (referenced_singleton.mp hr)
    refine ⟨hnone, fun hr => (History.referenced_append.mp hr).elim hu.tables hnone, ?_⟩
    have hzero : referenced ((s.family cf).mem.drop newer) file = 0 :=
      referenced_eq_zero fun hm => hu.mem (mentions_mono (drop_subset _ _) hm)
    rw [lost, hzero, Nat.zero_sub, ite_self]

theorem inv_compact (h : Inv slack s)
    (hallowed : Allowed s (.compact cf inputs outputs outputLevel created)) :
    Inv slack (exec options s (.compact cf inputs outputs outputLevel created)) := by
  obtain ⟨-, hsane, hsub, hnamed, hcreated, hother⟩ := hallowed
  have hok := h.ok cf
  have hc : Compacts (s.family cf).tables inputs outputs created :=
    ⟨hsub, hnamed, hok.sane, hsane, hok.small, fun file hfile =>
      ⟨(hok.untouched file (.inr (hcreated file hfile).1)).1.tables, (hcreated file hfile).2⟩, hother⟩
  refine h.setFamily (fun cf' _ => rfl) ?_
  refine ok_install hok (fun _ => 0) (fun _ => rfl)
    (p := ⟨.compaction none inputs outputs outputLevel, created⟩) rfl rfl
    (fun file hfile => by simpa using hfile) (hc.eventOk outputLevel) hc.sane_after hc.small_after
    hok.positive (fun file hm => hm) (fun file => ?_) (fun file hfile => (hcreated file hfile).1)
    (fun file hd => hc.created_of_pos outputLevel hd) (fun t ht => by cases ht) fun file hnot hu => ?_
  · have hrefs := hc.refs_after outputLevel file
    rw [total, total, Notification.delta]
    push_cast
    omega
  · obtain ⟨hevent, htables⟩ := hc.not_referenced hnot hu.tables
    exact ⟨hevent, htables, rfl⟩

theorem inv_compactFailed (h : Inv slack s) (cf : UInt32) (status : Status) (inputs outputs : List Table)
    (outputLevel : Int) :
    Inv slack (exec options s (.compactFailed cf status inputs outputs outputLevel)) := by
  have hok := h.ok cf
  refine h.setFamily (fun cf' _ => rfl) ?_
  refine ok_install hok (fun _ => 0) (fun _ => rfl)
    (p := ⟨.compaction (some status) inputs outputs outputLevel, []⟩) rfl rfl
    (fun file hfile => ⟨hfile, not_mem_nil⟩) trivial hok.sane hok.small hok.positive
    (fun file hm => hm) (fun file => ?_) (forall_mem_nil _) (fun file hd => ?_)
    (fun t ht => by cases ht) (fun file _ hu => ⟨not_referenced_nil, hu.tables, rfl⟩)
  · rw [Notification.delta]
    rfl
  · exact absurd hd (lt_irrefl 0)

theorem inv_purge (h : Inv slack s) (cf : UInt32) (oldestSequence : Nat) :
    Inv slack (exec options s (.purge cf oldestSequence)) :=
  h.mono rfl (fun _ hfile => hfile) fun _ _ _ hf => purge_files hf

end

/-! ## Notifications -/

variable {created : List UInt64}

section

variable {slack : UInt32 → UInt64 → ℕ} {s : State} (options : UInt32 → CFOptions)

/-- What a notification makes of a file: its difference goes into the counter, or is
lost. -/
structure Taken (p : Notification) (file : UInt64) (f g : TrackedFile) : Prop where
  pending : g.state = .pendingLSM → f.state = .pendingLSM
  live : g.state ≠ .obsolete → f.state ≠ .obsolete
  balanced : f.state ≠ .obsolete → ∀ refs owed slack rest,
    Balanced (settle f) refs owed slack (p.delta file :: rest) →
      Balanced (settle g) refs owed (slack + if collecting f then (-p.delta file).toNat else 0) rest
  same : ¬ Referenced p.event.tables file → g = f

variable {p : Notification} {g : TrackedFile} {cf : UInt32}

/-- A notification that leaves a file alone has no difference for it, or loses it. -/
theorem Taken.refl {file : UInt64} {f : TrackedFile} (h : p.delta file = 0 ∨ collecting f = true) :
    Taken p file f f where
  pending := id
  live := id
  balanced hlive refs owed slack rest hbalanced := by
    by_cases hf : collecting f = true
    · rw [if_pos hf]
      exact balanced_ignore hbalanced fun hpending => collecting_settled hf (settle_pending.mp hpending)
    · have hzero := h.resolve_right hf
      rw [hzero] at hbalanced
      rw [if_neg hf]
      exact hbalanced.skip
  same _ := rfl

/-- A handler that balances a file which no garbage collection has. -/
theorem Taken.of_balanced {file : UInt64} {f : TrackedFile} (hf : ¬ collecting f = true)
    (hpending : g.state = .pendingLSM → f.state = .pendingLSM)
    (hlive : g.state ≠ .obsolete → f.state ≠ .obsolete)
    (hbalanced : f.state ≠ .obsolete → ∀ refs owed slack rest,
      Balanced f refs owed slack (p.delta file :: rest) → Balanced g refs owed slack rest)
    (hsame : ¬ Referenced p.event.tables file → g = f) : Taken p file f g where
  pending := hpending
  live := hlive
  balanced hob refs owed slack rest h := by
    rw [settle, if_neg hf] at h
    have hg := hbalanced hob refs owed slack rest h
    rw [if_neg hf, settle_of_balanced hg]
    exact hg
  same := hsame

theorem taken_flush {b : BlobFiles} (hcf : cf ∈ b.ids) {t : Table} (hok : EventOk (.flush t))
    (hmoved : ∀ file f, Mentions t.entries file → file ∉ created → (b.storage cf).files file = some f →
      f.state ≠ .pendingLSM) {file : UInt64}
    (hg : ((onFlushCompleted b ⟨cf, t.userCollectedProperties⟩).storage cf).files file = some g) :
    ∃ f, (b.storage cf).files file = some f ∧ Taken ⟨.flush t, created⟩ file f g := by
  rw [onFlushCompleted_files hcf hok] at hg
  obtain ⟨f, hf, rfl⟩ := Option.map_eq_some_iff.mp hg
  refine ⟨f, hf, ?_⟩
  by_cases hm : Mentions t.entries file
  · rw [if_pos hm]
    by_cases hpending : f.state = .pendingLSM
    · have hmem : file ∈ created := by
        by_contra hnot
        exact hmoved file f hm hnot hf hpending
      have hnot : ¬ collecting f = true := fun h => collecting_settled h hpending
      have hdelta : Notification.delta file ⟨.flush t, created⟩ = referenced t.entries file := if_pos hmem
      have hpos := referenced_pos hok.1.2 hm
      refine Taken.of_balanced hnot (fun _ => hpending) (fun _ => ?_) (fun _ refs owed slack rest h => ?_)
        (fun hnone => absurd (referenced_singleton.mpr hm) hnone)
      · rw [hpending]
        exact FileState.noConfusion
      · rw [hdelta] at h
        exact flushFile_balanced h (by exact_mod_cast hpos)
    · have hleft : (flushFile (Int64.ofInt (referenced t.entries file)) f).file = f := by
        rw [flushFile, if_pos hpending]
      rw [hleft]
      by_cases hmem : file ∈ created
      · -- a file of this flush that does not wait would have its size twice
        refine ⟨id, id, fun hlive refs owed slack rest h => ?_, fun _ => rfl⟩
        have hdelta : Notification.delta file ⟨.flush t, created⟩ = referenced t.entries file := if_pos hmem
        have hpos := referenced_pos hok.1.2 hm
        have hle := (h.settled fun hs => hpending (settle_pending.mp hs)).2 _ mem_cons_self
        rw [hdelta] at hle
        omega
      · exact Taken.refl (.inl (if_neg hmem))
  · have hzero : Notification.delta file ⟨.flush t, created⟩ = 0 :=
      notification_delta_eq_zero fun hr => hm (referenced_singleton.mp hr)
    rw [if_neg hm]
    exact Taken.refl (.inl hzero)

theorem taken_compaction {b : BlobFiles} (hcf : cf ∈ b.ids)
    (hdistinct : ∀ cf' n, ((b.storage cf).files n).isSome → ((b.storage cf').files n).isSome → cf = cf')
    (hok : EventOk (.compaction none inputs outputs outputLevel)) (o : CFOptions) (seq : Nat)
    (w : Write) {file : UInt64}
    (hg : ((onCompactionCompleted b o (Event.jobInfo cf none inputs outputs outputLevel) seq w).storage
      cf).files file = some g) :
    ∃ f, (b.storage cf).files file = some f ∧
      Taken ⟨.compaction none inputs outputs outputLevel, created⟩ file f g := by
  obtain ⟨f, hf, hstep, hsame⟩ := (onCompactionCompleted_handled hcf hdistinct hok o seq w).own file g hg
  obtain ⟨f', hf', ⟨hne, -⟩ | ⟨-, hacc⟩⟩ := onCompactionCompleted_accounts
    (Event.jobInfo cf none inputs outputs outputLevel) rfl hcf (hok.totals cf).ordered hdistinct o seq w hg
  · exact absurd rfl hne
  obtain rfl : f = f' := Option.some.inj (hf.symm.trans hf')
  refine ⟨f, hf, ?_⟩
  by_cases hcollecting : collecting f = true
  · have hsame : g = f := hacc.same fun d => by
      rcases collecting_iff.mp hcollecting with hs | hs <;>
        simp [compactFile, TrackedFile.isObsolete, hs]
    rw [hsame]
    exact Taken.refl (.inr hcollecting)
  · exact Taken.of_balanced hcollecting (fun hpending => (hacc.pending hpending).1)
      (fun hlive hob => hlive (hacc.obsolete hob)) (fun _ => hstep) hsame

/-- The callbacks, on a file of their column family. -/
theorem taken_notify (h : Inv slack s) (hcf : cf ∈ s.blobs.ids) (hp : p ∈ (s.family cf).undelivered)
    (seq : Nat) (w : Write) {file : UInt64}
    (hg : ((notify options s.blobs cf seq w p.event).storage cf).files file = some g) :
    ∃ f, (s.blobs.storage cf).files file = some f ∧ Taken p file f g := by
  have hok := (h.ok cf).events p hp
  obtain ⟨event, created⟩ := p
  cases event with
  | flush t =>
    refine taken_flush hcf hok (fun file f hm hnot hf => ?_) hg
    exact (h.ok cf).settled file f (.inr (.inl ⟨_, hp, t, rfl, hm, hnot⟩)) hf
  | compaction status inputs outputs outputLevel =>
    cases status with
    | none => exact taken_compaction hcf (h.distinct cf) hok (options cf) seq w hg
    | some status =>
      rw [notify_failed] at hg
      exact ⟨g, hg, Taken.refl (.inl rfl)⟩

theorem deltas_eraseIdx {l : Family} {i : Nat} (hi : l.undelivered[i]? = some p) (file : UInt64) :
    (deltas l file).Perm (p.delta file ::
      deltas { l with undelivered := l.undelivered.eraseIdx i } file) := by
  obtain ⟨hlt, rfl⟩ := List.getElem?_eq_some_iff.mp hi
  exact ((getElem_cons_eraseIdx_perm hlt).map (Notification.delta file)).symm

theorem inv_deliver (h : Inv slack s) (hcf : cf ∈ s.blobs.ids) (i seq : Nat) (w : Write) :
    Inv (fun cf' file => slack cf' file + lost s cf' file (.deliver cf i seq w))
      (exec options s (.deliver cf i seq w)) := by
  have hother : ∀ cf', cf' ≠ cf →
      (fun file => slack cf' file + lost s cf' file (.deliver cf i seq w)) = slack cf' := by
    intro cf' hne
    funext file
    rw [lost_other hne file, add_zero]
  rw [exec]
  cases hi : (s.family cf).undelivered[i]? with
  | none =>
    have hzero : (fun cf' file => slack cf' file + lost s cf' file (.deliver cf i seq w)) = slack := by
      funext cf' file
      by_cases hne : cf' = cf
      · subst hne
        rw [lost, hi, Option.map_none, Option.getD_none, ite_self, add_zero]
      · exact congrFun (hother cf' hne) file
    rw [hzero]
    exact h
  | some p =>
    have hp := mem_of_getElem? hi
    have hok := h.ok cf
    have hhandled := notify_handled hcf (h.distinct cf) (hok.events p hp) options seq w
    have hrest : ∀ p' ∈ (s.family cf).undelivered.eraseIdx i, p' ∈ (s.family cf).undelivered :=
      fun p' hp' => mem_of_mem_eraseIdx hp'
    have hlost : ∀ file, lost s cf file (.deliver cf i seq w) =
        if ((s.blobs.storage cf).files file).any collecting then (-p.delta file).toNat else 0 := by
      intro file
      rw [lost, hi]
      simp
    have htaken : ∀ {file g}, ((notify options s.blobs cf seq w p.event).storage cf).files file = some g →
        ∃ f, (s.blobs.storage cf).files file = some f ∧ Taken p file f g := fun hg =>
      taken_notify options h hcf hp seq w hg
    refine h.of_family cf rfl (fun file hfile => hfile) (fun cf' hne => ⟨hother cf' hne,
      hhandled.others cf' hne⟩) ⟨hok.sane, hok.small, hok.positive, fun p' hp' =>
        hok.events p' (hrest p' hp'),
      hok.jobs, fun file g hg hlive => ?_, fun file hfile => ?_, fun file g hfin hg => ?_, hok.known,
      fun file g hr hg => ?_, fun file hfile => ?_⟩ (fun file g hg => .inl ?_)
    · obtain ⟨f, hf, ht⟩ := htaken hg
      have hbalanced := (hok.balanced file f hf (ht.live hlive)).perm (deltas_eraseIdx hi file)
      have hafter := ht.balanced (ht.live hlive) _ _ _ _ hbalanced
      have hany : ((s.blobs.storage cf).files file).any collecting = collecting f := by
        rw [hf]
        rfl
      rw [hlost, hany]
      exact hafter
    · obtain ⟨hu, hslack⟩ := hok.untouched file hfile
      have hzero : p.delta file = 0 := notification_delta_eq_zero (hu.events p hp)
      refine ⟨⟨hu.tables, hu.mem, fun p' hp' => hu.events p' (hrest p' hp'), hu.jobs⟩, ?_⟩
      rw [hlost, hslack, hzero]
      simp
    · obtain ⟨f, hf, ht⟩ := htaken hg
      have hu := (hok.untouched file (.inr hfin)).1
      rw [ht.same (hu.events p hp)]
      exact hok.waiting file f hfin hf
    · obtain ⟨f, hf, ht⟩ := htaken hg
      have hrelocated : Relocated (s.family cf) file := by
        rcases hr with hm | ⟨p', hp', hflush⟩ | hjob
        · exact .inl hm
        · exact .inr (.inl ⟨p', hrest p' hp', hflush⟩)
        · exact .inr (.inr hjob)
      exact fun hpending => hok.settled file f hrelocated hf (ht.pending hpending)
    · obtain ⟨g, hg⟩ := Option.isSome_iff_exists.mp hfile
      obtain ⟨f, hf, -⟩ := htaken hg
      exact hok.stored file (Option.isSome_of_eq_some hf)
    · obtain ⟨f, hf, -⟩ := htaken hg
      exact ⟨f, hf⟩

end

/-! ## Jobs -/

variable {x : UInt64 × UInt64}

section

variable {slack : UInt32 → UInt64 → ℕ} {s : State} (options : UInt32 → CFOptions)

/-- What the step of a job makes of a file that is not obsolete. -/
structure Kept (before after : ℕ × ℕ × ℕ) (f g : TrackedFile) : Prop where
  pending : g.state = .pendingLSM → f.state = .pendingLSM
  live : g.state ≠ .obsolete → f.state ≠ .obsolete
  balanced : g.state ≠ .obsolete → ∀ ds, Balanced (settle f) before.1 before.2.1 before.2.2 ds →
    Balanced (settle g) after.1 after.2.1 after.2.2 ds

/-- The file itself stays, and what is referenced, owed and lost counts together. -/
theorem Kept.refl {before after : ℕ × ℕ × ℕ}
    (hsum : after.1 + after.2.1 + after.2.2 = before.1 + before.2.1 + before.2.2) :
    Kept before after f f where
  pending := id
  live := id
  balanced _ _ h := balanced_move h hsum

/-- A step of a user or of a job. It is about files that a garbage collection has
already, or that are settled. -/
theorem ok_step {slack slack' : UInt64 → ℕ} {st st' : Storage} (h : Ok used slack st l)
    (htables : l'.tables = l.tables) (hfinished : l'.finished = l.finished)
    (hevents : l'.undelivered = l.undelivered) (hjobs : ∀ j ∈ l'.jobs, JobOk j)
    (hpositive : Positive l'.mem) (hrelocated : ∀ file, Relocated l' file → Relocated l file ∨
      ∃ f, st.files file = some f ∧ f.state = .normal)
    (hslack : ∀ file, ¬ Relocated l file → slack' file = slack file)
    (hfiles : ∀ file g, st'.files file = some g → ∃ f, st.files file = some f ∧
      Kept (total l file, owed l file, slack file) (total l' file, owed l' file, slack' file) f g ∧
      (¬ Relocated l file → ¬ Relocated l' file → g.state = f.state)) : Ok used slack' st' l' := by
  have hnone : ∀ file, file ∉ used ∨ file ∈ l.finished → ¬ Relocated l' file := by
    intro file hfile hr
    rcases hrelocated file hr with hr | ⟨f, hf, hstate⟩
    · exact (h.untouched file hfile).1.not_relocated hr
    · rcases hfile with hfile | hfile
      · exact hfile (h.stored file (Option.isSome_of_eq_some hf))
      · rw [h.waiting file f hfile hf] at hstate
        cases hstate
  have hdeltas : ∀ file, deltas l' file = deltas l file := fun file => by
    rw [deltas, hevents, ← deltas]
  refine ⟨htables ▸ h.sane, htables ▸ h.small, hpositive, hevents ▸ h.events, hjobs,
    fun file g hg hlive => ?_, fun file hfile => ?_, fun file g hfin hg => ?_, hfinished ▸ h.known,
    fun file g hr hg hpending => ?_, fun file hfile => ?_⟩
  · obtain ⟨f, hf, hkept, -⟩ := hfiles file g hg
    rw [hdeltas]
    exact hkept.balanced hlive _ (h.balanced file f hf (hkept.live hlive))
  · rw [hfinished] at hfile
    obtain ⟨hu, hzero⟩ := h.untouched file hfile
    have hnot := hnone file hfile
    refine ⟨⟨htables ▸ hu.tables, fun hm => hnot (.inl hm), hevents ▸ hu.events,
      fun j hj hmem => hnot (.inr (.inr ⟨j, hj, hmem⟩))⟩, ?_⟩
    rw [hslack file hu.not_relocated]
    exact hzero
  · rw [hfinished] at hfin
    obtain ⟨f, hf, -, hsame⟩ := hfiles file g hg
    rw [hsame (h.untouched file (.inr hfin)).1.not_relocated (hnone file (.inr hfin))]
    exact h.waiting file f hfin hf
  · obtain ⟨f, hf, hkept, -⟩ := hfiles file g hg
    rcases hrelocated file hr with hr | ⟨f', hf', hstate⟩
    · exact h.settled file f hr hf (hkept.pending hpending)
    · obtain rfl : f = f' := Option.some.inj (hf.symm.trans hf')
      rw [hkept.pending hpending] at hstate
      cases hstate
  · obtain ⟨g, hg⟩ := Option.isSome_iff_exists.mp hfile
    obtain ⟨f, hf, -⟩ := hfiles file g hg
    exact h.stored file (Option.isSome_of_eq_some hf)

/-- A step that changes no storage. -/
theorem ok_step_mem {slack : UInt64 → ℕ} (h : Ok used slack st l) (htables : l'.tables = l.tables)
    (hfinished : l'.finished = l.finished) (hevents : l'.undelivered = l.undelivered)
    (hjobs : ∀ j ∈ l'.jobs, JobOk j) (hpositive : Positive l'.mem)
    (hrelocated : ∀ file, Relocated l' file → Relocated l file)
    (hsum : ∀ file, total l' file + owed l' file = total l file + owed l file) :
    Ok used slack st l' := by
  refine ok_step h htables hfinished hevents hjobs hpositive (fun file hr => .inl (hrelocated file hr))
    (fun _ _ => rfl) fun file f hf => ⟨f, hf, Kept.refl f ?_, fun _ _ => rfl⟩
  have hfile := hsum file
  dsimp only
  omega

variable {cf : UInt32} {i : Nat} {j : Job}

/-- The operation changes one column family and its storage. -/
theorem Inv.setStorage (h : Inv slack s) {l : Family}
    (hother : ∀ cf', cf' ≠ cf → slack' cf' = slack cf') (hok : Ok s.used (slack' cf) st l)
    (hfiles : ∀ file g, st.files file = some g → ∃ f, (s.blobs.storage cf).files file = some f) :
    Inv slack' ({ s with blobs := s.blobs.setStorage cf st }.setFamily cf l) := by
  refine h.of_family cf rfl (fun _ hfile => hfile) (fun cf' hcf => ⟨hother cf' hcf, fun file f hf => ?_⟩) ?_
    (fun file g hg => .inl (hfiles file g ?_))
  · change ((s.blobs.setStorage cf st).storage cf').files file = some f at hf
    rwa [setStorage_of_ne _ hcf] at hf
  · change Ok s.used (slack' cf) ((s.blobs.setStorage cf st).storage cf) l
    rwa [setStorage_self]
  · change ((s.blobs.setStorage cf st).storage cf).files file = some g at hg
    rwa [setStorage_self] at hg

theorem mem_references_cons {e : Entry} {entries : List Entry}
    (hx : x ∈ (e :: entries).filterMap Entry.reference) :
    e.reference = some x ∨ x ∈ entries.filterMap Entry.reference := by
  obtain ⟨e', he', href⟩ := mem_filterMap.mp hx
  rcases mem_cons.mp he' with rfl | he'
  · exact .inl href
  · exact .inr (mem_filterMap.mpr ⟨e', he', href⟩)

theorem referenced_none {e : Entry} (h : e.reference = none) (file : UInt64) : referenced [e] file = 0 := by
  simp [referenced, h]

theorem inv_write (h : Inv slack s) {entry : Entry} (hallowed : Allowed s (.write cf entry)) :
    Inv slack (exec options s (.write cf entry)) := by
  have hok := h.ok cf
  have hnone : entry.reference = none := if_pos hallowed
  have hmem : ∀ file, Mentions (entry :: (s.family cf).mem) file → Mentions (s.family cf).mem file := by
    intro file hm
    obtain ⟨size, hsize⟩ := hm
    rw [filterMap_cons_none hnone] at hsize
    exact ⟨size, hsize⟩
  refine h.setFamily (fun _ _ => rfl) (ok_step_mem hok rfl rfl rfl hok.jobs ?_ (fun file hr => ?_)
    fun file => ?_)
  · intro r hr
    rw [filterMap_cons_none hnone] at hr
    exact hok.positive r hr
  · exact hr.imp_left (hmem file)
  · rw [total, total, referenced_cons entry, referenced_none hnone, zero_add]
    rfl

/-- The entry of a key that is written back. -/
theorem rewrite_reference (r : Rewrite) :
    r.entry.reference = r.newBlobIndex.map fun index => (index.fileNumber, index.blobHandle.size) := by
  rw [Rewrite.entry]
  cases r.newBlobIndex with
  | none => rfl
  | some index =>
    have hptr := BlobIndex.ptr_normal index
    rw [Entry.reference]
    simp only [BlobIndex.decodeFrom_encodeTo, ne_eq, not_true_eq_false, ↓reduceIte, Option.map_some,
      Option.some.injEq, Prod.mk.injEq]
    exact ⟨congrArg BlobPtr.fileNumber hptr, congrArg (fun p => p.blobHandle.size) hptr⟩

/-- The jobs with one of them changed. -/
theorem owed_setJob {l : Family} (hi : l.jobs[i]? = some j) (j' : Job) (file : UInt64) :
    owed (l.setJob i j') file + j.owes file = owed l file + j'.owes file := by
  obtain ⟨hlt, rfl⟩ := List.getElem?_eq_some_iff.mp hi
  have hnew := ((set_perm_cons_eraseIdx hlt j').map (Job.owes file)).sum_eq
  have hold := ((getElem_cons_eraseIdx_perm hlt).map (Job.owes file)).sum_eq
  rw [map_cons, sum_cons] at hnew hold
  rw [owed, owed, Family.setJob]
  dsimp only
  omega

theorem owed_eraseIdx {l : Family} (hi : l.jobs[i]? = some j) (file : UInt64) :
    owed { l with jobs := l.jobs.eraseIdx i } file + j.owes file = owed l file := by
  obtain ⟨hlt, rfl⟩ := List.getElem?_eq_some_iff.mp hi
  have hold := ((getElem_cons_eraseIdx_perm hlt).map (Job.owes file)).sum_eq
  rw [map_cons, sum_cons] at hold
  rw [owed, owed]
  dsimp only
  omega

theorem mem_setJob {l : Family} {j' : Job} (h : j' ∈ (l.setJob i j).jobs) :
    j' ∈ l.jobs ∨ j' = j := mem_or_eq_of_mem_set h

theorem jobs_setJob {l : Family} (h : ∀ j ∈ l.jobs, JobOk j) (hj : JobOk j) :
    ∀ j' ∈ (l.setJob i j).jobs, JobOk j' := by
  intro j' hj'
  rcases mem_setJob hj' with hj' | rfl
  · exact h j' hj'
  · exact hj

/-- A job that has the same files is about the same files. -/
theorem relocated_setJob {l : Family} {j' : Job} (hi : l.jobs[i]? = some j) {file : UInt64}
    (h : Relocated (l.setJob i j') file) (hfiles : j'.files = j.files) : Relocated l file := by
  rcases h with hm | hevent | ⟨k, hk, hfile⟩
  · exact .inl hm
  · exact .inr (.inl hevent)
  · rcases mem_setJob hk with hk | rfl
    · exact .inr (.inr ⟨k, hk, hfile⟩)
    · exact .inr (.inr ⟨j, mem_of_getElem? hi, hfiles ▸ hfile⟩)

/-- A settled file may get another settled state. -/
theorem kept_restate {before after : ℕ × ℕ × ℕ} {f g : TrackedFile} (hlive : f.liveDataSize = g.liveDataSize)
    (hfile : f.file = g.file) (hf : f.state ≠ .pendingLSM ∧ f.state ≠ .obsolete)
    (hg : g.state = .normal ∨ collecting g = true)
    (hsum : after.1 + after.2.1 + after.2.2 = before.1 + before.2.1 + before.2.2) :
    Kept before after f g := by
  have hsettle : settle g = { settle f with state := .normal } := by
    have hnormal : settle g = { g with state := .normal } := by
      rw [settle]
      split
      · rfl
      · rename_i hnot
        rw [← hg.resolve_right hnot]
    have hback : ({ settle f with state := .normal } : TrackedFile) = { f with state := .normal } := by
      rw [settle]
      split <;> rfl
    rw [hnormal, hback, hlive, hfile]
  refine ⟨fun hpending => ?_, fun _ => hf.2, fun _ ds h => ?_⟩
  · rcases hg with hg | hg
    · rw [hg] at hpending
      cases hpending
    · exact absurd hpending (collecting_settled hg)
  · rw [hsettle]
    exact balanced_move (h.restate (fun hpending => hf.1 (settle_pending.mp hpending)) (.inl rfl)) hsum

theorem inv_pick (h : Inv slack s) {inputs : List UInt64} (hallowed : Allowed s (.pick cf inputs)) :
    Inv slack (exec options s (.pick cf inputs)) := by
  have hok := h.ok cf
  have hfiles : ∀ file g, (markFilesBeingGC (s.blobs.storage cf) inputs).files file = some g →
      ∃ f, (s.blobs.storage cf).files file = some f ∧
        (file ∉ inputs ∧ g = f ∨ file ∈ inputs ∧ g = { f with state := .beingGC }) := by
    intro file g hg
    rw [markFilesBeingGC_files] at hg
    split at hg
    · rename_i hmem
      obtain ⟨f, hf, rfl⟩ := Option.map_eq_some_iff.mp hg
      exact ⟨f, hf, .inr ⟨hmem, rfl⟩⟩
    · rename_i hnot
      exact ⟨g, hg, .inl ⟨hnot, rfl⟩⟩
  have hnew : JobOk ⟨inputs, [], .running⟩ :=
    ⟨fun _ => Nat.two_pow_pos 63, fun _ _ => rfl, fun _ _ hphase => by cases hphase⟩
  have hsum : ∀ file, total (s.family cf) file + owed { s.family cf with
      jobs := (s.family cf).jobs ++ [(⟨inputs, [], .running⟩ : Job)] } file + slack cf file =
        total (s.family cf) file + owed (s.family cf) file + slack cf file := by
    intro file
    simp [owed, Job.owes]
  rw [exec]
  refine h.setStorage (fun _ _ => rfl) ?_ (fun file g hg => ?_)
  · refine ok_step hok rfl rfl rfl
      (forall_mem_append.mpr ⟨hok.jobs, forall_mem_singleton.mpr hnew⟩) hok.positive
      (fun file hr => ?_) (fun _ _ => rfl) fun file g hg => ?_
    · rcases hr with hm | hevent | ⟨j, hj, hfile⟩
      · exact .inl (.inl hm)
      · exact .inl (.inr (.inl hevent))
      · rcases mem_append.mp hj with hj | hj
        · exact .inl (.inr (.inr ⟨j, hj, hfile⟩))
        · rw [mem_singleton.mp hj, Job.files, append_nil] at hfile
          exact .inr (hallowed file hfile)
    · obtain ⟨f, hf, ⟨-, rfl⟩ | ⟨hmem, rfl⟩⟩ := hfiles file g hg
      · exact ⟨g, hf, Kept.refl g (hsum file), fun _ _ => rfl⟩
      · obtain ⟨f', hf', hnormal⟩ := hallowed file hmem
        obtain rfl : f = f' := Option.some.inj (hf.symm.trans hf')
        refine ⟨f, hf, kept_restate rfl rfl ?_ (.inr rfl) (hsum file), fun _ hnot => absurd ?_ hnot⟩
        · rw [hnormal]
          exact ⟨FileState.noConfusion, FileState.noConfusion⟩
        · exact .inr (.inr ⟨_, mem_append_right _ (mem_singleton.mpr rfl),
            mem_append_left _ hmem⟩)
  · exact (hfiles file g hg).imp fun f hf => hf.1

/-! ### Outputs -/

/-- What a job has copied is of its own outputs. -/
theorem jobOk_rewriting {inputs : List UInt64} {files : List BlobFileMeta} {pending : List Rewrite}
    (hown : ∀ r ∈ pending.filterMap (·.entry.reference), r.1 ∈ files.map (·.fileNumber) ∧ 0 < r.2)
    (hsmall : ∀ file, referenced (pending.map Rewrite.entry) file < 2 ^ 63) :
    JobOk ⟨inputs, files.map (·.fileNumber), .rewriting pending []⟩ := by
  refine ⟨hsmall, fun file hnot => ?_, fun pending' dropped hphase => ?_⟩
  · change referenced (pending.map Rewrite.entry) file = 0
    refine referenced_eq_zero fun hm => hnot ?_
    obtain ⟨size, hmem⟩ := hm
    rw [filterMap_map] at hmem
    exact (hown _ hmem).1
  · cases hphase
    exact ⟨List.Pairwise.nil, hown⟩

theorem inv_install (h : Inv slack s) {files : List BlobFileMeta} {pending : List Rewrite} {w : Write}
    (hallowed : Allowed s (.install cf i files pending w)) :
    Inv slack (exec options s (.install cf i files pending w)) := by
  obtain ⟨-, hnew, hrunning, hown, hsmall⟩ := hallowed
  have hok := h.ok cf
  have hfresh : ∀ n ∈ files.map (·.fileNumber), n ∉ s.used := forall_mem_map.mpr hnew
  rw [exec]
  dsimp only
  cases hi : (s.family cf).jobs[i]? with
  | none => exact h
  | some j =>
    have hjob : JobOk ⟨j.inputs, files.map (·.fileNumber), .rewriting pending []⟩ :=
      jobOk_rewriting hown hsmall
    have howes : ∀ file, owed ((s.family cf).setJob i
        ⟨j.inputs, files.map (·.fileNumber), .rewriting pending []⟩) file =
          owed (s.family cf) file + referenced (pending.map Rewrite.entry) file := by
      intro file
      have hset := owed_setJob hi ⟨j.inputs, files.map (·.fileNumber), .rewriting pending []⟩ file
      have hzero : j.owes file = 0 := by rw [Job.owes, hrunning j hi]
      rwa [hzero, add_zero] at hset
    refine inv_added h w (e := outputEdit cf _) rfl hfresh (fun g hg => ?_) fun st' hfiles => ?_
    · obtain ⟨p, hp, rfl⟩ := mem_map.mp hg
      obtain ⟨f, hf, rfl⟩ := mem_map.mp hp
      have hn : f.fileNumber ∈ files.map (·.fileNumber) := mem_map_of_mem hf
      have hfin : f.fileNumber ∉ (s.family cf).finished := fun hfin => hfresh _ hn (hok.known _ hfin)
      have hzero := (hok.untouched f.fileNumber (.inl (hfresh _ hn))).1.owed hok.jobs
      have hbound := hsmall f.fileNumber
      have hsum := howes f.fileNumber
      rw [hzero, zero_add] at hsum
      have hsize : (liveDataSize pending f.fileNumber).toNat =
          referenced (pending.map Rewrite.entry) f.fileNumber :=
        UInt64.toNat_ofNat_of_lt' (by norm_num [UInt64.size]; omega)
      exact ⟨hn, .inr ⟨hfin, rfl, hsize.trans hsum.symm, hsum.trans_lt hbound⟩⟩
    · refine ok_added hok hfresh rfl rfl rfl (jobs_setJob hok.jobs hjob) (fun file hnot => ?_)
        (fun file hfin => .inl hfin) (fun j' hj' file hfile => ?_) hfiles
      · have hzero : referenced (pending.map Rewrite.entry) file = 0 := hjob.own file hnot
        rw [howes, hzero, add_zero]
      · rcases mem_setJob hj' with hj' | rfl
        · exact .inl ⟨j', hj', hfile⟩
        · rcases mem_append.mp hfile with hin | hout
          · exact .inl ⟨j, mem_of_getElem? hi, mem_append_left _ hin⟩
          · exact .inr ⟨hout, fun hfin => hfresh file hout (hok.known file hfin)⟩

/-! ### Writing back -/

/-- By how much the new index of a key references a file. -/
theorem referenced_rewrite (r : Rewrite) (file : UInt64) :
    referenced [r.entry] file = if file = (r.newBlobIndex.getD {}).fileNumber then
      (r.newBlobIndex.getD {}).blobHandle.size.toNat else 0 := by
  rw [referenced, filterMap_cons, rewrite_reference]
  cases r.newBlobIndex with
  | none =>
    dsimp only [Option.map_none, Option.getD_none]
    rw [filterMap_nil, map_nil, sum_nil]
    exact (ite_self 0).symm
  | some index =>
    simp only [Option.map_some, Option.getD_some, filterMap_nil, map_cons, map_nil,
      sum_cons, sum_nil, add_zero]
    exact if_congr eq_comm rfl rfl

/-- A dropped record is counted for its file. -/
theorem dropped_add {dropped : List (UInt64 × UInt64)} (hm : Ordered dropped) {n size : UInt64}
    (hfits : ((dropped.lookup n).map UInt64.toNat).getD 0 + size.toNat < 2 ^ 64) (file : UInt64) :
    (((add n size dropped).lookup file).map UInt64.toNat).getD 0 =
      ((dropped.lookup file).map UInt64.toNat).getD 0 + if file = n then size.toNat else 0 := by
  rw [add, lookup_alter hm]
  by_cases hfile : file = n
  · subst hfile
    rw [if_pos rfl, if_pos rfl]
    cases hlookup : dropped.lookup file with
    | none => simp
    | some v =>
      rw [hlookup] at hfits
      exact (UInt64.toNat_add v size).trans (Nat.mod_eq_of_lt hfits)
  · rw [if_neg hfile, if_neg hfile, add_zero]

section

variable {inputs outputs : List UInt64} {r : Rewrite} {rest : List Rewrite} {dropped : List (UInt64 × UInt64)}

theorem owes_cons (file : UInt64) :
    Job.owes file ⟨inputs, outputs, .rewriting (r :: rest) dropped⟩ = referenced [r.entry] file +
      Job.owes file ⟨inputs, outputs, .rewriting rest dropped⟩ := by
  rw [Job.owes, Job.owes]
  dsimp only
  rw [map_cons, referenced_cons, Nat.add_assoc]

section

variable (h : JobOk ⟨inputs, outputs, .rewriting (r :: rest) dropped⟩)
include h

theorem JobOk.head (hx : r.entry.reference = some x) : x.1 ∈ outputs ∧ 0 < x.2 :=
  (h.rewrites _ _ rfl).2 x (mem_filterMap.mpr ⟨r, mem_cons_self, hx⟩)

theorem JobOk.tail : ∀ r ∈ rest.filterMap (·.entry.reference), r.1 ∈ outputs ∧ 0 < r.2 := by
  intro x hx
  obtain ⟨r', hr', href⟩ := mem_filterMap.mp hx
  exact (h.rewrites _ _ rfl).2 x (mem_filterMap.mpr ⟨r', mem_cons_of_mem r hr', href⟩)

/-- The key is written back: its new index is in the memtable. -/
theorem JobOk.written : JobOk ⟨inputs, outputs, .rewriting rest dropped⟩ := by
  refine ⟨fun file => ?_, fun file hnot => ?_, fun pending' dropped' hphase => ?_⟩
  · have hsmall := h.small file
    rw [owes_cons] at hsmall
    omega
  · have hzero := h.own file hnot
    rw [owes_cons] at hzero
    omega
  · cases hphase
    exact ⟨(h.rewrites _ _ rfl).1, h.tail⟩

/-- The key was overwritten: its new index counts as dropped. -/
theorem owes_dropped (file : UInt64) :
    Job.owes file ⟨inputs, outputs, .rewriting rest (add (r.newBlobIndex.getD {}).fileNumber
      (r.newBlobIndex.getD {}).blobHandle.size dropped)⟩ =
      Job.owes file ⟨inputs, outputs, .rewriting (r :: rest) dropped⟩ := by
  have hsmall := h.small (r.newBlobIndex.getD {}).fileNumber
  rw [owes_cons, referenced_rewrite, if_pos rfl, Job.owes] at hsmall
  dsimp only at hsmall
  rw [owes_cons, referenced_rewrite, Job.owes, Job.owes]
  dsimp only
  rw [dropped_add (h.rewrites _ _ rfl).1 (by omega)]
  omega

theorem JobOk.overwritten :
    JobOk ⟨inputs, outputs, .rewriting rest (add (r.newBlobIndex.getD {}).fileNumber
      (r.newBlobIndex.getD {}).blobHandle.size dropped)⟩ := by
  refine ⟨fun file => ?_, fun file hnot => ?_, fun pending' dropped' hphase => ?_⟩
  · rw [owes_dropped h]
    exact h.small file
  · rw [owes_dropped h]
    exact h.own file hnot
  · cases hphase
    exact ⟨ordered_alter (h.rewrites _ _ rfl).1 _ _, h.tail⟩

end

end

theorem inv_writeBack (h : Inv slack s) (cf : UInt32) (i : Nat) (base : BaseResult) :
    Inv slack (exec options s (.writeBack cf i base)) := by
  have hok := h.ok cf
  rw [exec]
  dsimp only
  split
  · rename_i inputs outputs r rest dropped hi
    have hj := hok.jobs _ (mem_of_getElem? hi)
    have hset := owed_setJob hi
    split
    · refine h.setFamily (fun _ _ => rfl) (ok_step_mem hok rfl rfl rfl (jobs_setJob hok.jobs hj.written) ?_
        (fun file hr => ?_) fun file => ?_)
      · intro x hx
        rcases mem_references_cons hx with href | hx
        · exact (hj.head href).2
        · exact hok.positive x hx
      · rcases hr with ⟨size, hsize⟩ | hrest
        · rcases mem_references_cons hsize with href | hsize
          · exact .inr (.inr ⟨_, mem_of_getElem? hi, mem_append_right _ (hj.head href).1⟩)
          · exact .inl ⟨size, hsize⟩
        · have hjobs : Relocated ((s.family cf).setJob i ⟨inputs, outputs, .rewriting rest dropped⟩) file :=
            .inr hrest
          exact relocated_setJob hi hjobs rfl
      · have hsum := hset ⟨inputs, outputs, .rewriting rest dropped⟩ file
        rw [owes_cons] at hsum
        rw [total, total, referenced_cons]
        change _ + owed ((s.family cf).setJob i _) file = _
        change refs (s.family cf).tables file + _ + _ = _
        omega
    · split
      · refine h.setFamily (fun _ _ => rfl) (ok_step_mem hok rfl rfl rfl (jobs_setJob hok.jobs hj.overwritten)
          hok.positive (fun file hr => relocated_setJob hi hr rfl) fun file => ?_)
        have hsum := hset ⟨inputs, outputs, .rewriting rest (add (r.newBlobIndex.getD {}).fileNumber
          (r.newBlobIndex.getD {}).blobHandle.size dropped)⟩ file
        rw [owes_dropped hj] at hsum
        change total (s.family cf) file + _ = _
        omega
      · exact h
  · exact h

/-! ### Subtracting what was overwritten -/

theorem settle_updateLiveDataSize (delta : Int64) :
    settle (f.updateLiveDataSize delta).2 = ((settle f).updateLiveDataSize delta).2 := by
  have hcollecting : collecting (f.updateLiveDataSize delta).2 = collecting f := by
    rw [collecting, (updateLiveDataSize_file f delta).2, ← collecting]
  rw [settle, settle, hcollecting]
  split
  · rw [TrackedFile.updateLiveDataSize, TrackedFile.updateLiveDataSize]
    dsimp only
    split <;> rfl
  · rfl

theorem balanced_live {f : TrackedFile} {refs owed slack : ℕ} {ds : List ℤ}
    (h : Balanced f refs owed slack ds) : f.liveDataSize.toNat < 2 ^ 63 := by
  by_cases hf : f.state = .pendingLSM
  · have hbalance := h.balance
    have hsum := sum_lt_of_oneIncrease h.oneIncrease (fun d hd => (h.bounded d hd).2) (by norm_num)
    rw [value, if_pos hf] at hbalance
    omega
  · exact (h.settled hf).1

/-- Nothing is subtracted from a file that the job has not written. -/
theorem kept_subtract {f : TrackedFile} {v : UInt64} {refs owed slack : ℕ}
    (hf : v = 0 ∨ f.state ≠ .pendingLSM) :
    Kept (refs, owed + v.toNat, slack) (refs, owed, slack) f (f.updateLiveDataSize (-v).toInt64).2 := by
  have hstate := (updateLiveDataSize_file f (-v).toInt64).2
  have hword : (-v).toInt64 = Int64.ofInt (-v.toNat) := by
    rw [UInt64.toInt64_neg, toInt64_eq, Int64.ofInt_neg]
  refine ⟨fun hpending => hstate ▸ hpending, fun hlive => hstate ▸ hlive, fun hlive ds h => ?_⟩
  have hob : (settle f).state ≠ .obsolete := fun hs => hlive (hstate.trans (settle_obsolete.mp hs))
  rw [settle_updateLiveDataSize, hword]
  by_cases hpending : f.state = .pendingLSM
  · obtain rfl : v = 0 := hf.resolve_right fun hnot => hnot hpending
    have hlt := balanced_live h
    obtain ⟨size, heq, hsize⟩ := updateLiveDataSize_eq (f := settle f) (d := 0) (by omega) (by omega)
    have hsame : size = (settle f).liveDataSize := UInt64.toNat_inj.mp (by omega)
    rw [UInt64.toNat_zero, Nat.cast_zero, neg_zero, heq, hsame]
    exact h
  · exact Balanced.subtract h (fun hs => hpending (settle_pending.mp hs)) hob

theorem subtractDropped_files {dropped : List (UInt64 × UInt64)} (h : Ordered dropped) (n : UInt64) :
    (subtractDropped st dropped).files n = (dropped.lookup n).elim (st.files n)
      fun v => (st.files n).map fun f => (f.updateLiveDataSize (-v).toInt64).2 :=
  foldl_modify_files (nodup_keys h) (fun v f => (f.updateLiveDataSize (-v).toInt64).2) st n

theorem inv_subtract (h : Inv slack s) (cf : UInt32) (i : Nat) :
    Inv slack (exec options s (.subtract cf i)) := by
  have hok := h.ok cf
  rw [exec]
  split
  · rename_i inputs outputs dropped hi
    have hj := hok.jobs _ (mem_of_getElem? hi)
    have hjob : JobOk ⟨inputs, outputs, .rewritten⟩ :=
      ⟨fun _ => Nat.two_pow_pos 63, fun _ _ => rfl, fun _ _ hphase => by cases hphase⟩
    have howed : ∀ file, owed (s.family cf) file =
        owed ((s.family cf).setJob i ⟨inputs, outputs, .rewritten⟩) file +
          ((dropped.lookup file).map UInt64.toNat).getD 0 := by
      intro file
      have hset := owed_setJob hi ⟨inputs, outputs, .rewritten⟩ file
      have hold : Job.owes file ⟨inputs, outputs, .rewriting [] dropped⟩ =
          ((dropped.lookup file).map UInt64.toNat).getD 0 := zero_add _
      have hnew : Job.owes file ⟨inputs, outputs, .rewritten⟩ = 0 := rfl
      omega
    have hkept : ∀ file g, (subtractDropped (s.blobs.storage cf) dropped).files file = some g →
        ∃ f, (s.blobs.storage cf).files file = some f ∧
          Kept (total (s.family cf) file, owed (s.family cf) file, slack cf file)
            (total (s.family cf) file, owed ((s.family cf).setJob i ⟨inputs, outputs, .rewritten⟩) file,
              slack cf file) f g ∧ g.state = f.state := by
      intro file g hg
      have hfile := howed file
      rw [subtractDropped_files (hj.rewrites _ _ rfl).1] at hg
      cases hlookup : dropped.lookup file with
      | none =>
        rw [hlookup] at hg hfile
        refine ⟨g, hg, Kept.refl g ?_, rfl⟩
        rw [hfile]
        rfl
      | some v =>
        rw [hlookup] at hg hfile
        obtain ⟨f, hf, rfl⟩ := Option.map_eq_some_iff.mp hg
        refine ⟨f, hf, ?_, (updateLiveDataSize_file f _).2⟩
        rw [hfile]
        refine kept_subtract ?_
        by_cases hout : file ∈ outputs
        · exact .inr (hok.settled file f (.inr (.inr ⟨_, mem_of_getElem? hi,
            mem_append_right _ hout⟩)) hf)
        · have hzero := hj.own file hout
          rw [Job.owes] at hzero
          dsimp only at hzero
          rw [hlookup] at hzero
          exact .inl (UInt64.toNat_inj.mp (Nat.eq_zero_of_add_eq_zero_left hzero))
    refine h.setStorage (fun _ _ => rfl) ?_ fun file g hg => ?_
    · refine ok_step hok rfl rfl rfl (jobs_setJob hok.jobs hjob) hok.positive
        (fun file hr => .inl (relocated_setJob hi hr rfl)) (fun _ _ => rfl) fun file g hg => ?_
      obtain ⟨f, hf, hkept, hstate⟩ := hkept file g hg
      exact ⟨f, hf, hkept, fun _ _ => hstate⟩
    · exact (hkept file g hg).imp fun f hf => hf.1
  · exact h

/-! ### The end of a job -/

theorem inv_releaseJob (h : Inv slack s) (hi : (s.family cf).jobs[i]? = some j) :
    Inv (fun cf' file => slack cf' file + if cf' = cf then j.owes file else 0) (s.releaseJob cf i j) := by
  have hok := h.ok cf
  have hj := mem_of_getElem? hi
  have hjobs : ∀ j' ∈ (s.family cf).jobs.eraseIdx i, j' ∈ (s.family cf).jobs :=
    fun j' hj' => mem_of_mem_eraseIdx hj'
  have hkept : ∀ file g, (releaseGcFiles (s.blobs.storage cf) j.inputs j.outputs).files file = some g →
      ∃ f, (s.blobs.storage cf).files file = some f ∧
        (g = f ∨ file ∈ j.files ∧ f.state ≠ .obsolete ∧ g = { f with state := .normal }) := by
    intro file g hg
    rw [releaseGcFiles_files] at hg
    split at hg
    · rename_i hmem
      obtain ⟨f, hf, rfl⟩ := Option.map_eq_some_iff.mp hg
      refine ⟨f, hf, ?_⟩
      rw [TrackedFile.fileStateTransit]
      split
      · exact .inl rfl
      · rename_i hob
        exact .inr ⟨mem_append.mpr hmem, hob, rfl⟩
    · exact ⟨g, hg, .inl rfl⟩
  refine h.setStorage (fun cf' hne => ?_) ?_ fun file g hg => ?_
  · funext file
    rw [if_neg hne, add_zero]
  · have hsum : ∀ file, total (s.family cf) file + owed { s.family cf with
        jobs := (s.family cf).jobs.eraseIdx i } file + (slack cf file + if cf = cf then j.owes file else 0) =
          total (s.family cf) file + owed (s.family cf) file + slack cf file := by
      intro file
      have howed := owed_eraseIdx hi file
      rw [if_pos rfl]
      dsimp only at howed ⊢
      omega
    refine ok_step hok rfl rfl rfl (fun j' hj' => hok.jobs j' (hjobs j' hj')) hok.positive
      (fun file hr => .inl ?_) (fun file hnot => ?_) fun file g hg => ?_
    · rcases hr with hm | hevent | ⟨j', hj', hfile⟩
      · exact .inl hm
      · exact .inr (.inl hevent)
      · exact .inr (.inr ⟨j', hjobs j' hj', hfile⟩)
    · have hout : file ∉ j.outputs := fun hout => hnot (.inr (.inr ⟨j, hj, mem_append_right _ hout⟩))
      rw [if_pos rfl, (hok.jobs j hj).own file hout, add_zero]
    · obtain ⟨f, hf, rfl | ⟨hmem, hob, rfl⟩⟩ := hkept file g hg
      · exact ⟨g, hf, Kept.refl g (hsum file), fun _ _ => rfl⟩
      · have hrelocated : Relocated (s.family cf) file := .inr (.inr ⟨j, hj, hmem⟩)
        exact ⟨f, hf, kept_restate rfl rfl ⟨hok.settled file f hrelocated hf, hob⟩ (.inl rfl) (hsum file),
          fun hnot _ => absurd hrelocated hnot⟩
  · exact (hkept file g hg).imp fun f hf => hf.1

/-- The inputs of a job are deleted. -/
theorem inv_deleteInputs (h : Inv slack s) (hj : j ∈ (s.family cf).jobs) (obsoleteSequence : Nat)
    (w : Write) :
    Inv slack { s with blobs := (s.blobs.logAndApply w
      (deleteInputsEdit (s.blobs.storage cf) ⟨cf, j.inputs, j.outputs⟩ obsoleteSequence)).2 } := by
  have hok := h.ok cf
  generalize hedit : deleteInputsEdit (s.blobs.storage cf) ⟨cf, j.inputs, j.outputs⟩ obsoleteSequence = e
  have hcf : e.columnFamilyId = cf := hedit ▸ rfl
  have hadded : e.addedFiles = [] := hedit ▸ rfl
  have hinputs : ∀ n ∈ e.deletedFiles.map (·.1), n ∈ j.inputs := by
    intro n hn
    rw [← hedit, deleteInputsEdit, deleteEdit, map_map] at hn
    obtain ⟨m, hm, rfl⟩ := mem_map.mp hn
    exact mem_of_mem_filter hm
  have hother : ∀ cf', cf' ≠ cf → (s.blobs.logAndApply w e).2.storage cf' = s.blobs.storage cf' := by
    intro cf' hne
    exact (logAndApply_storage s.blobs w e cf').resolve_right fun hand => hne (hand.1.trans hcf)
  have hfiles : ∀ n g, ((s.blobs.logAndApply w e).2.storage cf).files n = some g →
      ∃ f, (s.blobs.storage cf).files n = some f ∧
        (g = f ∨ n ∈ j.inputs ∧ g = { f with state := .obsolete }) := by
    intro n g hg
    rcases logAndApply_storage s.blobs w e cf with heq | ⟨-, heq⟩
    · rw [heq] at hg
      exact ⟨g, hg, .inl rfl⟩
    · rw [heq] at hg
      obtain ⟨f, hf, hcase⟩ := apply_files hadded hg
      exact ⟨f, hf, hcase.imp_right fun hand => ⟨hinputs n hand.1, hand.2⟩⟩
  refine h.of_family cf (update_eq_self cf s.family).symm (fun _ hfile => hfile)
    (fun cf' hne => ⟨rfl, fun n g hg => ?_⟩) ?_ fun n g hg => .inl ((hfiles n g hg).imp fun f hf => hf.1)
  · dsimp only at hg
    rwa [hother cf' hne] at hg
  · refine ok_step hok rfl rfl rfl hok.jobs hok.positive (fun _ hr => .inl hr) (fun _ _ => rfl)
      fun n g hg => ?_
    obtain ⟨f, hf, rfl | ⟨hmem, rfl⟩⟩ := hfiles n g hg
    · exact ⟨g, hf, Kept.refl g rfl, fun _ _ => rfl⟩
    · refine ⟨f, hf, ⟨FileState.noConfusion, fun hlive => absurd rfl hlive,
        fun hlive => absurd rfl hlive⟩, fun hnot => absurd ?_ hnot⟩
      exact .inr (.inr ⟨j, hj, mem_append_left _ hmem⟩)

theorem inv_finishJob (h : Inv slack s) (cf : UInt32) (i obsoleteSequence : Nat) (w : Write) :
    Inv slack (exec options s (.finishJob cf i obsoleteSequence w)) := by
  rw [exec]
  split
  · rename_i inputs outputs hi
    have hdeleted := inv_deleteInputs h (mem_of_getElem? hi) obsoleteSequence w
    have hreleased := inv_releaseJob hdeleted hi
    have hzero : (fun cf' file => slack cf' file + if cf' = cf then
        Job.owes file ⟨inputs, outputs, .rewritten⟩ else 0) = slack := by
      funext cf' file
      exact congrArg (slack cf' file + ·) (ite_self 0)
    rwa [hzero] at hreleased
  · exact h

theorem inv_failJob (h : Inv slack s) (cf : UInt32) (i : Nat) :
    Inv (fun cf' file => slack cf' file + lost s cf' file (.failJob cf i))
      (exec options s (.failJob cf i)) := by
  rw [exec]
  cases hi : (s.family cf).jobs[i]? with
  | none =>
    have hzero : (fun cf' file => slack cf' file + lost s cf' file (.failJob cf i)) = slack := by
      funext cf' file
      rw [lost]
      split
      · rename_i hcf
        rw [← hcf, hi]
        rfl
      · rfl
    rw [hzero]
    exact h
  | some j =>
    have hlost : (fun cf' file => slack cf' file + lost s cf' file (.failJob cf i)) =
        fun cf' file => slack cf' file + if cf' = cf then j.owes file else 0 := by
      funext cf' file
      rw [lost]
      by_cases hcf : cf' = cf
      · subst hcf
        rw [if_pos rfl, if_pos rfl, hi]
        rfl
      · rw [if_neg hcf, if_neg (Ne.symm hcf)]
    rw [hlost]
    exact inv_releaseJob h hi

/-! ## Every step -/

theorem inv_exec (h : Inv slack s) {op : Op} (hallowed : Allowed s op) :
    Inv (fun cf file => slack cf file + lost s cf file op) (exec options s op) := by
  cases op with
  | finish cf files w => exact inv_finish options h hallowed.2.2
  | write cf entry => exact inv_write options h hallowed
  | flush cf newer table created => exact inv_flush options h hallowed
  | compact cf inputs outputs outputLevel created => exact inv_compact options h hallowed
  | compactFailed cf status inputs outputs outputLevel =>
    exact inv_compactFailed options h cf status inputs outputs outputLevel
  | deliver cf i latestSequence w => exact inv_deliver options h hallowed i latestSequence w
  | purge cf oldestSequence => exact inv_purge options h cf oldestSequence
  | pick cf inputs => exact inv_pick options h hallowed
  | install cf i files pending w => exact inv_install options h hallowed
  | writeBack cf i base => exact inv_writeBack options h cf i base
  | subtract cf i => exact inv_subtract options h cf i
  | finishJob cf i obsoleteSequence w => exact inv_finishJob options h cf i obsoleteSequence w
  | failJob cf i => exact inv_failJob options h cf i

end

end TitanGC.Accounting.GcPreservation
