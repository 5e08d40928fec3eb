import TitanGC.Offload.History

/-!
# The invariant of careful runs

Every record is referenced by at most one version of its key; a record whose bit
is set, or will be set by an undelivered notification, is referenced by none and
will not be written back; and a running job still has in hand every record of its
inputs that a read can reach. `LsmStep` says what user writes, switches, flushes
and compactions have in common, so that the parts of the invariant about files,
bitmaps and jobs are carried over once.
-/

namespace TitanGC.Offload.Invariant

open Lib.ByteCoding Format.BlobFormat Compaction.Merge Storage.BlobFiles Offload.System History

variable {K : Type}

def pendingOf : Phase K → List (K × BlobIndex)
  | .copying _ => []
  | .writing _ pending => pending

def slot (p : BlobPtr) : UInt64 × UInt64 := (p.fileNumber, p.blobHandle.index)

def oldLoc (b : BlobIndex) : Loc := (b.oldFileNumber, b.oldBlobHandle.offset)

/-- A record that no version references and no job will write back. -/
structure Dead (s : State K) (d : UInt64 × UInt64) : Prop where
  written : s.files d.1 ≠ none
  unreferenced : ∀ k, ∀ p ∈ ptrs (s.history k), slot p ≠ d
  notPending : ∀ j job, s.jobs j = some job → ∀ kb ∈ pendingOf job.phase, slot kb.2.ptr ≠ d

/-- A record whose bit is set, or will be by an undelivered notification. -/
def Marked (s : State K) (d : UInt64 × UInt64) : Prop :=
  s.bits d.1 d.2 = true ∨ ∃ ds ∈ s.notices, d ∈ ds

/-- A job has the record at `p` of the key `k` in hand. -/
def Covered (k : K) (p : BlobPtr) : Phase K → Prop
  | .copying bitmap => bitmap p.fileNumber p.blobHandle.index = false
  | .writing _ pending => ∃ b, (k, b) ∈ pending ∧ loc p = oldLoc b

structure WritingOk (s : State K) (output : UInt64) (pending : List (K × BlobIndex)) : Prop where
  written : s.files output ≠ none
  live : s.obsolete output = false
  notInput : ∀ j job, s.jobs j = some job → output ∉ job.inputs
  fileNumber : ∀ kb ∈ pending, kb.2.fileNumber = output
  moved : ∀ kb ∈ pending, kb.2.oldFileNumber ≠ 0
  unreferenced : ∀ kb ∈ pending, kb.2.ptr ∉ ptrs (s.history kb.1)
  copied : ∀ kb ∈ pending, ∃ v p, Holds s.files kb.2.ptr kb.1 v ∧ Holds s.files p kb.1 v ∧
    loc p = oldLoc kb.2
  distinct : (pending.map (·.2.ptr)).Nodup

structure JobOk (s : State K) (job : Job K) : Prop where
  inputs : ∀ f ∈ job.inputs, s.files f ≠ none
  covers : ∀ k p, seen s k = some (.address p) → p.fileNumber ∈ job.inputs → Covered k p job.phase
  writing : ∀ output pending, job.phase = .writing output pending → WritingOk s output pending

/-- What is seen of a key is its last user write, in a file that is not obsolete. -/
def ReadsLast (s : State K) (k : K) : Prop :=
  match seen s k with
  | none => s.lastPut k = none
  | some (.value v) => s.lastPut k = some v
  | some (.address p) =>
    ∃ v, s.lastPut k = some v ∧ Holds s.files p k v ∧ s.obsolete p.fileNumber = false

/-- What is seen stays the same, and so does the record it is in. -/
theorem ReadsLast.of_seen_eq {s t : State K} {k : K} (h : ReadsLast s k) (hseen : seen t k = seen s k)
    (hlast : t.lastPut k = s.lastPut k)
    (hrecord : ∀ p v, seen s k = some (.address p) → Holds s.files p k v →
      s.obsolete p.fileNumber = false → Holds t.files p k v ∧ t.obsolete p.fileNumber = false) :
    ReadsLast t k := by
  unfold ReadsLast at h ⊢
  rw [hseen, hlast]
  cases hs : seen s k with
  | none => rw [hs] at h; exact h
  | some tgt =>
    rw [hs] at h
    cases tgt with
    | value v => exact h
    | address p =>
      obtain ⟨v, hv, hh, ho⟩ := h
      exact ⟨v, hv, hrecord p v hs hh ho⟩

structure Inv (s : State K) : Prop where
  filesOk : FilesOk s.files
  linked : ∀ k, Linked s k
  stored : ∀ k, ∀ p ∈ ptrs (s.history k), ∃ v, Holds s.files p k v
  distinct : ∀ k, (ptrs (s.history k)).Nodup
  reads : ∀ k, ReadsLast s k
  marked : ∀ d, Marked s d → Dead s d
  purged : ∀ f, s.purged f = true → s.obsolete f = true
  obsolete : ∀ f, s.obsolete f = true → s.files f ≠ none
  jobs : ∀ j job, s.jobs j = some job → JobOk s job
  outputs : ∀ i j ini inj o pi pj, s.jobs i = some ⟨ini, .writing o pi⟩ →
    s.jobs j = some ⟨inj, .writing o pj⟩ → i = j

theorem inv_init : Inv (init : State K) where
  filesOk := ⟨by simp [init], rfl⟩
  linked := fun k => .inl trivial
  stored := by simp [init, State.history]
  distinct := by simp [init, State.history]
  reads := fun k => rfl
  marked := by simp [init, Marked]
  purged := by simp [init]
  obsolete := by simp [init]
  jobs := by simp [init]
  outputs := by simp [init]

/-! ## Steps of the LSM -/

/-- What the steps that are not steps of a job have in common. -/
structure LsmStep (s t : State K) (new : Files K) : Prop where
  fresh : Fresh s.files new
  files : t.files = add s.files new
  obsolete : t.obsolete = s.obsolete
  jobs : t.jobs = s.jobs
  ptrs : ∀ k, ∀ p ∈ ptrs (t.history k), p ∈ ptrs (s.history k) ∨ ∃ v, Holds new p k v
  seen : ∀ k p, seen t k = some (.address p) → seen s k = some (.address p) ∨ ∃ v, Holds new p k v

section

variable {s t : State K} {new : Files K} (h : LsmStep s t new)

include h

theorem file_eq_none_of_new {p : BlobPtr} {k : K} {v : Bytes} (hp : Holds new p k v) :
    s.files p.fileNumber = none := by
  obtain ⟨recs, hrecs, -⟩ := hp
  exact (h.fresh _ _ hrecs).1

theorem file_ne_none_step {f : UInt64} (hf : s.files f ≠ none) : t.files f ≠ none := by
  rw [h.files, Ne, add_eq_none]
  exact fun hn => hf hn.2

theorem holds_step {p : BlobPtr} {k : K} {v : Bytes} (hp : Holds s.files p k v) : Holds t.files p k v :=
  h.files ▸ holds_add_old h.fresh hp

theorem dead_step {d : UInt64 × UInt64} (hd : Dead s d) : Dead t d where
  written := file_ne_none_step h hd.written
  unreferenced := by
    intro k p hp
    rcases h.ptrs k p hp with hold | ⟨v, hv⟩
    · exact hd.unreferenced k p hold
    · rintro rfl
      exact hd.written (file_eq_none_of_new h hv)
  notPending := by rw [h.jobs]; exact hd.notPending

theorem jobOk_step {job : Job K} (hj : JobOk s job) : JobOk t job where
  inputs := fun f hf => file_ne_none_step h (hj.inputs f hf)
  covers := by
    intro k p hp hin
    rcases h.seen k p hp with hold | ⟨v, hv⟩
    · exact hj.covers k p hold hin
    · exact absurd (file_eq_none_of_new h hv) (hj.inputs _ hin)
  writing := by
    intro output pending hph
    have hw := hj.writing output pending hph
    refine ⟨file_ne_none_step h hw.written, by rw [h.obsolete]; exact hw.live,
      by rw [h.jobs]; exact hw.notInput, hw.fileNumber, hw.moved, ?_, ?_, hw.distinct⟩
    · intro kb hkb hin
      rcases h.ptrs _ _ hin with hold | ⟨v, hv⟩
      · exact hw.unreferenced kb hkb hold
      · have hnone := file_eq_none_of_new h hv
        change s.files kb.2.fileNumber = none at hnone
        rw [hw.fileNumber kb hkb] at hnone
        exact hw.written hnone
    · intro kb hkb
      obtain ⟨v, p, hnew, hold, hloc⟩ := hw.copied kb hkb
      exact ⟨v, p, holds_step h hnew, holds_step h hold, hloc⟩

/-- The parts of the invariant that every such step keeps; the links, the reads and
the bitmaps remain. -/
theorem inv_lsmStep (hs : Inv s) (hlinked : ∀ k, Linked t k) (hdistinct : ∀ k, (ptrs (t.history k)).Nodup)
    (hreads : ∀ k, ReadsLast t k) (hmarked : ∀ d, Marked t d → Marked s d ∨ Dead t d)
    (hpurged : ∀ f, t.purged f = true → t.obsolete f = true) : Inv t where
  filesOk := h.files ▸ filesOk_add hs.filesOk h.fresh
  linked := hlinked
  stored := by
    intro k p hp
    rcases h.ptrs k p hp with hold | ⟨v, hv⟩
    · obtain ⟨v, hv⟩ := hs.stored k p hold
      exact ⟨v, holds_step h hv⟩
    · exact ⟨v, h.files ▸ holds_add_new hv⟩
  distinct := hdistinct
  reads := hreads
  marked d hd := (hmarked d hd).elim (fun hold => dead_step h (hs.marked d hold)) id
  purged := hpurged
  obsolete := by
    rw [h.obsolete]
    exact fun f hf => file_ne_none_step h (hs.obsolete f hf)
  jobs := by rw [h.jobs]; exact fun j job hj => jobOk_step h (hs.jobs j job hj)
  outputs := by rw [h.jobs]; exact hs.outputs

/-- Reads after a step that keeps what is seen, or separates an inline value. -/
theorem readsLast_step (hs : Inv s) {k : K} (hlast : t.lastPut k = s.lastPut k)
    (hsame : SameOrSeparated new k (seen s k) (seen t k)) : ReadsLast t k := by
  have hr := hs.reads k
  rcases hsame with heq | ⟨v, p, hbefore, hafter, hp⟩
  · exact hr.of_seen_eq heq hlast fun p v _ hh ho => ⟨holds_step h hh, h.obsolete ▸ ho⟩
  · unfold ReadsLast at hr ⊢
    rw [hbefore] at hr
    rw [hlast, hafter]
    refine ⟨v, hr, h.files ▸ holds_add_new hp, ?_⟩
    rw [h.obsolete, Bool.eq_false_iff]
    exact fun ho => hs.obsolete _ ho (file_eq_none_of_new h hp)

end

end TitanGC.Offload.Invariant
