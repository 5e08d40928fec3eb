import TitanGC.Software.System

/-!
# The invariant of the software system

Every record is referenced by at most one version. A record whose bit is set, or
will be set, is referenced by none and never will be. A running job has in hand
every record of its inputs that is the newest version of its key. A file that the
manifest deletes is invisible to every read from some synced sequence number on.
`Grows` says what all steps have in common, so that most of this is carried over
once.
-/

namespace TitanGC.Software.Invariant

open Lib.MultiVersion List Format.Coding Format.BlobFormat Storage.BlobFiles Manifest.Replay
open GcJob Software.System

/-! ## What the parts of a job mean -/

def pendingOf : Phase → List Rewrite
  | .finishing _ (.rewrite pending) => pending
  | .rewriting pending _ => pending
  | _ => []

def droppedOf : Phase → List (UInt64 × UInt64)
  | .rewriting _ dropped => dropped
  | _ => []

def Building : Phase → Prop
  | .finishing _ .install => True
  | .built => True
  | _ => False

def Unlogged : Phase → Prop
  | .finishing .written _ => True
  | .finishing .synced _ => True
  | _ => False

def Unsynced : Phase → Prop
  | .finishing .written _ => True
  | _ => False

def Finishing : Phase → Prop
  | .finishing _ _ => True
  | _ => False

/-- The job has the record at `p` of the key `k` in hand. -/
def InHand (k : Key) (p : BlobPtr) : Phase → Prop
  | .finishing _ .install => True
  | .built => True
  | .picked => True
  | .scanning sc => (∃ r ∈ sc.queue, r.key = k ∧ r.ptr = p) ∨
      ((∃ r ∈ sc.todo, r.key = k ∧ r.ptr = p) ∧ ¬ (sc.lastKeyIsFresh = true ∧ k = sc.lastKey))
  | .finishing _ (.rewrite pending) => ∃ e ∈ pending, e.key = k ∧ e.old = p
  | .rewriting pending _ => ∃ e ∈ pending, e.key = k ∧ e.old = p
  | .marked => False
  | .walSynced => False
  | .deleting _ => False

/-- The new version of a rewrite stands for the record it replaces. -/
structure RewriteOk (fs : Files Key) (outputs : List UInt64) (e : Rewrite) : Prop where
  copied : ∃ v, Holds fs e.old e.key v ∧
    (e.slot = .value v ∨ ∃ p, e.slot = .index p ∧ Holds fs p e.key v ∧ p.fileNumber ∈ outputs)

/-- The copy that a rewrite refers to is in the outputs of its job. -/
theorem RewriteOk.copy {fs : Files Key} {outputs : List UInt64} {e : Rewrite}
    (h : RewriteOk fs outputs e) {p : BlobPtr} (hp : e.slot = .index p) :
    (∃ v, Holds fs p e.key v) ∧ p.fileNumber ∈ outputs := by
  obtain ⟨v, -, hv | ⟨q, hq, hh, ho⟩⟩ := h.copied
  · rw [hv] at hp
    cases hp
  · obtain rfl : q = p := by simpa [hq] using hp
    exact ⟨⟨v, hh⟩, ho⟩

/-! ## Reads -/

/-- The sequence numbers at which reads happen, now or after a crash. -/
def Relevant (s : State) (p : Nat) : Prop := p ∈ s.snapshots ∨ s.flushed ≤ p

/-- From `q` on, no read finds a version in the file `f`. -/
def Gone (s : State) (f : UInt64) (q : Nat) : Prop :=
  ∀ p, Relevant s p → q ≤ p → ∀ k r, visible (s.lsm k) p = some (.index r) → r.fileNumber ≠ f

def ReadsLast (s : State) (k : Key) : Prop :=
  match tip s.lsm s.seq k with
  | none => s.lastWrite k = none
  | some .deletion => s.lastWrite k = none
  | some (.value v) => s.lastWrite k = some v
  | some (.index p) => ∃ v, s.lastWrite k = some v ∧ Holds s.files p k v

def Referenced (s : State) (p : BlobPtr) : Prop := ∃ k n, s.lsm k n = some (.index p)

/-! ## Bitmaps -/

/-- A record whose bit is set, or will be set by a notification or a job. -/
def Marked (s : State) (d : UInt64 × UInt64) : Prop :=
  s.bits d.1 d.2 = true ∨ (∃ info ∈ s.notices, info.invalid d = true) ∨
    ∃ j job, s.jobs j = some job ∧ d ∈ droppedOf job.phase

/-- A record that no version references, now or later. -/
structure Dead (s : State) (d : UInt64 × UInt64) : Prop where
  written : s.files d.1 ≠ none
  unreferenced : ∀ p, Referenced s p → slotOf p ≠ d
  notPending : ∀ j job, s.jobs j = some job → ∀ p ∈ newPtrs (pendingOf job.phase), slotOf p ≠ d
  notBuilding : ∀ j job, s.jobs j = some job → Building job.phase → d.1 ∉ job.outputs

/-! ## Jobs -/

/-- In bitmap mode the scan skips nothing, so every record of the inputs that some
version refers to is queued or still to come. -/
structure ScanOk (s : State) (inputs : List UInt64) (useBitmap : Bool) (sc : Scan) : Prop where
  bitmap : ∀ f i, sc.bitmap f i = true → s.bits f i = true
  todo : ∀ r ∈ sc.todo, r.ptr.fileNumber ∈ inputs ∧ Holds s.files r.ptr r.key r.value
  queue : ∀ r ∈ sc.queue, r.ptr.fileNumber ∈ inputs ∧ Holds s.files r.ptr r.key r.value
  fresh : useBitmap = true → sc.lastKeyIsFresh = false
  referenced : useBitmap = true → ∀ p, p.fileNumber ∈ inputs → Referenced s p →
    ∃ r, (r ∈ sc.todo ∨ r ∈ sc.queue) ∧ r.ptr = p

structure JobOk (s : State) (job : Job) : Prop where
  inputs : ∀ f ∈ job.inputs, f ∈ added (s.log.take s.logSynced)
  written : ∀ f ∈ job.outputs, s.files f ≠ none
  synced : ¬ Unsynced job.phase → ∀ f ∈ job.outputs, s.fileSynced f = true
  logged : ¬ Unlogged job.phase → ∀ f ∈ job.outputs, f ∈ added s.log
  applied : ¬ Finishing job.phase → ∀ f ∈ job.outputs, f ∈ added (s.log.take s.logSynced)
  covers : ∀ k p, tip s.lsm s.seq k = some (.index p) → p.fileNumber ∈ job.inputs →
    InHand k p job.phase
  pending : ∀ e ∈ pendingOf job.phase, RewriteOk s.files job.outputs e
  unreferenced : ∀ p ∈ newPtrs (pendingOf job.phase), ¬ Referenced s p
  nodup : (newPtrs (pendingOf job.phase)).Nodup
  building : Building job.phase → ∀ p, Referenced s p → p.fileNumber ∉ job.outputs
  scanning : ∀ sc, job.phase = .scanning sc → ScanOk s job.inputs job.useBitmap sc
  settled : job.phase = .walSynced → ∀ f ∈ job.inputs, ∃ q ≤ s.synced, Gone s f q
  deleting : ∀ o, job.phase = .deleting o → o ≤ s.seq ∧
    ∀ f ∈ job.inputs, f ∈ deleted s.log ∧ ∃ q ≤ s.synced, q ≤ o ∧ Gone s f q

/-- Files of different jobs are different, and no output is an input. -/
structure Separated (jobs : Nat → Option Job) : Prop where
  outputs : ∀ i j a b f, jobs i = some a → jobs j = some b → f ∈ a.outputs → f ∈ b.outputs → i = j
  inputs : ∀ i j a b f, jobs i = some a → jobs j = some b → f ∈ a.inputs → f ∈ b.inputs → i = j
  mixed : ∀ i j a b f, jobs i = some a → jobs j = some b → f ∈ a.outputs → f ∉ b.inputs
  nodup : ∀ i a, jobs i = some a → a.inputs.Nodup ∧ a.outputs.Nodup

/-! ## The manifest -/

structure ManifestOk (cf : UInt32) (s : State) : Prop where
  wellFormed : WellFormed cf s.log
  started : ∃ e rest, s.log = e :: rest ∧ e.nextFileNumber.isSome
  first : 1 ≤ s.logSynced
  length : s.logSynced ≤ s.log.length
  inFiles : ∀ f ∈ added s.log, s.files f ≠ none ∧ s.fileSynced f = true
  next : ∀ e ∈ s.log, ∀ n, e.nextFileNumber = some n → n ≤ s.nextFileNumber
  unlogged : ∀ j job, s.jobs j = some job → Unlogged job.phase →
    ∀ f ∈ job.outputs, f ∉ added s.log
  referenced : ∀ p, Referenced s p → p.fileNumber ∈ added (s.log.take s.logSynced)
  /-- A file that the manifest deletes is obsolete, or about to be. -/
  deleting : ∀ f ∈ deleted s.log, s.obsolete f ≠ none ∨
    ∃ j job o, s.jobs j = some job ∧ job.phase = .deleting o ∧ f ∈ job.inputs
  obsolete : ∀ f o, s.obsolete f = some o → f ∈ deleted (s.log.take s.logSynced)
  outputs : ∀ j job, s.jobs j = some job → ∀ f ∈ job.outputs, f ∉ deleted s.log

structure DataOk (s : State) : Prop where
  filesOk : FilesOk s.files
  bounded : ∀ k, BoundedBy (s.lsm k) s.seq
  stored : ∀ k n p, s.lsm k n = some (.index p) → ∃ v, Holds s.files p k v
  unique : ∀ k n k' n' p, s.lsm k n = some (.index p) → s.lsm k' n' = some (.index p) →
    k = k' ∧ n = n'

structure BoundsOk (s : State) : Prop where
  flushed : s.flushed ≤ s.seq
  synced : s.synced ≤ s.seq
  snapshots : ∀ sn ∈ s.snapshots, sn ≤ s.seq
  sorted : s.snapshots.Pairwise (· ≤ ·)
  purging : ∀ o, s.purging = some o →
    o = kMaxSequenceNumber ∨ (o ≤ s.seq ∧ ∀ sn ∈ s.snapshots, o ≤ sn)

structure Inv (cf : UInt32) (s : State) : Prop where
  data : DataOk s
  reads : ∀ k, ReadsLast s k
  bounds : BoundsOk s
  manifest : ManifestOk cf s
  gone : ∀ f ∈ deleted s.log, ∃ q ≤ s.synced, Gone s f q
  obsolete : ∀ f o, s.obsolete f = some o → o ≤ s.seq ∧ Gone s f o
  purged : ∀ f, s.purged f = true → s.obsolete f ≠ none
  marked : ∀ d, Marked s d → Dead s d
  jobs : ∀ j job, s.jobs j = some job → JobOk s job
  separated : Separated s.jobs

/-! ## What all steps have in common -/

/-- Files, the manifest, the bitmaps and the synced part only grow, and a version
refers to a record it did not refer to before only if the record is `new`. -/
structure Grows (s t : State) (new : BlobPtr → Prop) : Prop where
  holds : ∀ p k v, Holds s.files p k v → Holds t.files p k v
  written : ∀ f, s.files f ≠ none → t.files f ≠ none
  fileSynced : ∀ f, s.fileSynced f = true → t.fileSynced f = true
  log : ∃ edits, t.log = s.log ++ edits
  logSynced : s.logSynced ≤ t.logSynced
  bits : ∀ f i, s.bits f i = true → t.bits f i = true
  seq : s.seq ≤ t.seq
  synced : s.synced ≤ t.synced
  refs : ∀ k n p, t.lsm k n = some (.index p) → s.lsm k n = some (.index p) ∨ new p
  reads : ∀ k q r, Relevant t q → visible (t.lsm k) q = some (.index r) →
    (Relevant s q ∧ visible (s.lsm k) q = some (.index r)) ∨ new r
  tips : ∀ k r, tip t.lsm t.seq k = some (.index r) → tip s.lsm s.seq k = some (.index r) ∨ new r

/-- The new records are none that the job still needs to be unreferenced. -/
structure Avoids (new : BlobPtr → Prop) (job : Job) : Prop where
  inputs : ∀ r, new r → r.fileNumber ∉ job.inputs
  pending : ∀ r, new r → r ∉ newPtrs (pendingOf job.phase)
  building : Building job.phase → ∀ r, new r → r.fileNumber ∉ job.outputs

section

variable {s t : State} {new : BlobPtr → Prop} {f : UInt64}

theorem gone_grows (h : Grows s t new) {q : Nat} (hnew : ∀ r, new r → r.fileNumber ≠ f) (hg : Gone s f q) :
    Gone t f q := by
  intro p hp hq k r hr
  rcases h.reads k p r hp hr with ⟨hp', hr'⟩ | hn
  · exact hg p hp' hq k r hr'
  · exact hnew r hn

theorem gone_mono {q q' : Nat} (hg : Gone s f q) (hq : q ≤ q') : Gone s f q' :=
  fun p hp hle => hg p hp (hq.trans hle)

variable (h : Grows s t new)

include h

theorem referenced_grows {p : BlobPtr} (hp : Referenced t p) : Referenced s p ∨ new p := by
  obtain ⟨k, n, hkn⟩ := hp
  rcases h.refs k n p hkn with hold | hn
  · exact .inl ⟨k, n, hold⟩
  · exact .inr hn

theorem added_log_grows (hf : f ∈ added s.log) : f ∈ added t.log := by
  obtain ⟨edits, hlog⟩ := h.log
  rw [hlog, added_append]
  exact mem_append_left _ hf

theorem deleted_log_grows (hf : f ∈ deleted s.log) : f ∈ deleted t.log := by
  obtain ⟨edits, hlog⟩ := h.log
  rw [hlog, deleted_append]
  exact mem_append_left _ hf

theorem take_grows : ∃ edits, t.log.take t.logSynced = s.log.take s.logSynced ++ edits := by
  obtain ⟨edits, hlog⟩ := h.log
  have hp : s.log.take s.logSynced <+: t.log.take t.logSynced := by
    have h1 : s.log.take s.logSynced <+: t.log :=
      ( take_prefix _ _).trans (hlog ▸ prefix_append _ _)
    refine prefix_of_prefix_length_le h1 ( take_prefix _ _) ?_
    rw [length_take, length_take, hlog, length_append]
    have := h.logSynced
    omega
  obtain ⟨rest, hrest⟩ := hp
  exact ⟨rest, hrest.symm⟩

theorem added_grows (hf : f ∈ added (s.log.take s.logSynced)) : f ∈ added (t.log.take t.logSynced) := by
  obtain ⟨edits, htake⟩ := take_grows h
  rw [htake, added_append]
  exact mem_append_left _ hf

theorem deleted_grows (hf : f ∈ deleted (s.log.take s.logSynced)) :
    f ∈ deleted (t.log.take t.logSynced) := by
  obtain ⟨edits, htake⟩ := take_grows h
  rw [htake, deleted_append]
  exact mem_append_left _ hf

theorem rewriteOk_grows {outputs : List UInt64} {e : Rewrite} (he : RewriteOk s.files outputs e) :
    RewriteOk t.files outputs e := by
  obtain ⟨v, hold, hslot⟩ := he.copied
  refine ⟨v, h.holds _ _ _ hold, ?_⟩
  rcases hslot with hv | ⟨p, hp, hp', ho⟩
  · exact .inl hv
  · exact .inr ⟨p, hp, h.holds _ _ _ hp', ho⟩

theorem scanOk_grows {inputs : List UInt64} {useBitmap : Bool} {sc : Scan}
    (hnew : ∀ r, new r → r.fileNumber ∉ inputs) (hs : ScanOk s inputs useBitmap sc) :
    ScanOk t inputs useBitmap sc where
  bitmap := fun f i hb => h.bits f i (hs.bitmap f i hb)
  todo := fun r hr => ⟨(hs.todo r hr).1, h.holds _ _ _ (hs.todo r hr).2⟩
  queue := fun r hr => ⟨(hs.queue r hr).1, h.holds _ _ _ (hs.queue r hr).2⟩
  fresh := hs.fresh
  referenced := by
    intro hb p hp href
    rcases referenced_grows h href with hold | hn
    · exact hs.referenced hb p hp hold
    · exact absurd hp (hnew p hn)

theorem jobOk_grows {job : Job} (ha : Avoids new job) (hj : JobOk s job) : JobOk t job where
  inputs := fun f hf => added_grows h (hj.inputs f hf)
  written := fun f hf => h.written f (hj.written f hf)
  synced := fun hp f hf => h.fileSynced f (hj.synced hp f hf)
  logged := fun hp f hf => added_log_grows h (hj.logged hp f hf)
  applied := fun hp f hf => added_grows h (hj.applied hp f hf)
  covers := by
    intro k p hp hin
    rcases h.tips k p hp with hold | hn
    · exact hj.covers k p hold hin
    · exact absurd hin (ha.inputs p hn)
  pending := fun e he => rewriteOk_grows h (hj.pending e he)
  unreferenced := by
    intro p hp hr
    rcases referenced_grows h hr with hold | hn
    · exact hj.unreferenced p hp hold
    · exact ha.pending p hn hp
  nodup := hj.nodup
  building := by
    intro hb p hr
    rcases referenced_grows h hr with hold | hn
    · exact hj.building hb p hold
    · exact ha.building hb p hn
  scanning := fun sc hsc => scanOk_grows h ha.inputs (hj.scanning sc hsc)
  settled := by
    intro hp f hf
    obtain ⟨q, hq, hg⟩ := hj.settled hp f hf
    exact ⟨q, hq.trans h.synced, gone_grows h (fun r hr he => ha.inputs r hr (he ▸ hf)) hg⟩
  deleting := by
    intro o hp
    obtain ⟨ho, hall⟩ := hj.deleting o hp
    refine ⟨ho.trans h.seq, fun f hf => ?_⟩
    obtain ⟨hdel, q, hq, hqo, hg⟩ := hall f hf
    exact ⟨deleted_log_grows h hdel, q, hq.trans h.synced, hqo,
      gone_grows h (fun r hr he => ha.inputs r hr (he ▸ hf)) hg⟩

end

end TitanGC.Software.Invariant
