import TitanGC.Software.Invariant

/-!
# Carrying the invariant over a step

A step changes at most one job. `Change` collects what has to be shown about the
step itself; everything about the other jobs, about deleted and obsolete files and
about the bitmaps follows from what the invariant said before.
-/

namespace TitanGC.Software.Carry

open Lib.MultiVersion List Format.BlobFormat Storage.BlobFiles Manifest.VersionEdits Manifest.Replay
open Software.System Invariant
open Function (update)

theorem mem_newPtrs {pending : List Rewrite} {p : BlobPtr} :
    p ∈ newPtrs pending ↔ ∃ e ∈ pending, e.slot = .index p := by
  simp only [newPtrs, mem_filterMap]
  constructor
  · rintro ⟨e, he, hp⟩
    refine ⟨e, he, ?_⟩
    cases hs : e.slot <;> simp_all
  · rintro ⟨e, he, hp⟩
    exact ⟨e, he, by simp [hp]⟩

theorem output_of_newPtrs {s : State} {job : Job} (hj : JobOk s job) {p : BlobPtr}
    (hp : p ∈ newPtrs (pendingOf job.phase)) : p.fileNumber ∈ job.outputs := by
  obtain ⟨e, he, hslot⟩ := mem_newPtrs.mp hp
  exact ((hj.pending e he).copy hslot).2

/-! ## Separation -/

variable {jobs : Nat → Option Job}

theorem update_eq_some {j i : Nat} {new : Option Job} {a : Job} (h : update jobs j new i = some a) :
    (i = j ∧ new = some a) ∨ (i ≠ j ∧ jobs i = some a) := by
  by_cases hij : i = j
  · subst hij
    exact .inl ⟨rfl, by simpa using h⟩
  · exact .inr ⟨hij, by simpa [hij] using h⟩

theorem separated_none (h : Separated jobs) (j : Nat) : Separated (update jobs j none) := by
  have hold : ∀ i a, update jobs j none i = some a → jobs i = some a := by
    intro i a hi
    rcases update_eq_some hi with ⟨-, hn⟩ | ⟨-, hi⟩
    · cases hn
    · exact hi
  exact ⟨fun i l a b f hi hl => h.outputs i l a b f (hold i a hi) (hold l b hl),
    fun i l a b f hi hl => h.inputs i l a b f (hold i a hi) (hold l b hl),
    fun i l a b f hi hl => h.mixed i l a b f (hold i a hi) (hold l b hl),
    fun i a hi => h.nodup i a (hold i a hi)⟩

/-- The files of a job are different from the files of all others. -/
structure Apart (jobs : Nat → Option Job) (j : Nat) (job : Job) : Prop where
  inputs : ∀ i a, i ≠ j → jobs i = some a → ∀ f ∈ job.inputs, f ∉ a.inputs ∧ f ∉ a.outputs
  outputs : ∀ i a, i ≠ j → jobs i = some a → ∀ f ∈ job.outputs, f ∉ a.inputs ∧ f ∉ a.outputs
  mixed : ∀ f ∈ job.outputs, f ∉ job.inputs
  nodup : job.inputs.Nodup ∧ job.outputs.Nodup

theorem update_some {j i : Nat} {job a : Job} (h : update jobs j (some job) i = some a) :
    (i = j ∧ a = job) ∨ (i ≠ j ∧ jobs i = some a) := by
  rcases update_eq_some h with ⟨hij, hn⟩ | hold
  · exact .inl ⟨hij, (Option.some.inj hn).symm⟩
  · exact .inr hold

theorem separated_some (h : Separated jobs) {j : Nat} {job : Job} (ha : Apart jobs j job) :
    Separated (update jobs j (some job)) := by
  refine ⟨fun i l a b f hi hl hfa hfb => ?_, fun i l a b f hi hl hfa hfb => ?_,
    fun i l a b f hi hl hfa hfb => ?_, fun i a hi => ?_⟩
  · rcases update_some hi with ⟨rfl, rfl⟩ | ⟨hij, hi'⟩ <;>
      rcases update_some hl with ⟨rfl, rfl⟩ | ⟨hlj, hl'⟩
    · rfl
    · exact absurd hfb (ha.outputs l b hlj hl' f hfa).2
    · exact absurd hfa (ha.outputs i a hij hi' f hfb).2
    · exact h.outputs i l a b f hi' hl' hfa hfb
  · rcases update_some hi with ⟨rfl, rfl⟩ | ⟨hij, hi'⟩ <;>
      rcases update_some hl with ⟨rfl, rfl⟩ | ⟨hlj, hl'⟩
    · rfl
    · exact absurd hfb (ha.inputs l b hlj hl' f hfa).1
    · exact absurd hfa (ha.inputs i a hij hi' f hfb).1
    · exact h.inputs i l a b f hi' hl' hfa hfb
  · rcases update_some hi with ⟨rfl, rfl⟩ | ⟨hij, hi'⟩ <;>
      rcases update_some hl with ⟨rfl, rfl⟩ | ⟨hlj, hl'⟩
    · exact ha.mixed f hfa hfb
    · exact (ha.outputs l b hlj hl' f hfa).1 hfb
    · exact (ha.inputs i a hij hi' f hfb).2 hfa
    · exact h.mixed i l a b f hi' hl' hfa hfb
  · rcases update_some hi with ⟨rfl, rfl⟩ | ⟨hij, hi'⟩
    · exact ha.nodup
    · exact h.nodup i a hi'

/-- A job that keeps its files stays apart. -/
theorem apart_of_same (h : Separated jobs) {j : Nat} {old job : Job} (hj : jobs j = some old)
    (hin : job.inputs = old.inputs) (hout : job.outputs = old.outputs) : Apart jobs j job where
  inputs := by
    intro i a hij hi f hf
    rw [hin] at hf
    exact ⟨fun hfa => hij (h.inputs i j a old f hi hj hfa hf),
      fun hfa => h.mixed i j a old f hi hj hfa hf⟩
  outputs := by
    intro i a hij hi f hf
    rw [hout] at hf
    exact ⟨fun hfa => h.mixed j i old a f hj hi hf hfa,
      fun hfa => hij (h.outputs i j a old f hi hj hfa hf)⟩
  mixed := by
    intro f hf hfi
    rw [hout] at hf
    rw [hin] at hfi
    exact h.mixed j j old old f hj hj hf hfi
  nodup := by
    rw [hin, hout]
    exact h.nodup j old hj

/-! ## Steps -/

/-- New records come from the applied outputs of the job that takes the step: copies
that were pending, or records of an SST that is installed. -/
def FromJob (s : State) (j : Nat) (new : BlobPtr → Prop) : Prop :=
  ∀ r, new r → ∃ old, s.jobs j = some old ∧ r.fileNumber ∈ old.outputs ∧
    ¬ Finishing old.phase ∧ (r ∈ newPtrs (pendingOf old.phase) ∨ Building old.phase)

/-- A job that has nothing more to add to the LSM than it had before the step, or
whose outputs were just written. -/
def Shrinks (s : State) (j : Nat) (job : Job) : Prop :=
  (∃ old, s.jobs j = some old ∧ job.outputs = old.outputs ∧
      (∀ p ∈ newPtrs (pendingOf job.phase), p ∈ newPtrs (pendingOf old.phase)) ∧
      (Building job.phase → Building old.phase) ∧ (Unlogged job.phase → Unlogged old.phase)) ∨
    ∀ f ∈ job.outputs, s.files f = none

structure Change (s t : State) (j : Nat) (job : Option Job) (new : BlobPtr → Prop) : Prop where
  grows : Grows s t new
  jobs : t.jobs = update s.jobs j job
  fromJob : FromJob s j new
  ok : ∀ a, job = some a → JobOk t a
  apart : ∀ a, job = some a → Apart s.jobs j a
  shrinks : ∀ a, job = some a → Shrinks s j a

abbrev Nothing : BlobPtr → Prop := fun _ => False

variable {d : UInt64 × UInt64} {f : UInt64} {old : Job}

section

variable {cf : UInt32} {s t : State} {j : Nat} {job : Option Job} {a : Job}
  {new : BlobPtr → Prop}

theorem avoids_other (hs : Inv cf s) (hf : FromJob s j new) {i : Nat} {a : Job} (hij : i ≠ j)
    (hi : s.jobs i = some a) : Avoids new a where
  inputs := by
    intro r hr
    obtain ⟨old, hold, hout, -⟩ := hf r hr
    exact hs.separated.mixed j i old a _ hold hi hout
  pending := by
    intro r hr hp
    obtain ⟨old, hold, hout, -⟩ := hf r hr
    exact hij (hs.separated.outputs i j a old _ hi hold
      (output_of_newPtrs (hs.jobs i a hi) hp) hout)
  building := by
    intro _ r hr hp
    obtain ⟨old, hold, hout, -⟩ := hf r hr
    exact hij (hs.separated.outputs i j a old _ hi hold hp hout)

theorem jobOk_change (hs : Inv cf s) (h : Change s t j job new) {i : Nat} {a : Job}
    (hi : t.jobs i = some a) : JobOk t a := by
  rw [h.jobs] at hi
  rcases update_eq_some hi with ⟨-, hnew⟩ | ⟨hij, hold⟩
  · exact h.ok a hnew
  · exact jobOk_grows h.grows (avoids_other hs h.fromJob hij hold) (hs.jobs i a hold)

theorem new_not_deleted (hs : Inv cf s) (hf : FromJob s j new) {r : BlobPtr} (hr : new r) :
    r.fileNumber ∉ deleted s.log := by
  obtain ⟨old, hold, hout, -⟩ := hf r hr
  exact hs.manifest.outputs j old hold _ hout

theorem new_not_dead (hf : FromJob s j new) {r : BlobPtr} (hr : new r) (hd : Dead s d) :
    slotOf r ≠ d := by
  obtain ⟨old, hold, hout, -, hp | hb⟩ := hf r hr
  · exact hd.notPending j old hold r hp
  · rintro rfl
    exact hd.notBuilding j old hold hb hout

theorem gone_change (hs : Inv cf s) (h : Change s t j job new) (hf : f ∈ deleted s.log) {q : Nat}
    (hg : Gone s f q) : Gone t f q :=
  gone_grows h.grows (fun _ hr he => new_not_deleted hs h.fromJob hr (he ▸ hf)) hg

theorem dead_change (h : Change s t j job new) (hd : Dead s d) :
    Dead t d where
  written := h.grows.written _ hd.written
  unreferenced := by
    intro p hp
    rcases referenced_grows h.grows hp with hold | hn
    · exact hd.unreferenced p hold
    · exact new_not_dead h.fromJob hn hd
  notPending := by
    intro i a hi p hp
    have hi' := hi
    rw [h.jobs] at hi'
    rcases update_eq_some hi' with ⟨rfl, hnew⟩ | ⟨-, hold⟩
    · rcases h.shrinks a hnew with ⟨old, hold, -, hpend, -⟩ | hfresh
      · exact hd.notPending i old hold p (hpend p hp)
      · rintro rfl
        exact hd.written (hfresh _ (output_of_newPtrs (h.ok a hnew) hp))
    · exact hd.notPending i a hold p hp
  notBuilding := by
    intro i a hi hb
    rw [h.jobs] at hi
    rcases update_eq_some hi with ⟨rfl, hnew⟩ | ⟨-, hold⟩
    · rcases h.shrinks a hnew with ⟨old, hold, hout, -, hbuild, -⟩ | hfresh
      · rw [hout]
        exact hd.notBuilding i old hold (hbuild hb)
      · exact fun hin => hd.written (hfresh _ hin)
    · exact hd.notBuilding i a hold hb

section

variable (hs : Inv cf s)
include hs

theorem separated_change (h : Change s t j job new) : Separated t.jobs := by
  rw [h.jobs]
  cases job with
  | none => exact separated_none hs.separated j
  | some a => exact separated_some hs.separated (h.apart a rfl)

theorem data_change (h : Change s t j job new) (hf : FilesOk t.files)
    (hb : ∀ k, BoundedBy (t.lsm k) t.seq)
    (hstored : ∀ k n p, new p → t.lsm k n = some (.index p) → ∃ v, Holds t.files p k v)
    (honce : ∀ k n k' n' p, new p → t.lsm k n = some (.index p) → t.lsm k' n' = some (.index p) →
      k = k' ∧ n = n') : DataOk t where
  filesOk := hf
  bounded := hb
  stored := by
    intro k n p hp
    rcases h.grows.refs k n p hp with hold | hn
    · obtain ⟨v, hv⟩ := hs.data.stored k n p hold
      exact ⟨v, h.grows.holds _ _ _ hv⟩
    · exact hstored k n p hn hp
  unique := by
    intro k n k' n' p hp hp'
    rcases h.grows.refs k n p hp with hold | hn
    · rcases h.grows.refs k' n' p hp' with hold' | hn'
      · exact hs.data.unique k n k' n' p hold hold'
      · exact honce k n k' n' p hn' hp hp'
    · exact honce k n k' n' p hn hp hp'

theorem not_added_of_fresh (hf : s.files f = none) : f ∉ added s.log :=
  fun hin => (hs.manifest.inFiles f hin).1 hf

theorem not_deleted_of_fresh (hf : s.files f = none) : f ∉ deleted s.log := by
  intro hin
  have := hs.manifest.wellFormed.paired s.log.length f
  rw [take_length] at this
  exact not_added_of_fresh hs hf (this hin)

/-- The manifest after a step that appends nothing to it. -/
theorem manifest_change (h : Change s t j job new) (hlog : t.log = s.log)
    (hlen : t.logSynced ≤ s.log.length) (hnext : s.nextFileNumber ≤ t.nextFileNumber)
    (hold : ∀ f, s.obsolete f ≠ none → t.obsolete f ≠ none) (hobs : ∀ f o, t.obsolete f = some o →
      s.obsolete f = some o ∨ f ∈ deleted (t.log.take t.logSynced))
    (hdel : ∀ old o, s.jobs j = some old → old.phase = .deleting o →
      (∀ f ∈ old.inputs, t.obsolete f ≠ none) ∨ job = some old) : ManifestOk cf t where
  wellFormed := hlog ▸ hs.manifest.wellFormed
  started := hlog ▸ hs.manifest.started
  first := hs.manifest.first.trans h.grows.logSynced
  length := hlog ▸ hlen
  inFiles := by
    rw [hlog]
    intro f hf
    obtain ⟨h1, h2⟩ := hs.manifest.inFiles f hf
    exact ⟨h.grows.written f h1, h.grows.fileSynced f h2⟩
  next := by
    rw [hlog]
    exact fun e he n hn => UInt64.le_trans (hs.manifest.next e he n hn) hnext
  unlogged := by
    rw [hlog, h.jobs]
    intro i a hi hu f hf
    rcases update_eq_some hi with ⟨rfl, hnew⟩ | ⟨-, hi'⟩
    · rcases h.shrinks a hnew with ⟨old, hold', hout, -, -, hun⟩ | hfresh
      · exact hs.manifest.unlogged i old hold' (hun hu) f (hout ▸ hf)
      · exact not_added_of_fresh hs (hfresh f hf)
    · exact hs.manifest.unlogged i a hi' hu f hf
  referenced := by
    intro p hp
    rcases referenced_grows h.grows hp with hold' | hn
    · exact added_grows h.grows (hs.manifest.referenced p hold')
    · obtain ⟨old, hold', hout, hfin, -⟩ := h.fromJob p hn
      exact added_grows h.grows ((hs.jobs j old hold').applied hfin _ hout)
  deleting := by
    rw [hlog, h.jobs]
    intro f hf
    rcases hs.manifest.deleting f hf with hob | ⟨i, a, o, hi, hph, hin⟩
    · exact .inl (hold f hob)
    · by_cases hij : i = j
      · subst hij
        rcases hdel a o hi hph with hall | hsame
        · exact .inl (hall f hin)
        · exact .inr ⟨i, a, o, by simpa using hsame, hph, hin⟩
      · exact .inr ⟨i, a, o, by simpa [hij] using hi, hph, hin⟩
  obsolete := by
    intro f o ho
    rcases hobs f o ho with hold' | hnew
    · exact deleted_grows h.grows (hs.manifest.obsolete f o hold')
    · exact hnew
  outputs := by
    rw [hlog, h.jobs]
    intro i a hi f hf
    rcases update_eq_some hi with ⟨rfl, hnew⟩ | ⟨-, hi'⟩
    · rcases h.shrinks a hnew with ⟨old, hold', hout, -⟩ | hfresh
      · exact hs.manifest.outputs i old hold' f (hout ▸ hf)
      · exact not_deleted_of_fresh hs (hfresh f hf)
    · exact hs.manifest.outputs i a hi' f hf

theorem manifest_same (h : Change s t j job new) (hlog : t.log = s.log)
    (hlogs : t.logSynced = s.logSynced) (hnext : s.nextFileNumber ≤ t.nextFileNumber)
    (hobs : t.obsolete = s.obsolete)
    (hdel : ∀ old o, s.jobs j = some old → old.phase = .deleting o → job = some old) :
    ManifestOk cf t :=
  manifest_change hs h hlog (hlogs ▸ hs.manifest.length) hnext (by rw [hobs]; exact fun _ h => h)
    (by rw [hobs]; exact fun _ _ h => .inl h) fun old o hold hph => .inr (hdel old o hold hph)

/-- The manifest after a step that appends one record to it: the job that takes the
step adds its outputs, or deletes its inputs. -/
theorem manifest_append (h : Change s t j (some a) Nothing) {e : VersionEdit}
    (hlog : t.log = s.log ++ [e]) (hcf : e.columnFamilyId = cf)
    (hnumber : e.nextFileNumber = some s.nextFileNumber)
    (hnext : t.nextFileNumber = s.nextFileNumber) (hlogs : t.logSynced = s.logSynced)
    (hobs : t.obsolete = s.obsolete) (haddNodup : (e.addedFiles.map (·.fileNumber)).Nodup)
    (hadd : ∀ f ∈ e.addedFiles.map (·.fileNumber),
      f ∉ added s.log ∧ t.fileSynced f = true ∧ f ∈ a.outputs ∧ ¬ Unlogged a.phase)
    (hdelNodup : (e.deletedFiles.map (·.1)).Nodup) (hdel : ∀ f ∈ e.deletedFiles.map (·.1),
      f ∈ added s.log ∧ f ∉ deleted s.log ∧ f ∈ a.inputs ∧ ∃ o, a.phase = .deleting o)
    (hold : ∀ old o, s.jobs j = some old → old.phase ≠ .deleting o) : ManifestOk cf t := by
  have hsep := separated_change hs h
  have hself : t.jobs j = some a := by simp [h.jobs]
  have hm := hs.manifest
  refine ⟨?_, ?_, ?_, ?_, ?_, ?_, ?_, ?_, ?_, ?_, ?_⟩
  · rw [hlog]
    refine wellFormed_append hm.wellFormed hcf haddNodup (fun f hf => (hadd f hf).1) hdelNodup
      (fun f hf => ⟨(hdel f hf).1, (hdel f hf).2.1⟩) fun e' he' n m hn hm' => ?_
    rw [hnumber] at hm'
    exact Option.some.inj hm' ▸ hm.next e' he' n hn
  · obtain ⟨e₀, rest, he₀, hsome⟩ := hm.started
    exact ⟨e₀, rest ++ [e], by rw [hlog, he₀, cons_append], hsome⟩
  · rw [hlogs]
    exact hm.first
  · rw [hlogs, hlog, length_append]
    exact hm.length.trans (Nat.le_add_right _ _)
  · intro f hf
    rw [hlog, added_append, added_cons, added_nil, append_nil] at hf
    rcases mem_append.mp hf with hf | hf
    · exact ⟨h.grows.written f (hm.inFiles f hf).1, h.grows.fileSynced f (hm.inFiles f hf).2⟩
    · obtain ⟨-, hsync, hout, -⟩ := hadd f hf
      exact ⟨(h.ok a rfl).written f hout, hsync⟩
  · intro x hx n hn
    rw [hlog] at hx
    rw [hnext]
    rcases mem_append.mp hx with hx | hx
    · exact hm.next x hx n hn
    · rw [mem_singleton.mp hx, hnumber] at hn
      exact Option.some.inj hn ▸ UInt64.le_refl _
  · intro i b hi hu f hf hin
    rw [hlog, added_append, added_cons, added_nil, append_nil] at hin
    rcases mem_append.mp hin with hin | hin
    · have hi' := hi
      rw [h.jobs] at hi'
      rcases update_some hi' with ⟨rfl, rfl⟩ | ⟨-, hi'⟩
      · rcases h.shrinks b rfl with ⟨old, hold', hout, -, -, hun⟩ | hfresh
        · exact hm.unlogged i old hold' (hun hu) f (hout ▸ hf) hin
        · exact not_added_of_fresh hs (hfresh f hf) hin
      · exact hm.unlogged i b hi' hu f hf hin
    · obtain ⟨-, -, hout, hun⟩ := hadd f hin
      obtain rfl := hsep.outputs i j b a f hi hself hf hout
      exact hun (Option.some.inj (hi.symm.trans hself) ▸ hu)
  · intro p hp
    rcases referenced_grows h.grows hp with hp | hp
    · exact added_grows h.grows (hm.referenced p hp)
    · exact hp.elim
  · intro f hf
    rw [hlog, deleted_append, deleted_cons, deleted_nil, append_nil] at hf
    rcases mem_append.mp hf with hf | hf
    · rcases hm.deleting f hf with hob | ⟨i, b, o, hi, hph, hin⟩
      · exact .inl (hobs ▸ hob)
      · have hij : i ≠ j := by
          rintro rfl
          exact hold b o hi hph
        exact .inr ⟨i, b, o, by simpa [h.jobs, hij] using hi, hph, hin⟩
    · obtain ⟨-, -, hin, o, hph⟩ := hdel f hf
      exact .inr ⟨j, a, o, hself, hph, hin⟩
  · intro f o ho
    rw [hobs] at ho
    exact deleted_grows h.grows (hm.obsolete f o ho)
  · intro i b hi f hf hin
    rw [hlog, deleted_append, deleted_cons, deleted_nil, append_nil] at hin
    rcases mem_append.mp hin with hin | hin
    · have hi' := hi
      rw [h.jobs] at hi'
      rcases update_some hi' with ⟨rfl, rfl⟩ | ⟨-, hi'⟩
      · rcases h.shrinks b rfl with ⟨old, hold', hout, -⟩ | hfresh
        · exact hm.outputs i old hold' f (hout ▸ hf) hin
        · exact not_deleted_of_fresh hs (hfresh f hf) hin
      · exact hm.outputs i b hi' f hf hin
    · exact hsep.mixed i j b a f hi hself hf (hdel f hin).2.2.1

/-- The invariant after a step, from what has to be shown for the step itself. -/
theorem inv_change (h : Change s t j job new) (hdata : DataOk t) (hreads : ∀ k, ReadsLast t k)
    (hbounds : BoundsOk t) (hmanifest : ManifestOk cf t)
    (hdeleted : ∀ f ∈ deleted t.log, f ∈ deleted s.log ∨ ∃ q ≤ t.synced, Gone t f q)
    (hobsolete : ∀ f o, t.obsolete f = some o →
      s.obsolete f = some o ∨ (o ≤ t.seq ∧ Gone t f o))
    (hpurged : ∀ f, t.purged f = true → t.obsolete f ≠ none)
    (hmarked : ∀ d, Marked t d → Marked s d ∨ Dead t d) : Inv cf t where
  data := hdata
  reads := hreads
  bounds := hbounds
  manifest := hmanifest
  gone := by
    intro f hf
    rcases hdeleted f hf with hold | hnew
    · obtain ⟨q, hq, hg⟩ := hs.gone f hold
      exact ⟨q, hq.trans h.grows.synced, gone_change hs h hold hg⟩
    · exact hnew
  obsolete := by
    intro f o ho
    rcases hobsolete f o ho with hold | hnew
    · obtain ⟨hle, hg⟩ := hs.obsolete f o hold
      have hdel := deleted_take_subset _ _ f (hs.manifest.obsolete f o hold)
      exact ⟨hle.trans h.grows.seq, gone_change hs h hdel hg⟩
    · exact hnew
  purged := hpurged
  marked := by
    intro d hd
    rcases hmarked d hd with hold | hnew
    · exact dead_change h (hs.marked d hold)
    · exact hnew
  jobs := fun _ _ hi => jobOk_change hs h hi
  separated := separated_change hs h

end

/-! ## Common kinds of steps -/

theorem fromJob_nothing : FromJob s j Nothing := fun _ h => h.elim

theorem avoids_nothing {a : Job} : Avoids Nothing a :=
    ⟨fun _ h => h.elim, fun _ h => h.elim, fun _ _ h => h.elim⟩

/-- A state that differs in nothing that `Grows` is about. -/
theorem grows_refl (s : State) (new : BlobPtr → Prop) : Grows s s new where
  holds _ _ _ h := h
  written _ h := h
  fileSynced _ h := h
  log := ⟨[], (append_nil _).symm⟩
  logSynced := le_rfl
  bits _ _ h := h
  seq := le_rfl
  synced := le_rfl
  refs _ _ _ h := .inl h
  reads _ _ _ hq h := .inl ⟨hq, h⟩
  tips _ _ h := .inl h

/-- A step that leaves all jobs as they are. -/
theorem change_none (hs : Inv cf s) (hg : Grows s t Nothing) (hjobs : t.jobs = s.jobs) :
    Change s t 0 (s.jobs 0) Nothing where
  grows := hg
  jobs := by rw [hjobs, Function.update_eq_self]
  fromJob := fromJob_nothing
  ok := fun a ha => jobOk_grows hg avoids_nothing (hs.jobs 0 a ha)
  apart := fun a ha => apart_of_same hs.separated ha rfl rfl
  shrinks := fun a ha => .inl ⟨a, ha, rfl, fun _ h => h, id, id⟩

/-- A step that removes a job. -/
theorem change_remove (hg : Grows s t new) (hf : FromJob s j new)
    (hjobs : t.jobs = update s.jobs j none) : Change s t j none new :=
  ⟨hg, hjobs, hf, by simp, by simp, by simp⟩

/-- A step that adds a job or moves one on. -/
theorem change_some (hg : Grows s t new) (hf : FromJob s j new)
    (hjobs : t.jobs = update s.jobs j (some a)) (hok : JobOk t a) (hapart : Apart s.jobs j a)
    (hshrinks : Shrinks s j a) : Change s t j (some a) new where
  grows := hg
  jobs := hjobs
  fromJob := hf
  ok _ ha := Option.some.inj ha ▸ hok
  apart _ ha := Option.some.inj ha ▸ hapart
  shrinks _ ha := Option.some.inj ha ▸ hshrinks

/-- A step that moves a job on to its next phase. -/
theorem change_phase (hs : Inv cf s) {ph : Phase} (hj : s.jobs j = some old) (hg : Grows s t new)
    (hf : FromJob s j new) (hjobs : t.jobs = update s.jobs j (some { old with phase := ph }))
    (hok : JobOk t { old with phase := ph })
    (hp : ∀ p ∈ newPtrs (pendingOf ph), p ∈ newPtrs (pendingOf old.phase))
    (hb : Building ph → Building old.phase) (hu : Unlogged ph → Unlogged old.phase) :
    Change s t j (some { old with phase := ph }) new :=
  change_some hg hf hjobs hok (apart_of_same hs.separated hj rfl rfl) (.inl ⟨old, hj, rfl, hp, hb, hu⟩)

/-- The job that takes the step is not deleting its inputs. -/
theorem not_deleting (hj : s.jobs j = some a) (hd : ∀ o, a.phase ≠ .deleting o) {o : Nat}
    (hold : s.jobs j = some old) : old.phase ≠ .deleting o := by
  obtain rfl := Option.some.inj (hj.symm.trans hold)
  exact hd o

theorem marked_change (hjobs : t.jobs = update s.jobs j job) (hbits : t.bits = s.bits)
    (hnot : t.notices = s.notices)
    (hdrop : ∀ a, job = some a → ∀ d ∈ droppedOf a.phase,
      (∃ old, s.jobs j = some old ∧ d ∈ droppedOf old.phase) ∨ Dead t d) :
    ∀ d, Marked t d → Marked s d ∨ Dead t d := by
  unfold Marked
  rw [hbits, hnot, hjobs]
  rintro d (hb | hn | ⟨i, a, hi, hd⟩)
  · exact .inl (.inl hb)
  · exact .inl (.inr (.inl hn))
  · rcases update_eq_some hi with ⟨rfl, hnew⟩ | ⟨-, hold⟩
    · rcases hdrop a hnew d hd with ⟨old, hold, hd'⟩ | hdead
      · exact .inl (.inr (.inr ⟨i, old, hold, hd'⟩))
      · exact .inr hdead
    · exact .inl (.inr (.inr ⟨i, a, hold, hd⟩))

theorem marked_phase {ph : Phase} (hj : s.jobs j = some old)
    (hjobs : t.jobs = update s.jobs j (some { old with phase := ph })) (hbits : t.bits = s.bits)
    (hnot : t.notices = s.notices) (hdrop : ∀ d ∈ droppedOf ph, d ∈ droppedOf old.phase ∨ Dead t d) :
    ∀ d, Marked t d → Marked s d ∨ Dead t d := by
  refine marked_change hjobs hbits hnot fun a ha d hd => ?_
  rw [← Option.some.inj ha] at hd
  rcases hdrop d hd with hold | hdead
  · exact .inl ⟨old, hj, hold⟩
  · exact .inr hdead

/-- A step that writes nothing to the LSM. -/
theorem inv_quiet (hs : Inv cf s) (h : Change s t j job Nothing) (hlsm : t.lsm = s.lsm)
    (hseq : t.seq = s.seq) (hlast : t.lastWrite = s.lastWrite) (hfiles : FilesOk t.files)
    (hbounds : BoundsOk t) (hmanifest : ManifestOk cf t)
    (hdeleted : ∀ f ∈ deleted t.log, f ∈ deleted s.log ∨ ∃ q ≤ t.synced, Gone t f q)
    (hobsolete : ∀ f o, t.obsolete f = some o →
      s.obsolete f = some o ∨ (o ≤ t.seq ∧ Gone t f o))
    (hpurged : ∀ f, t.purged f = true → t.obsolete f ≠ none)
    (hmarked : ∀ d, Marked t d → Marked s d ∨ Dead t d) : Inv cf t := by
  refine inv_change hs h ?_ ?_ hbounds hmanifest hdeleted hobsolete hpurged hmarked
  · refine data_change hs h hfiles ?_ (fun _ _ _ hn => hn.elim) (fun _ _ _ _ _ hn => hn.elim)
    rw [hlsm, hseq]
    exact hs.data.bounded
  · intro k
    have hr := hs.reads k
    unfold ReadsLast at hr ⊢
    rw [hlsm, hseq, hlast]
    cases htip : tip s.lsm s.seq k with
    | none => rw [htip] at hr; exact hr
    | some slot =>
      rw [htip] at hr
      cases slot with
      | value v => exact hr
      | deletion => exact hr
      | index p =>
        obtain ⟨v, hv, hh⟩ := hr
        exact ⟨v, hv, h.grows.holds _ _ _ hh⟩

end

end TitanGC.Software.Carry
