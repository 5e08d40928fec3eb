import TitanGC.Offload.LsmSteps

/-!
# The steps of garbage collection keep the invariant

Notifications only set bits of records that nothing references. A job that copies
the bitmap has every reachable record of its inputs in hand; copying turns that
into pending write-backs, each write-back takes effect or lies above a newer inline
value, and when none is pending the inputs can be made obsolete.
-/

namespace TitanGC.Offload.GcSteps

open Lib.Relocation List Format.BlobFormat Compaction.Merge Storage.BlobFiles
open Reads Offload.System History Invariant LsmSteps
open Function (update)

variable {K : Type} {s : State K}

/-- A step that changes neither histories, files nor jobs. -/
theorem lsmStep_same {t : State K} (hmem : t.mem = s.mem) (himm : t.imm = s.imm)
    (hssts : t.ssts = s.ssts) (hfiles : t.files = s.files) (hobs : t.obsolete = s.obsolete)
    (hjobs : t.jobs = s.jobs) : LsmStep s t fun _ => none := by
  refine ⟨fresh_empty _, by rw [add_empty, hfiles], hobs, hjobs, fun k p hp => .inl ?_,
    fun k p hp => .inl ?_⟩
  · simpa [State.history, hmem, himm, hssts] using hp
  · simpa [seen, hmem, himm, hssts] using hp

theorem inv_deliver (hs : Inv s) (before after : List (List (UInt64 × UInt64)))
    (dropped : List (UInt64 × UInt64)) (hn : s.notices = before ++ dropped :: after) :
    Inv { s with notices := before ++ after,
                 bits := fun f i => s.bits f i || (!s.obsolete f && decide ((f, i) ∈ dropped)) } := by
  have hstep := lsmStep_same (s := s)
    (t := { s with notices := before ++ after,
                   bits := fun f i => s.bits f i || (!s.obsolete f && decide ((f, i) ∈ dropped)) })
    rfl rfl rfl rfl rfl rfl
  refine inv_lsmStep hstep hs hs.linked hs.distinct hs.reads (fun d hd => .inl ?_) hs.purged
  rcases hd with hb | ⟨ds, hds, hd⟩
  · simp only [Bool.or_eq_true, Bool.and_eq_true, decide_eq_true_eq] at hb
    rcases hb with hb | ⟨-, hb⟩
    · exact .inl hb
    · exact .inr ⟨dropped, by simp [hn], hb⟩
  · refine .inr ⟨ds, ?_, hd⟩
    rw [hn]
    rcases mem_append.mp hds with h | h <;> simp [h]

theorem inv_purge (hs : Inv s) (f : UInt64) (hf : s.obsolete f = true) :
    Inv { s with purged := update s.purged f true } := by
  have hstep := lsmStep_same (s := s) (t := { s with purged := update s.purged f true })
    rfl rfl rfl rfl rfl rfl
  refine inv_lsmStep hstep hs hs.linked hs.distinct hs.reads (fun _ => .inl) ?_
  intro g hg
  by_cases hgf : g = f
  · rw [hgf]
    exact hf
  · exact hs.purged g (by simpa [hgf] using hg)

/-! ## Starting and giving up -/

/-- Replacing one job while the LSM and the files stay as they are. -/
theorem inv_updateJob (hs : Inv s) (j : Nat) (new : Option (Job K))
    (hjob : ∀ job, new = some job → JobOk { s with jobs := update s.jobs j new } job)
    (hinput : ∀ job, new = some job → ∀ i other output pending, i ≠ j →
      s.jobs i = some other → other.phase = .writing output pending → output ∉ job.inputs)
    (hmarked : ∀ job, new = some job → ∀ kb ∈ pendingOf job.phase, ¬ Marked s (slot kb.2.ptr))
    (hout : ∀ inputs output pending, new = some ⟨inputs, .writing output pending⟩ →
      ∀ i ini p, i ≠ j → s.jobs i ≠ some ⟨ini, .writing output p⟩) :
    Inv { s with jobs := update s.jobs j new } := by
  refine { hs with
    marked := fun d hd => { hs.marked d hd with notPending := ?_ }, jobs := ?_, outputs := ?_ }
  · intro i job hi kb hkb
    by_cases hij : i = j
    · subst hij
      rintro rfl
      exact hmarked job (by simpa using hi) kb hkb hd
    · exact (hs.marked d hd).notPending i job (by simpa [hij] using hi) kb hkb
  · intro i job hi
    by_cases hij : i = j
    · subst hij
      exact hjob job (by simpa using hi)
    · have hi' : s.jobs i = some job := by simpa [hij] using hi
      have hold := hs.jobs i job hi'
      refine { hold with writing := fun output pending hph =>
        { hold.writing output pending hph with notInput := fun l other hl => ?_ } }
      by_cases hlj : l = j
      · subst hlj
        exact hinput other (by simpa using hl) i job output pending hij hi' hph
      · exact (hold.writing output pending hph).notInput l other (by simpa [hlj] using hl)
  · intro i l ini inl o pi pl hi hl
    by_cases hij : i = j <;> by_cases hlj : l = j
    · rw [hij, hlj]
    · subst hij
      exact absurd (by simpa [hlj] using hl) (hout ini o pi (by simpa using hi) l inl pl hlj)
    · subst hlj
      exact absurd (by simpa [hij] using hi) (hout inl o pl (by simpa using hl) i ini pi hij)
    · exact hs.outputs i l ini inl o pi pl (by simpa [hij] using hi) (by simpa [hlj] using hl)

theorem inv_abortGc (hs : Inv s) (j : Nat) : Inv { s with jobs := update s.jobs j none } :=
  inv_updateJob hs j none (by simp) (by simp) (by simp) (by simp)

theorem inv_startGc (hs : Inv s) (j : Nat) (inputs : List UInt64)
    (hpick : ∀ f ∈ inputs, s.Pickable f) :
    Inv { s with jobs := update s.jobs j (some ⟨inputs, .copying s.bits⟩) } := by
  refine inv_updateJob hs j _ ?_ ?_ ?_ (by simp)
  · rintro job hjob
    obtain rfl := Option.some.inj hjob
    refine ⟨fun f hf => (hpick f hf).1, ?_, by simp⟩
    intro k p hp _
    -- a set bit would say that nothing references the record
    have hmem := seen_address_mem hp (hs.linked k)
    cases hbit : s.bits p.fileNumber p.blobHandle.index with
    | false => exact hbit
    | true => exact absurd rfl ((hs.marked (slot p) (.inl hbit)).unreferenced k p hmem)
  · intro job hjob i other output pending _ hi hph hin
    obtain rfl := Option.some.inj hjob
    exact ((hpick output hin).2.2 i other hi).2 output pending hph rfl
  · intro job hjob kb hkb
    obtain rfl := Option.some.inj hjob
    simp [pendingOf] at hkb

/-! ## Copying -/

theorem mem_survivors {fs : Files K} {bitmap : UInt64 → UInt64 → Bool} {inputs : List UInt64}
    {f : UInt64} {r : Rec K} : (f, r) ∈ survivors fs bitmap inputs ↔
      f ∈ inputs ∧ bitmap f r.handle.index = false ∧ ∃ recs, fs f = some recs ∧ r ∈ recs := by
  simp only [survivors, mem_flatMap, mem_map, mem_filter, beq_iff_eq, Prod.mk.injEq]
  constructor
  · rintro ⟨g, hg, r', ⟨hr', hbit⟩, rfl, rfl⟩
    cases hrecs : fs g with
    | none => simp [hrecs] at hr'
    | some recs => exact ⟨hg, hbit, recs, rfl, by simpa [hrecs] using hr'⟩
  · rintro ⟨hf, hbit, recs, hrecs, hr⟩
    exact ⟨f, hf, r, ⟨by simpa [hrecs] using hr, hbit⟩, rfl, rfl⟩

section

variable {α β γ δ : Type} {g : β → γ} {h : α → γ}

theorem exists_of_mem_zipWith (pair : α → β → δ) {xs : List α} {ys : List β}
    (he : ys.map g = xs.map h) {z : δ} (hz : z ∈ List.zipWith pair xs ys) :
    ∃ x ∈ xs, ∃ y ∈ ys, g y = h x ∧ z = pair x y := by
  induction xs generalizing ys with
  | nil => simp at hz
  | cons x xs ih =>
    cases ys with
    | nil => simp at hz
    | cons y ys =>
      simp only [map_cons, List.cons.injEq] at he
      rcases mem_cons.mp hz with rfl | hz
      · exact ⟨x, mem_cons_self, y, mem_cons_self, he.1, rfl⟩
      · obtain ⟨x', hx, y', hy, hxy⟩ := ih he.2 hz
        exact ⟨x', mem_cons_of_mem _ hx, y', mem_cons_of_mem _ hy, hxy⟩

theorem exists_mem_zipWith (pair : α → β → δ) {xs : List α} {ys : List β}
    (he : ys.map g = xs.map h) {x : α} (hx : x ∈ xs) :
    ∃ y, g y = h x ∧ pair x y ∈ List.zipWith pair xs ys := by
  induction xs generalizing ys with
  | nil => simp at hx
  | cons x' xs ih =>
    cases ys with
    | nil => simp at he
    | cons y ys =>
      simp only [map_cons, List.cons.injEq] at he
      rcases mem_cons.mp hx with rfl | hx
      · exact ⟨y, he.1, mem_cons_self⟩
      · obtain ⟨y', hy, hmem⟩ := ih he.2 hx
        exact ⟨y', hy, mem_cons_of_mem _ hmem⟩

end

section

variable {inputs : List UInt64} {bitmap : UInt64 → UInt64 → Bool} {output : UInt64}
  {recs : List (Rec K)}

abbrev writeBacks (s : State K) (bitmap : UInt64 → UInt64 → Bool) (inputs : List UInt64)
    (output : UInt64) (recs : List (Rec K)) : List (K × BlobIndex) :=
  List.zipWith (writeBackIndex output) (survivors s.files bitmap inputs) recs

theorem holds_single {r : Rec K} (hr : r ∈ recs) :
    Holds (single output recs) ⟨output, r.handle⟩ r.key r.value :=
  ⟨recs, by simp [single], hr⟩

section

variable
    (hcopy : recs.map (fun r => (r.key, r.value)) = (survivors s.files bitmap inputs).map fun o =>
      (o.2.key, o.2.value))
include hcopy

/-- Each write-back is of a copy that holds what the record it replaces holds. -/
theorem mem_writeBacks {kb : K × BlobIndex} (hkb : kb ∈ writeBacks s bitmap inputs output recs) :
    ∃ r ∈ recs, kb.2.ptr = ⟨output, r.handle⟩ ∧ ∃ f ∈ inputs, kb.2.oldFileNumber = f ∧
      Holds (single output recs) kb.2.ptr kb.1 r.value ∧
      ∃ p, Holds s.files p kb.1 r.value ∧ loc p = oldLoc kb.2 := by
  obtain ⟨⟨f, o⟩, ho, r, hr, hor, rfl⟩ := exists_of_mem_zipWith _ hcopy hkb
  obtain ⟨hf, -, old, hold, hmem⟩ := mem_survivors.mp ho
  simp only [Prod.mk.injEq] at hor
  refine ⟨r, hr, rfl, f, hf, rfl, holds_single hr, ⟨f, o.handle⟩, ⟨old, hold, ?_⟩, rfl⟩
  change (⟨o.handle, r.key, r.value⟩ : Rec K) ∈ old
  rw [hor.1, hor.2]
  exact hmem

theorem nodup_writeBacks (hr : RecordsOk recs) :
    ((writeBacks s bitmap inputs output recs).map (·.2.ptr)).Nodup := by
  have hlen : (survivors s.files bitmap inputs).length = recs.length := by
    simpa using (congrArg List.length hcopy).symm
  refine List.Nodup.of_map (fun p : BlobPtr => p.blobHandle.offset) ?_
  have hmap : ((writeBacks s bitmap inputs output recs).map (·.2.ptr)).map
      (fun p : BlobPtr => p.blobHandle.offset) = recs.map (·.handle.offset) := by
    rw [map_map, map_zipWith]
    refine ext_getElem (by simp [hlen]) fun i h1 h2 => ?_
    simp [writeBackIndex, BlobIndex.ptr]
  rw [hmap]
  exact hr.offsets

end

/-- The records are copied; the write-backs are now pending. -/
theorem inv_copyGc (hs : Inv s) (j : Nat) (hj : s.jobs j = some ⟨inputs, .copying bitmap⟩)
    (hnew : Fresh s.files (single output recs))
    (hcopy : recs.map (fun r => (r.key, r.value))
      = (survivors s.files bitmap inputs).map fun o => (o.2.key, o.2.value)) :
    Inv { s with files := add s.files (single output recs),
                 jobs := update s.jobs j (some ⟨inputs, .writing output
                   (writeBacks s bitmap inputs output recs)⟩) } := by
  obtain ⟨hfresh, hzero, hrecs⟩ := hnew output recs (by simp [single])
  have hjob := hs.jobs j _ hj
  -- the file is written first; nothing refers to it
  have hstep : LsmStep s { s with files := add s.files (single output recs) }
      (single output recs) :=
    ⟨hnew, rfl, rfl, rfl, fun k p hp => .inl hp, fun k p hp => .inl hp⟩
  have hs' : Inv { s with files := add s.files (single output recs) } :=
    inv_lsmStep hstep hs hs.linked hs.distinct (fun k => readsLast_step hstep hs rfl (.inl rfl))
      (fun _ => .inl) hs.purged
  have hnotInput : ∀ i job, s.jobs i = some job → output ∉ job.inputs :=
    fun i job hi hin => (hs.jobs i job hi).inputs output hin hfresh
  have hfile : ∀ kb ∈ writeBacks s bitmap inputs output recs, kb.2.ptr.fileNumber = output := by
    intro kb hkb
    obtain ⟨r, -, hp, -⟩ := mem_writeBacks hcopy hkb
    rw [hp]
  have hunref : ∀ k, ∀ p ∈ ptrs (s.history k), p.fileNumber ≠ output := by
    rintro k p hp rfl
    obtain ⟨v, hv⟩ := hs.stored k p hp
    exact hv.file_ne_none hfresh
  refine inv_updateJob hs' j _ ?_ ?_ ?_ ?_
  · rintro job hjob'
    obtain rfl := Option.some.inj hjob'
    refine ⟨fun f hf => file_ne_none_step hstep (hjob.inputs f hf), ?_, ?_⟩
    · intro k p hp hin
      obtain ⟨v, hv⟩ := hs.stored k p (seen_address_mem hp (hs.linked k))
      obtain ⟨old, hold, hmem⟩ := hv
      have hsurv : (p.fileNumber, (⟨p.blobHandle, k, v⟩ : Rec K)) ∈ survivors s.files bitmap inputs :=
        mem_survivors.mpr ⟨hin, hjob.covers k p hp hin, old, hold, hmem⟩
      obtain ⟨r, hr, hpair⟩ := exists_mem_zipWith (writeBackIndex output) hcopy hsurv
      simp only [Prod.mk.injEq] at hr
      refine ⟨(writeBackIndex output (p.fileNumber, ⟨p.blobHandle, k, v⟩) r).2, ?_, rfl⟩
      rw [← hr.1]
      exact hpair
    · rintro output' pending hph
      simp only [Phase.writing.injEq] at hph
      obtain ⟨rfl, rfl⟩ := hph
      refine ⟨?_, ?_, ?_, hfile, ?_, ?_, ?_, nodup_writeBacks hcopy hrecs⟩
      · simp [add, single]
      · exact Bool.eq_false_iff.mpr fun ho => hs.obsolete output ho hfresh
      · intro i job hi
        by_cases hij : i = j
        · subst hij
          obtain rfl : _ = job := by simpa using hi
          exact hnotInput i ⟨inputs, .copying bitmap⟩ hj
        · exact hnotInput i job (by simpa [hij] using hi)
      · intro kb hkb hold
        obtain ⟨r, -, -, f, hf, hof, -⟩ := mem_writeBacks hcopy hkb
        have : f = 0 := hof.symm.trans hold
        exact hjob.inputs f hf (this ▸ hs.filesOk.nonzero)
      · exact fun kb hkb hin => hunref _ _ hin (hfile kb hkb)
      · intro kb hkb
        obtain ⟨r, -, -, -, -, -, hnewp, p, hp, hloc⟩ := mem_writeBacks hcopy hkb
        exact ⟨r.value, p, holds_add_new hnewp, holds_step hstep hp, hloc⟩
  · intro job hjob' i other out pending _ hi hph hin
    obtain rfl := Option.some.inj hjob'
    exact ((hs.jobs i other hi).writing out pending hph).notInput j _ hj hin
  · intro job hjob' kb hkb hmarked
    obtain rfl := Option.some.inj hjob'
    refine (hs.marked _ hmarked).written ?_
    change s.files kb.2.ptr.fileNumber = none
    rw [hfile kb hkb]
    exact hfresh
  · rintro inputs' output' pending hnew' i ini p _ hi
    simp only [Option.some.injEq, Job.mk.injEq, Phase.writing.injEq] at hnew'
    obtain ⟨-, rfl, -⟩ := hnew'
    exact ((hs.jobs i _ hi).writing _ p rfl).written hfresh

end

/-! ## Writing back -/

variable {i : Nat} {job : Job K}

section

variable [DecidableEq K] {t : State K} {k : K} {b : BlobIndex}

/-- A careful write-back leaves the inline value that a read sees, or moves the read
from the record it was copied from to the copy. -/
theorem seen_writeBack (hl : Linked s k) (hb : b.oldFileNumber ≠ 0)
    (hm : t.mem = update s.mem k (.blobIndex b :: s.mem k)) (hi : t.imm = s.imm)
    (hss : t.ssts = s.ssts)
    (hcare : Careful s (.writeBack k b)) :
    Linked t k ∧ ((∃ v, seen s k = some (.value v) ∧ seen t k = some (.value v)) ∨
      ∃ p, seen s k = some (.address p) ∧ loc p = oldLoc b ∧ seen t k = some (.address b.ptr)) := by
  rcases hcare with ⟨v, rest, hv⟩ | ⟨p, hp, hloc⟩
  · have ht : t.mem k = .blobIndex b :: .value v :: rest := by simp [hm, hv]
    refine ⟨.inr ⟨b, v, rest, ht, hb⟩, .inl ⟨v, ?_, seen_of_pending ht hb⟩⟩
    simp [seen, lsmVisible, memVisible, hv, Entry.version, Version.denote]
  · have hh : t.history k = .blobIndex b :: s.history k := by simp [history_push hm hi hss]
    rcases hl with hl | ⟨b', v, rest, hm', hb'⟩
    · obtain ⟨e, es, hes⟩ : ∃ e es, s.history k = e :: es := by
        cases h : s.history k with
        | nil => simp [h, resolve] at hp
        | cons e es => exact ⟨e, es, rfl⟩
      obtain ⟨b', rfl⟩ : ∃ b', e = .blobIndex b' := by
        cases e with
        | blobIndex b' => exact ⟨b', rfl⟩
        | value v => simp [hes, Entry.version, resolve] at hp
      have hown : (Entry.blobIndex b').version.own = some b'.ptr := by simp [Entry.version]
      obtain rfl : b'.ptr = p := by
        rw [hes] at hp hl
        have := (resolve_of_leadLinked loc hl hown).symm.trans hp
        simpa using this
      have hl' : LeadLinked loc (versionsOf (t.history k)) := by
        rw [hh, hes]
        rw [hes] at hl
        simp only [versionsOf, map_cons, Entry.version, indexVersion, hb, ↓reduceIte]
        exact ⟨⟨b'.ptr, hown, hloc⟩, hl⟩
      refine ⟨.inl hl', .inr ⟨b'.ptr, ?_, hloc, ?_⟩⟩
      · rw [seen_of_leadLinked hl, hes]
        simp [headTarget, Entry.version]
      · rw [seen_of_leadLinked hl', hh]
        simp [headTarget, Entry.version]
    · -- the history already leads to an inline value
      simp [State.history, hm', Entry.version, indexVersion, hb', resolve] at hp

structure WroteBack (s t : State K) (j : Nat) (inputs : List UInt64) (output : UInt64) (k : K)
    (b : BlobIndex) (rest : List (K × BlobIndex)) : Prop where
  job : s.jobs j = some ⟨inputs, .writing output ((k, b) :: rest)⟩
  state : t = { s with mem := update s.mem k (.blobIndex b :: s.mem k),
                       jobs := update s.jobs j (some ⟨inputs, .writing output rest⟩) }

variable {j : Nat} {inputs : List UInt64} {output : UInt64} {rest : List (K × BlobIndex)}
  (h : WroteBack s t j inputs output k b rest)

include h

namespace WroteBack

theorem mem : t.mem = update s.mem k (.blobIndex b :: s.mem k) := by rw [h.state]

theorem imm : t.imm = s.imm := by rw [h.state]

theorem ssts : t.ssts = s.ssts := by rw [h.state]

theorem files : t.files = s.files := by rw [h.state]

theorem obsolete : t.obsolete = s.obsolete := by rw [h.state]

theorem history (l : K) :
    t.history l = if l = k then .blobIndex b :: s.history l else s.history l :=
  history_push h.mem h.imm h.ssts l

theorem mem_ptrs {l : K} {p : BlobPtr}
    (hp : p ∈ ptrs (t.history l)) : (l = k ∧ p = b.ptr) ∨ p ∈ ptrs (s.history l) := by
  rw [h.history] at hp
  split at hp
  · rename_i hl
    rcases mem_cons.mp (ptrs_blobIndex b _ ▸ hp) with hp | hp
    · exact .inl ⟨hl, hp⟩
    · exact .inr hp
  · exact .inr hp

theorem pending (hs : Inv s) :
    WritingOk s output ((k, b) :: rest) :=
  (hs.jobs j _ h.job).writing output _ rfl

theorem seen_cases (hs : Inv s)
    (hcare : Careful s (.writeBack k b)) :
    Linked t k ∧ ((∃ v, seen s k = some (.value v) ∧ seen t k = some (.value v)) ∨
      ∃ p, seen s k = some (.address p) ∧ loc p = oldLoc b ∧ seen t k = some (.address b.ptr)) :=
  seen_writeBack (hs.linked k) ((h.pending hs).moved _ mem_cons_self) h.mem h.imm h.ssts hcare

/-- Jobs keep their inputs, and what is pending only shrinks. -/
theorem jobs (hjob : t.jobs i = some job) :
    (i = j ∧ job = ⟨inputs, .writing output rest⟩) ∨ (i ≠ j ∧ s.jobs i = some job) := by
  rw [h.state] at hjob
  by_cases hij : i = j
  · subst hij
    exact .inl ⟨rfl, by simpa [eq_comm] using hjob⟩
  · exact .inr ⟨hij, by simpa [hij] using hjob⟩

theorem before (hjob : t.jobs i = some job) : ∃ old, s.jobs i = some old ∧ old.inputs = job.inputs ∧
      ∀ kb ∈ pendingOf job.phase, kb ∈ pendingOf old.phase := by
  rcases h.jobs hjob with ⟨rfl, rfl⟩ | ⟨-, hold⟩
  · exact ⟨_, h.job, rfl, fun kb hkb => mem_cons_of_mem _ hkb⟩
  · exact ⟨job, hold, rfl, fun _ => id⟩

theorem writing {ini : List UInt64} {o : UInt64} {p : List (K × BlobIndex)}
    (hjob : t.jobs i = some ⟨ini, .writing o p⟩) : ∃ p', s.jobs i = some ⟨ini, .writing o p'⟩ := by
  rcases h.jobs hjob with ⟨rfl, heq⟩ | ⟨-, hold⟩
  · simp only [Job.mk.injEq, Phase.writing.injEq] at heq
    obtain ⟨rfl, rfl, -⟩ := heq
    exact ⟨_, h.job⟩
  · exact ⟨p, hold⟩

end WroteBack

theorem dead_writeBack {d : UInt64 × UInt64}
    (hd : Dead s d) : Dead t d where
  written := h.files ▸ hd.written
  unreferenced := by
    intro l p hp
    rcases h.mem_ptrs hp with ⟨-, rfl⟩ | hold
    · exact hd.notPending j _ h.job (k, b) mem_cons_self
    · exact hd.unreferenced l p hold
  notPending := by
    intro i job hjob kb hmem
    obtain ⟨old, hold, -, hpend⟩ := h.before hjob
    exact hd.notPending i old hold kb (hpend kb hmem)

theorem readsLast_writeBack (hs : Inv s)
    (hcare : Careful s (.writeBack k b)) (l : K) : ReadsLast t l := by
  have hr := hs.reads l
  have hlast : t.lastPut = s.lastPut := by rw [h.state]
  unfold ReadsLast at hr ⊢
  rw [hlast, h.files, h.obsolete]
  by_cases hl : l = k
  · subst hl
    have hw := h.pending hs
    have hmem : (l, b) ∈ (l, b) :: rest := mem_cons_self
    rcases (h.seen_cases hs hcare).2 with ⟨v, hv, hv'⟩ | ⟨p, hp, hloc, hp'⟩
    · rw [hv] at hr
      rw [hv']
      exact hr
    · -- the record that was read and the copy hold the same value
      rw [hp] at hr
      rw [hp']
      obtain ⟨v, hv, hhold, -⟩ := hr
      obtain ⟨v', q, hcopy, hq, hqloc⟩ := hw.copied _ hmem
      obtain ⟨hfq, hoq⟩ := Prod.mk.inj (hloc.trans hqloc.symm)
      obtain ⟨-, -, rfl⟩ := holds_eq_of_offset hs.filesOk hhold hq hfq hoq
      have hfile : b.ptr.fileNumber = output := hw.fileNumber _ hmem
      exact ⟨v, hv, hcopy, hfile ▸ hw.live⟩
  · rw [seen_push_of_ne h.mem h.imm h.ssts hl]
    exact hr

theorem writingOk_writeBack {out : UInt64}
    {before after : List (K × BlobIndex)} (hw : WritingOk s out before)
    (hsub : after.Sublist before) (hne : ∀ kb ∈ after, kb.2.ptr ≠ b.ptr) : WritingOk t out after where
  written := h.files ▸ hw.written
  live := h.obsolete ▸ hw.live
  notInput := by
    intro i job hi
    obtain ⟨old, hold, heq, -⟩ := h.before hi
    exact heq ▸ hw.notInput i old hold
  fileNumber := fun kb hkb => hw.fileNumber kb (hsub.subset hkb)
  moved := fun kb hkb => hw.moved kb (hsub.subset hkb)
  unreferenced := by
    intro kb hkb hin
    rcases h.mem_ptrs hin with ⟨-, heq⟩ | hold
    · exact hne kb hkb heq
    · exact hw.unreferenced kb (hsub.subset hkb) hold
  copied := fun kb hkb => h.files ▸ hw.copied kb (hsub.subset hkb)
  distinct := hw.distinct.sublist (hsub.map _)

theorem jobOk_writeBack (hs : Inv s) (hcare : Careful s (.writeBack k b))
    (hjob : t.jobs i = some job) : JobOk t job := by
  have hw := h.pending hs
  -- a read that moves to the copy leaves the inputs of all jobs
  have hother : ∀ l p, seen t l = some (.address p) → p.fileNumber ∈ job.inputs →
      l ≠ k ∧ seen s l = some (.address p) := by
    intro l p hp hin
    by_cases hl : l = k
    · subst hl
      rcases (h.seen_cases hs hcare).2 with ⟨v, -, hv⟩ | ⟨q, -, -, hq⟩
      · rw [hv] at hp
        cases hp
      · rw [hq] at hp
        obtain rfl : b.ptr = p := by simpa using hp
        obtain ⟨old, hold, heq, -⟩ := h.before hjob
        have hfile : b.ptr.fileNumber = output := hw.fileNumber (l, b) mem_cons_self
        exact absurd (heq ▸ hfile ▸ hin) (hw.notInput i old hold)
    · exact ⟨hl, seen_push_of_ne h.mem h.imm h.ssts hl ▸ hp⟩
  rcases h.jobs hjob with ⟨rfl, rfl⟩ | ⟨hij, hold⟩
  · have hold := hs.jobs i _ h.job
    refine ⟨h.files ▸ hold.inputs, ?_, ?_⟩
    · intro l p hp hin
      obtain ⟨hl, hp'⟩ := hother l p hp hin
      obtain ⟨b', hb', hloc⟩ := hold.covers l p hp' hin
      refine ⟨b', ?_, hloc⟩
      rcases mem_cons.mp hb' with hb' | hb'
      · exact absurd (Prod.mk.inj hb').1 hl
      · exact hb'
    · rintro out pending hph
      simp only [Phase.writing.injEq] at hph
      obtain ⟨rfl, rfl⟩ := hph
      refine writingOk_writeBack h hw (sublist_cons_self _ _) fun kb hmem heq => ?_
      exact (nodup_cons.mp hw.distinct).1 (mem_map.mpr ⟨kb, hmem, heq⟩)
  · have hjok := hs.jobs i job hold
    refine ⟨h.files ▸ hjok.inputs, fun l p hp hin => ?_, fun out pending hph => ?_⟩
    · exact hjok.covers l p (hother l p hp hin).2 hin
    · have hw' := hjok.writing out pending hph
      refine writingOk_writeBack h hw' (List.Sublist.refl _) fun kb hmem heq => ?_
      obtain ⟨ini, ph⟩ := job
      obtain rfl : ph = .writing out pending := hph
      have hout : out = output := by
        rw [← hw'.fileNumber kb hmem, ← hw.fileNumber (k, b) mem_cons_self]
        exact congrArg BlobPtr.fileNumber heq
      subst hout
      exact hij (hs.outputs i j _ _ out _ _ hold h.job)

theorem inv_writeBack (hs : Inv s) (hcare : Careful s (.writeBack k b)) : Inv t where
  filesOk := h.files ▸ hs.filesOk
  linked := by
    intro l
    by_cases hl : l = k
    · exact hl ▸ (h.seen_cases hs hcare).1
    · exact linked_push_of_ne h.mem h.imm h.ssts hl (hs.linked l)
  stored := by
    intro l p hp
    rw [h.files]
    rcases h.mem_ptrs hp with ⟨rfl, rfl⟩ | hold
    · obtain ⟨v, -, hv, -⟩ := (h.pending hs).copied _ mem_cons_self
      exact ⟨v, hv⟩
    · exact hs.stored l p hold
  distinct := by
    intro l
    rw [h.history]
    split
    · rename_i hl
      subst hl
      rw [ptrs_blobIndex]
      exact nodup_cons.mpr
        ⟨(h.pending hs).unreferenced _ mem_cons_self, hs.distinct l⟩
    · exact hs.distinct l
  reads := readsLast_writeBack h hs hcare
  marked := fun d hd => dead_writeBack h (hs.marked d (by rw [h.state] at hd; exact hd))
  purged := by rw [h.state]; exact hs.purged
  obsolete := by rw [h.files, h.obsolete]; exact hs.obsolete
  jobs := fun _ _ hjob => jobOk_writeBack h hs hcare hjob
  outputs := by
    intro i l ini inl o pi pl hi hl
    obtain ⟨pi', hpi⟩ := h.writing hi
    obtain ⟨pl', hpl⟩ := h.writing hl
    exact hs.outputs i l ini inl o pi' pl' hpi hpl

end

/-- When nothing is pending no read reaches the inputs any more. -/
theorem inv_finishGc (hs : Inv s) (j : Nat) (inputs : List UInt64) (output : UInt64)
    (hj : s.jobs j = some ⟨inputs, .writing output []⟩) :
    Inv { s with obsolete := fun f => s.obsolete f || decide (f ∈ inputs),
                 jobs := update s.jobs j none } := by
  have hold : Inv { s with jobs := update s.jobs j none } := inv_abortGc hs j
  have hjok := hs.jobs j _ hj
  -- a file of no input keeps its flag
  have hkeep : ∀ f, s.obsolete f = false → f ∉ inputs →
      (s.obsolete f || decide (f ∈ inputs)) = false := by
    intro f hf hin
    simp [hf, hin]
  refine { hold with
    reads := fun k => ?_, marked := fun d hd => { hold.marked d hd with }, purged := fun f hf => ?_,
    obsolete := fun f hf => ?_, jobs := fun i job hi => ?_ }
  · refine (hs.reads k).of_seen_eq rfl rfl fun p v hseen hhold hlive =>
      ⟨hhold, hkeep _ hlive fun hin => ?_⟩
    obtain ⟨b, hb, -⟩ := hjok.covers k p hseen hin
    cases hb
  · change (s.obsolete f || decide (f ∈ inputs)) = true
    rw [hs.purged f hf, Bool.true_or]
  · rcases (by simpa using hf : s.obsolete f = true ∨ f ∈ inputs) with ho | hin
    · exact hs.obsolete f ho
    · exact hjok.inputs f hin
  · have hjob := hold.jobs i job hi
    refine { hjob with writing := fun out pending hph =>
      { hjob.writing out pending hph with live := hkeep _ (hjob.writing out pending hph).live ?_ } }
    have hi' : s.jobs i = some job := by
      by_cases hij : i = j
      · simp [hij] at hi
      · simpa [hij] using hi
    exact ((hs.jobs i job hi').writing out pending hph).notInput j _ hj

end TitanGC.Offload.GcSteps
