import TitanGC.Software.FileSteps

/-!
# Picking, scanning and copying the inputs of a job keeps the invariant

The scan may skip a record of a key whose newest version it has queued, and may
discard one that the newest version does not refer to. Either way, the record that
the newest version does refer to is in the queue when the scan ends.
-/

namespace TitanGC.Software.ScanSteps

open Lib.MultiVersion List Format.BlobFormat Storage.BlobFiles Manifest.Replay
open GcJob Software.System Invariant Carry FileSteps

variable {cf : UInt32} {s t : State} {j : Nat} {job : Job} {ph : Phase}

theorem grows_setJob (s : State) (j : Nat) (job : Option Job) : Grows s (s.setJob j job) Nothing :=
  { grows_refl s Nothing with }

/-- A job whose outputs are applied, or that has none, moves on to a phase in which
it has nothing to write back. -/
theorem jobOk_phase (h : JobOk s job) (hfin : ¬ Finishing job.phase) (hpend : pendingOf ph = [])
    (hbuild : ¬ Building ph)
    (hcovers : ∀ k p, tip s.lsm s.seq k = some (.index p) → p.fileNumber ∈ job.inputs →
      InHand k p ph)
    (hscan : ∀ sc, ph = .scanning sc → ScanOk s job.inputs job.useBitmap sc)
    (hsettled : ph = .walSynced → ∀ f ∈ job.inputs, ∃ q ≤ s.synced, Gone s f q)
    (hdel : ∀ o, ph = .deleting o → o ≤ s.seq ∧
      ∀ f ∈ job.inputs, f ∈ deleted s.log ∧ ∃ q ≤ s.synced, q ≤ o ∧ Gone s f q) :
    JobOk s { job with phase := ph } where
  inputs := h.inputs
  written := h.written
  synced := by
    refine fun _ => h.synced fun hu => hfin ?_
    cases hph : job.phase <;> simp_all [Unsynced, Finishing]
  logged := by
    refine fun _ => h.logged fun hu => hfin ?_
    cases hph : job.phase <;> simp_all [Unlogged, Finishing]
  applied := fun _ => h.applied hfin
  covers := hcovers
  pending := by simp [hpend]
  unreferenced := by simp [hpend, newPtrs]
  nodup := by simp [hpend, newPtrs]
  building := fun hb => absurd hb hbuild
  scanning := hscan
  settled := hsettled
  deleting := hdel

/-- A step that only moves one job on. -/
theorem inv_setPhase (hs : Inv cf s) (hj : s.jobs j = some job)
    (hok : JobOk s { job with phase := ph })
    (hp : ∀ p ∈ newPtrs (pendingOf ph), p ∈ newPtrs (pendingOf job.phase))
    (hb : Building ph → Building job.phase) (hu : Unlogged ph → Unlogged job.phase)
    (hdel : ∀ o, job.phase ≠ .deleting o)
    (hdrop : ∀ d ∈ droppedOf ph, d ∈ droppedOf job.phase ∨
      Dead (s.setJob j (some { job with phase := ph })) d) :
    Inv cf (s.setJob j (some { job with phase := ph })) := by
  have hg := grows_setJob s j (some { job with phase := ph })
  exact inv_phase hs hj hg rfl (jobOk_grows hg avoids_nothing hok) hp hb hu hdel rfl rfl rfl rfl rfl
    hs.manifest.length rfl rfl { hs.bounds with } rfl
    (marked_phase hj rfl rfl rfl hdrop)

/-! ## The inputs -/

variable {useBitmap : Bool} {sc sc' : Scan} {r : Scanned} {rest : List Scanned}

theorem inv_pick (hs : Inv cf s) {inputs : List UInt64} (hj : s.jobs j = none) (hn : inputs.Nodup)
    (hp : ∀ f ∈ inputs, s.Pickable f) :
    Inv cf (s.setJob j (some { inputs, useBitmap, phase := .picked })) := by
  generalize hjob : ({ inputs, useBitmap, phase := .picked } : Job) = job
  have hg := grows_setJob s j (some job)
  have hok : JobOk s job := by
    rw [← hjob]
    exact ⟨fun f hf => (hp f hf).1, by simp, by simp, by simp, by simp, fun _ _ _ _ => trivial,
      by simp [pendingOf], by simp [pendingOf, newPtrs], by simp [pendingOf, newPtrs],
      fun hb => hb.elim, by simp, by simp, by simp⟩
  have hc : Change s (s.setJob j (some job)) j (some job) Nothing := by
    subst hjob
    exact change_some hg fromJob_nothing rfl (jobOk_grows hg avoids_nothing hok)
      ⟨fun i a _ hi f hf => (hp f hf).2.2 i a hi, by simp, by simp, hn, nodup_nil⟩ (.inr (by simp))
  refine inv_quiet hs hc rfl rfl rfl hs.data.filesOk { hs.bounds with }
    (manifest_same hs hc rfl rfl (UInt64.le_refl _) rfl (by simp [hj])) (fun _ h => .inl h)
    (fun _ _ h => .inl h) hs.purged (marked_change rfl rfl rfl ?_)
  intro a ha d hd
  rw [← Option.some.inj ha, ← hjob] at hd
  simp [droppedOf] at hd

/-- The iterator yields every record that a newest version refers to. -/
theorem inv_buildIterator (hs : Inv cf s) {todo : List Scanned} (hj : s.jobs j = some job)
    (hp : job.phase = .picked) (ht : todo.Perm (records s.files job.inputs)) :
    Inv cf (s.setJob j (some { job with phase := .scanning { bitmap := s.bits, todo } })) := by
  have hrecs : ∀ r ∈ todo, r.ptr.fileNumber ∈ job.inputs ∧ Holds s.files r.ptr r.key r.value :=
    fun r hr => mem_records.mp (ht.subset hr)
  refine inv_setPhase hs hj ?_ (by simp [pendingOf, newPtrs]) (fun h => h.elim) (fun h => h.elim)
    (by simp [hp]) (by simp [droppedOf])
  refine jobOk_phase (hs.jobs j job hj) (by simp [hp, Finishing]) rfl id ?_ ?_ (by simp) (by simp)
  · intro k p htip hin
    obtain ⟨n, hn⟩ := exists_of_visible htip
    obtain ⟨v, hv⟩ := hs.data.stored k n p hn
    refine .inr ⟨⟨⟨k, p, v⟩, ht.mem_iff.mpr (mem_records.mpr ⟨hin, hv⟩), rfl, rfl⟩, ?_⟩
    simp
  · rintro sc hsc
    cases hsc
    refine ⟨fun _ _ h => h, hrecs, by simp, fun _ => rfl, ?_⟩
    rintro - p hin ⟨k, n, hn⟩
    obtain ⟨v, hv⟩ := hs.data.stored k n p hn
    exact ⟨⟨k, p, v⟩, .inl (ht.mem_iff.mpr (mem_records.mpr ⟨hin, hv⟩)), rfl⟩

/-! ## The scan -/

section

variable (hs : Inv cf s) (hsc : ScanOk s job.inputs useBitmap sc)

include hs hsc

/-- A record whose bit a bitmap copy shows is referenced by no version. -/
theorem not_referenced_of_bitmap {p : BlobPtr}
    (hb : sc.bitmap p.fileNumber p.blobHandle.index = true) : ¬ Referenced s p :=
  fun href => (hs.marked (slotOf p) (.inl (hsc.bitmap _ _ hb))).unreferenced p href rfl

/-- A record that the scan discards is not the newest version of its key. -/
theorem not_tip_of_discard
    (hd : (if useBitmap then sc.bitmap r.ptr.fileNumber r.ptr.blobHandle.index
      else !refersTo r.ptr (tip s.lsm s.seq r.key)) = true) :
    tip s.lsm s.seq r.key ≠ some (.index r.ptr) := by
  intro htip
  cases useBitmap with
  | true =>
    obtain ⟨n, hn⟩ := exists_of_visible htip
    exact not_referenced_of_bitmap hs hsc hd ⟨r.key, n, hn⟩
  | false =>
    rw [htip] at hd
    simp at hd

variable (ht : sc.todo = r :: rest)
  (hscans : Scans (if useBitmap then sc.bitmap r.ptr.fileNumber r.ptr.blobHandle.index
    else !refersTo r.ptr (tip s.lsm s.seq r.key)) useBitmap { sc with todo := rest } r sc')

include ht hscans

/-- One record of the scan: the records that newest versions refer to stay in hand. -/
theorem inHand_scan {k : Key} {p : BlobPtr} (htip : tip s.lsm s.seq k = some (.index p))
    (hold : InHand k p (.scanning sc)) : InHand k p (.scanning sc') := by
  obtain ⟨hrin, hrholds⟩ := hsc.todo r (ht ▸ mem_cons_self)
  rcases hold with ⟨x, hx, hk, hptr⟩ | ⟨⟨x, hx, hk, hptr⟩, hfresh⟩
  · -- already queued
    refine .inl ⟨x, ?_, hk, hptr⟩
    cases hscans with
    | skip => exact hx
    | discard _ hd hsc' => rcases hsc' with ⟨rfl, -⟩ | rfl <;> exact hx
    | queue _ hd hsc' => exact hsc' ▸ mem_append_left _ hx
  · rw [ht] at hx
    rcases mem_cons.mp hx with rfl | hx
    · -- the record itself
      subst hk hptr
      cases hscans with
      | skip hf hkey => exact absurd ⟨hf, hkey⟩ hfresh
      | discard _ hd hsc' => exact absurd htip (not_tip_of_discard hs hsc hd)
      | queue _ hd hsc' => exact .inl ⟨x, by simp [hsc'], rfl, rfl⟩
    · cases hscans with
      | skip hf hkey => exact .inr ⟨⟨x, hx, hk, hptr⟩, hfresh⟩
      | discard _ hd hsc' =>
        refine .inr ⟨⟨x, ?_, hk, hptr⟩, ?_⟩
        · rcases hsc' with ⟨rfl, -⟩ | rfl <;> exact hx
        · rcases hsc' with ⟨rfl, -⟩ | rfl
          · exact hfresh
          · simp
      | queue _ hd hsc' =>
        by_cases hsame : useBitmap = false ∧ k = r.key
        · -- the queued record is the newest version of the key
          obtain ⟨rfl, rfl⟩ := hsame
          obtain ⟨n, hn⟩ := exists_of_visible htip
          obtain ⟨v, hv⟩ := hs.data.stored _ n p hn
          rw [htip] at hd
          have hrefers : refersTo r.ptr (some (.index p)) = true := by simpa using hd
          obtain ⟨hrp, -⟩ := eq_of_refersTo hs.data.filesOk hrholds hv hrefers
          exact .inl ⟨r, by simp [hsc'], rfl, hrp⟩
        · refine .inr ⟨⟨x, by simpa [hsc'] using hx, hk, hptr⟩, ?_⟩
          rw [hsc']
          rintro ⟨hf, hkey⟩
          exact hsame ⟨by simpa using hf, hkey⟩

theorem scanOk_scan : ScanOk s job.inputs useBitmap sc' := by
  have htodo : ∀ x ∈ rest, x ∈ sc.todo := fun x hx => ht ▸ mem_cons_of_mem _ hx
  have hinputs : ∀ x ∈ rest, x.ptr.fileNumber ∈ job.inputs ∧ Holds s.files x.ptr x.key x.value :=
    fun x hx => hsc.todo x (htodo x hx)
  -- the record itself, a later one, or one that is queued
  have hcases : useBitmap = true → ∀ p, p.fileNumber ∈ job.inputs → Referenced s p →
      r.ptr = p ∨ ∃ x, (x ∈ rest ∨ x ∈ sc.queue) ∧ x.ptr = p := by
    intro hb p hp href
    obtain ⟨x, hx | hx, hxp⟩ := hsc.referenced hb p hp href
    · rw [ht] at hx
      rcases mem_cons.mp hx with rfl | hx
      · exact .inl hxp
      · exact .inr ⟨x, .inl hx, hxp⟩
    · exact .inr ⟨x, .inr hx, hxp⟩
  cases hscans with
  | skip hf hkey =>
    refine ⟨hsc.bitmap, hinputs, hsc.queue, hsc.fresh, fun hb => ?_⟩
    rw [hsc.fresh hb] at hf
    cases hf
  | discard _ hd hsc' =>
    have hleft : useBitmap = true → ∀ p, p.fileNumber ∈ job.inputs → Referenced s p →
        ∃ x, (x ∈ rest ∨ x ∈ sc.queue) ∧ x.ptr = p := by
      intro hb p hp href
      rcases hcases hb p hp href with rfl | hx
      · subst hb
        exact absurd href (not_referenced_of_bitmap hs hsc hd)
      · exact hx
    rcases hsc' with ⟨rfl, -⟩ | rfl
    · exact ⟨hsc.bitmap, hinputs, hsc.queue, hsc.fresh, hleft⟩
    · exact ⟨hsc.bitmap, hinputs, hsc.queue, fun _ => rfl, hleft⟩
  | queue _ hd hsc' =>
    subst hsc'
    refine ⟨hsc.bitmap, hinputs, fun x hx => ?_, fun hb => by simp [hb], fun hb p hp href => ?_⟩
    · rcases mem_append.mp hx with hx | hx
      · exact hsc.queue x hx
      · exact mem_singleton.mp hx ▸ hsc.todo r (ht ▸ mem_cons_self)
    · rcases hcases hb p hp href with hrp | ⟨x, hx, hxp⟩
      · exact ⟨r, .inr (by simp), hrp⟩
      · exact ⟨x, hx.imp_right fun h => mem_append_left _ h, hxp⟩

end

theorem inv_scan (hs : Inv cf s) (hj : s.jobs j = some job) (hp : job.phase = .scanning sc)
    (ht : sc.todo = r :: rest)
    (hscan : scanRecord job.useBitmap (s.baseGet r.key) { sc with todo := rest } r = .ok sc') :
    Inv cf (s.setJob j (some { job with phase := .scanning sc' })) := by
  have hold := hs.jobs j job hj
  have hsc := hold.scanning sc hp
  have hscans := scanRecord_ok hscan
  refine inv_setPhase hs hj ?_ (by simp [pendingOf, newPtrs]) (fun h => h.elim) (fun h => h.elim)
    (by simp [hp]) (by simp [droppedOf])
  refine jobOk_phase hold (by simp [hp, Finishing]) rfl id ?_ ?_ (by simp) (by simp)
  · intro k p htip hin
    exact inHand_scan hs hsc ht hscans htip (hp ▸ hold.covers k p htip hin)
  · rintro x hx
    cases hx
    exact scanOk_scan hs hsc ht hscans

theorem exists_of_forall₂ {α β : Type} {R : α → β → Prop} {xs : List α} {ys : List β}
    (h : List.Forall₂ R xs ys) {x : α} (hx : x ∈ xs) : ∃ y ∈ ys, R x y := by
  induction h with
  | nil => cases hx
  | cons hR _ ih =>
    rcases mem_cons.mp hx with rfl | hx
    · exact ⟨_, mem_cons_self, hR⟩
    · obtain ⟨y, hy, hxy⟩ := ih hx
      exact ⟨y, mem_cons_of_mem _ hy, hxy⟩

/-- The queued records are copied to new files, or go back as values. -/
theorem inv_rewriteFiles (hs : Inv cf s) {fallback : Bool} {new : Files Key} {outputs : List UInt64}
    {next : UInt64} {pending : List Rewrite} (hj : s.jobs j = some job) (hp : job.phase = .scanning sc)
    (ht : sc.todo = []) (hw : Writes s new outputs next)
    (hc : List.Forall₂ (Copies new fallback) sc.queue pending) (hn : (newPtrs pending).Nodup) :
    Inv cf { s.setJob j (some { job with
        outputs, phase := .finishing .written (.rewrite pending) }) with
      files := add s.files new, nextFileNumber := next } := by
  have hold := hs.jobs j job hj
  have hsc := hold.scanning sc hp
  have hapart : Apart s.jobs j job := apart_of_same hs.separated hj rfl rfl
  refine inv_newFiles _ hs hw rfl rfl hold.inputs hapart.nodup.1 hapart.inputs ?_ ?_ hn
    fun _ _ => not_deleting hj (by simp [hp])
  · intro k p htip hin
    have hhand := hold.covers k p htip hin
    rw [hp] at hhand
    rcases hhand with ⟨r, hr, hk, hptr⟩ | ⟨⟨r, hr, -⟩, -⟩
    · obtain ⟨e, he, hcopy⟩ := exists_of_forall₂ hc hr
      exact ⟨e, he, by cases hcopy <;> exact hk, by cases hcopy <;> exact hptr⟩
    · rw [ht] at hr
      cases hr
  · intro e he
    obtain ⟨r, hr, hcopy⟩ := exists_of_forall₂ hc.flip he
    obtain ⟨-, hholds⟩ := hsc.queue r hr
    refine ⟨r.value, ?_⟩
    cases hcopy with
    | record p hf hp =>
      exact ⟨holds_add_old hw.fresh hholds,
        .inr ⟨p, rfl, holds_add_new hp, (hw.numbers _).mpr hp.file_ne_none⟩⟩
    | value hf => exact ⟨holds_add_old hw.fresh hholds, .inl rfl⟩

end TitanGC.Software.ScanSteps
