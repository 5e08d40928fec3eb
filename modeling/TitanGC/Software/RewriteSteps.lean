import TitanGC.Software.ScanSteps

/-!
# Writing rewritten keys back and deleting the inputs keeps the invariant

`RewriteValidKeyToLSM` and `DeleteInputBlobFiles`. A key goes back only if its
newest version still is the record that was copied; otherwise the copy is dead.
When all keys are through, no newest version is in the inputs, and once the WAL is
synced no crash brings one back.
-/

namespace TitanGC.Software.RewriteSteps

open Lib.MultiVersion List Format.BlobFormat Storage.BlobFiles GcJob Software.System Invariant
open Carry UserSteps ScanSteps
open Function (update)

variable {cf : UInt32} {s t : State} {j : Nat} {job : Job} {e : Rewrite} {rest : List Rewrite}
  {dropped : List (UInt64 × UInt64)}

theorem newPtrs_cons (e : Rewrite) (rest : List Rewrite) :
    newPtrs (e :: rest) = newPtrs [e] ++ newPtrs rest := by
  rw [newPtrs, newPtrs, newPtrs, ← filterMap_append, singleton_append]

theorem mem_newPtrs_singleton {r : BlobPtr} : r ∈ newPtrs [e] ↔ e.slot = .index r := by
  rw [mem_newPtrs]
  simp

/-- The copies that remain are pending already. -/
theorem newPtrs_rest {p : BlobPtr} (h : p ∈ newPtrs rest) : p ∈ newPtrs (e :: rest) := by
  rw [newPtrs_cons]
  exact mem_append_right _ h

section

variable (hok : JobOk s job) (hp : job.phase = .rewriting (e :: rest) dropped)

include hok hp

/-- The copy of the first pending rewrite: where it is, and that nothing else is it. -/
theorem first_copy {r : BlobPtr} (hr : e.slot = .index r) :
    (∃ v, Holds s.files r e.key v) ∧ r.fileNumber ∈ job.outputs ∧ ¬ Referenced s r ∧
      r ∉ newPtrs rest := by
  have hpend : pendingOf job.phase = e :: rest := by rw [hp]; rfl
  have hmem : r ∈ newPtrs (pendingOf job.phase) := by
    rw [hpend, newPtrs_cons]
    exact mem_append_left _ (mem_newPtrs_singleton.mpr hr)
  refine ⟨?_, output_of_newPtrs hok hmem, hok.unreferenced r hmem, fun hrest => ?_⟩
  · exact ((hok.pending e (hpend ▸ mem_cons_self)).copy hr).1
  · have hn := hok.nodup
    rw [hpend, newPtrs_cons] at hn
    exact (nodup_append.mp hn).2.2 r (mem_newPtrs_singleton.mpr hr) r hrest rfl

/-- The job after its first pending rewrite is done, in a state where nothing but the
first copy is newly referenced. -/
theorem jobOk_rest (hg : Grows s t fun r => e.slot = .index r) (dropped' : List (UInt64 × UInt64))
    (hcovers : ∀ k p, tip t.lsm t.seq k = some (.index p) → p.fileNumber ∈ job.inputs →
      ∃ x ∈ rest, x.key = k ∧ x.old = p) :
    JobOk t { job with phase := .rewriting rest dropped' } := by
  have hpend : pendingOf job.phase = e :: rest := by rw [hp]; rfl
  exact
    { inputs := fun f hf => added_grows hg (hok.inputs f hf)
      written := fun f hf => hg.written f (hok.written f hf)
      synced := fun _ f hf => hg.fileSynced f (hok.synced (by rw [hp]; exact id) f hf)
      logged := fun _ f hf => added_log_grows hg (hok.logged (by rw [hp]; exact id) f hf)
      applied := fun _ f hf => added_grows hg (hok.applied (by rw [hp]; exact id) f hf)
      covers := hcovers
      pending := fun x hx =>
        rewriteOk_grows hg (hok.pending x (hpend ▸ mem_cons_of_mem _ hx))
      unreferenced := by
        intro p hrest href
        rcases referenced_grows hg href with hold | hnew
        · exact hok.unreferenced p (hpend ▸ newPtrs_rest hrest) hold
        · exact (first_copy hok hp hnew).2.2.2 hrest
      nodup := by
        have hn := hok.nodup
        rw [hpend, newPtrs_cons] at hn
        exact hn.of_append_right
      building := fun hb => hb.elim
      scanning := by simp
      settled := by simp
      deleting := by simp }

end

/-! ## The write callback succeeds -/

variable (hs : Inv cf s) (hj : s.jobs j = some job)
  (hp : job.phase = .rewriting (e :: rest) dropped)

include hs hj hp

/-- The newest version is the record that was copied. -/
theorem tip_of_callback (hc : callback (s.baseGet e.key) e.old.plain = .ok ()) :
    tip s.lsm s.seq e.key = some (.index e.old) ∧ ∃ v, s.lastWrite e.key = some v ∧
      (e.slot = .value v ∨ ∃ p, e.slot = .index p ∧ Holds s.files p e.key v) := by
  have hrefers := callback_ok_iff.mp hc
  obtain ⟨v, hold, hslot⟩ := ((hs.jobs j job hj).pending e (by rw [hp]; exact mem_cons_self)).copied
  have hreads := hs.reads e.key
  unfold ReadsLast at hreads
  cases htip : tip s.lsm s.seq e.key with
  | none => simp [htip, refersTo] at hrefers
  | some slot =>
    rw [htip] at hrefers hreads
    cases slot with
    | value v => simp [refersTo] at hrefers
    | deletion => simp [refersTo] at hrefers
    | index q =>
      obtain ⟨w, hw, hq⟩ := hreads
      obtain ⟨rfl, rfl⟩ := eq_of_refersTo hs.data.filesOk hold hq hrefers
      refine ⟨rfl, v, hw, ?_⟩
      rcases hslot with hv | ⟨p, hp, hh, -⟩
      · exact .inl hv
      · exact .inr ⟨p, hp, hh⟩

theorem inv_writeBack (hc : callback (s.baseGet e.key) e.old.plain = .ok ()) :
    Inv cf ((s.append e.key e.slot).setJob j
      (some { job with phase := .rewriting rest dropped })) := by
  have hok := hs.jobs j job hj
  have hpend : pendingOf job.phase = e :: rest := by rw [hp]; rfl
  have hg : Grows s (appended s e.key e.slot (update s.jobs j (some { job with
      phase := .rewriting rest dropped })) s.lastWrite) fun r => e.slot = .index r :=
    grows_append hs.data.bounded
  have hok' := jobOk_rest hok hp hg dropped fun k p htip hin => by
    rw [tip_append hs.data.bounded] at htip
    by_cases hk : k = e.key
    · -- the new version is not in the inputs
      have hslot : e.slot = .index p := by simpa [hk] using htip
      exact absurd hin (hs.separated.mixed j j job job _ hj hj (first_copy hok hp hslot).2.1)
    · have hcov := hok.covers k p (by simpa [hk] using htip) hin
      rw [hp] at hcov
      obtain ⟨x, hx, hxk, hxp⟩ := hcov
      rcases mem_cons.mp hx with rfl | hx
      · exact absurd hxk.symm hk
      · exact ⟨x, hx, hxk, hxp⟩
  have hfrom : FromJob s j fun r => e.slot = .index r := by
    intro r hr
    refine ⟨job, hj, (first_copy hok hp hr).2.1, by rw [hp]; exact id, .inl ?_⟩
    rw [hpend, newPtrs_cons]
    exact mem_append_left _ (mem_newPtrs_singleton.mpr hr)
  refine inv_append hs (change_phase hs hj hg hfrom rfl hok' (fun p h => hpend ▸ newPtrs_rest h)
    (fun h => h.elim) fun h => h.elim) (fun p hslot => ?_) ?_ (fun _ _ => rfl)
    (fun old o hold hph => absurd hph (not_deleting hj (by simp [hp]) hold))
    (marked_phase hj rfl rfl rfl fun d hd => .inl (by rw [hp]; exact hd))
  · exact ⟨(first_copy hok hp hslot).1, (first_copy hok hp hslot).2.2.1⟩
  · obtain ⟨-, v, hv, hslot | ⟨p, hslot, hh⟩⟩ := tip_of_callback hs hj hp hc
    · unfold ReadsLast
      rw [tip_append hs.data.bounded, if_pos rfl, hslot]
      exact hv
    · unfold ReadsLast
      rw [tip_append hs.data.bounded, if_pos rfl, hslot]
      exact ⟨v, hv, hh⟩

/-! ## The write callback fails -/

/-- The copy of a record that was overwritten meanwhile is dead. -/
theorem dead_of_overwritten {r : BlobPtr} (hr : e.slot = .index r)
    (dropped' : List (UInt64 × UInt64)) :
    Dead (s.setJob j (some { job with phase := .rewriting rest dropped' })) (slotOf r) := by
  have hok := hs.jobs j job hj
  obtain ⟨⟨v, hv⟩, hout, hunref, hrest⟩ := first_copy hok hp hr
  have hsame : ∀ q l w, Holds s.files q l w → slotOf q = slotOf r → q = r := by
    intro q l w hq hslot
    simp only [slotOf, Prod.mk.injEq] at hslot
    exact (holds_eq_of_index hs.data.filesOk hq hv hslot.1 hslot.2).1
  refine ⟨hv.file_ne_none, ?_, ?_, ?_⟩
  · rintro q ⟨k, n, hq⟩ hslot
    obtain ⟨w, hw⟩ := hs.data.stored k n q hq
    exact hunref (hsame q k w hw hslot ▸ ⟨k, n, hq⟩)
  · intro i a hi q hq hslot
    rcases update_some hi with ⟨rfl, rfl⟩ | ⟨hij, hi'⟩
    · obtain ⟨x, hx, hxs⟩ := mem_newPtrs.mp hq
      obtain ⟨⟨w, hw⟩, -⟩ := (hok.pending x (by rw [hp]; exact mem_cons_of_mem _ hx)).copy hxs
      exact hrest (hsame q x.key w hw hslot ▸ hq)
    · refine hij (hs.separated.outputs i j a job _ hi' hj (output_of_newPtrs (hs.jobs i a hi') hq) ?_)
      simp only [slotOf, Prod.mk.injEq] at hslot
      exact hslot.1 ▸ hout
  · intro i a hi hb hin
    rcases update_some hi with ⟨rfl, rfl⟩ | ⟨hij, hi'⟩
    · exact hb
    · exact hij (hs.separated.outputs i j a job _ hi' hj hin hout)

theorem inv_overwritten {msg : String}
    (hc : callback (s.baseGet e.key) e.old.plain = .error ⟨.busy, msg⟩) :
    Inv cf (s.setJob j (some { job with
      phase := .rewriting rest (if job.useBitmap then dropped ++ (newPtrs [e]).map slotOf
        else dropped) })) := by
  generalize hd : (if job.useBitmap then dropped ++ (newPtrs [e]).map slotOf else dropped) = dropped'
  have hok := hs.jobs j job hj
  have hpend : pendingOf job.phase = e :: rest := by rw [hp]; rfl
  refine inv_setPhase hs hj ?_ (fun p h => hpend ▸ newPtrs_rest h) (fun h => h.elim)
    (fun h => h.elim) (by simp [hp]) ?_
  · refine jobOk_rest hok hp (grows_refl s _) dropped' fun k p htip hin => ?_
    have hcov := hok.covers k p htip hin
    rw [hp] at hcov
    obtain ⟨x, hx, hxk, hxp⟩ := hcov
    rcases mem_cons.mp hx with rfl | hx
    · -- the callback would have found the record that was copied
      subst hxk hxp
      have hcall : callback (s.baseGet x.key) x.old.plain = .ok () :=
        callback_ok_iff.mpr (by rw [htip]; exact refersTo_self x.old)
      rw [hcall] at hc
      cases hc
    · exact ⟨x, hx, hxk, hxp⟩
  · intro d hmem
    have hcases : d ∈ dropped ∨ ∃ r, e.slot = .index r ∧ slotOf r = d := by
      rw [droppedOf, ← hd] at hmem
      split at hmem
      · rcases mem_append.mp hmem with h | h
        · exact .inl h
        · obtain ⟨r, hr, hslot⟩ := mem_map.mp h
          exact .inr ⟨r, mem_newPtrs_singleton.mp hr, hslot⟩
      · exact .inl hmem
    rcases hcases with hold | ⟨r, hr, rfl⟩
    · exact .inl (by rw [hp]; exact hold)
    · exact .inr (dead_of_overwritten hs hj hp hr dropped')

end TitanGC.Software.RewriteSteps
