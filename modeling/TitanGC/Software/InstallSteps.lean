import TitanGC.Software.FileSteps

/-!
# Installing the SSTs of a flush or compaction keeps the invariant

A flush or compaction rewrites the versions of a region. No read notices, except
that a value may be found in a record of the job's outputs. The records that a
compaction drops were referenced once, so nothing refers to them afterwards.
-/

namespace TitanGC.Software.InstallSteps

open Lib.MultiVersion Format.BlobFormat Storage.BlobFiles GcJob Software.System Invariant Carry

variable {cf : UInt32} {s t : State} {j : Nat} {job : Job} {outputs : List UInt64}
  {region : Key → Nat → Prop} {lsm : Lsm}

variable {k : Key} {p : BlobPtr}

/-- A version that `Add` turned into an index was that index, or the record is new. -/
theorem moves_index {fs : Files Key} {slot : Slot}
    (h : slot = .index p ∨ Moves fs outputs k slot (.index p)) :
    slot = .index p ∨ p.fileNumber ∈ outputs := by
  rcases h with h | h
  · exact .inl h
  · cases h with
    | keep => exact .inl rfl
    | separate v _ hp ho => exact .inr ho
    | relocate v q _ hq hp ho => exact .inr ho

theorem moves_holds {fs : Files Key} {slot : Slot}
    (h : slot = .index p ∨ Moves fs outputs k slot (.index p)) : slot = .index p ∨ ∃ v, Holds fs p k v := by
  rcases h with h | h
  · exact .inl h
  · cases h with
    | keep => exact .inl rfl
    | separate v _ hp ho => exact .inr ⟨v, hp⟩
    | relocate v q _ hq hp ho => exact .inr ⟨v, hp⟩

theorem install_ref (hi : Installs s outputs region lsm) {n : Nat} (h : lsm k n = some (.index p)) :
    s.lsm k n = some (.index p) ∨ p.fileNumber ∈ outputs := by
  obtain ⟨slot, hslot, hmoves⟩ := rewritten_eq_some (hi.rewritten k) h
  rcases moves_index hmoves with rfl | ho
  · exact .inl hslot
  · exact .inr ho

theorem install_read (hi : Installs s outputs region lsm) {q : Nat} {r : BlobPtr}
    (hq : q ∈ s.snapshots ∨ ∀ n, region k n → n ≤ q) (h : visible (lsm k) q = some (.index r)) :
    visible (s.lsm k) q = some (.index r) ∨ r.fileNumber ∈ outputs := by
  have hreads := readsAs_of_rewritten (hi.rewritten k) hq
  rw [h] at hreads
  cases hold : visible (s.lsm k) q with
  | none =>
    rw [hold] at hreads
    exact hreads.elim
  | some slot =>
    rw [hold] at hreads
    rcases moves_index hreads with rfl | ho
    · exact .inl rfl
    · exact .inr ho

theorem install_stored (hs : Inv cf s) (hi : Installs s outputs region lsm) {k : Key} {n : Nat}
    {p : BlobPtr} (h : lsm k n = some (.index p)) : ∃ v, Holds s.files p k v := by
  obtain ⟨slot, hslot, hmoves⟩ := rewritten_eq_some (hi.rewritten k) h
  rcases moves_holds hmoves with rfl | hv
  · exact hs.data.stored k n p hslot
  · exact hv

/-- The newest version after the rewrite still stands for the latest user write. -/
theorem install_readsLast (hs : Inv cf s) (hi : Installs s outputs region lsm)
    (hr : ∀ k n, region k n → n ≤ s.seq) (hlsm : t.lsm = lsm) (hseq : t.seq = s.seq)
    (hlast : t.lastWrite = s.lastWrite) (hfiles : t.files = s.files) (k : Key) : ReadsLast t k := by
  have hreads := readsAs_of_rewritten (hi.rewritten k) (p := s.seq) (.inr (hr k))
  have hold := hs.reads k
  unfold ReadsLast tip at hold ⊢
  rw [hlsm, hseq, hlast, hfiles]
  cases hv : visible (s.lsm k) s.seq with
  | none =>
    rw [hv] at hreads hold
    cases hw : visible (lsm k) s.seq with
    | none => exact hold
    | some w => exact (by rw [hw] at hreads; exact hreads.elim)
  | some v =>
    rw [hv] at hreads hold
    cases hw : visible (lsm k) s.seq with
    | none =>
      rw [hw] at hreads
      obtain rfl : v = .deletion := hreads
      exact hold
    | some w =>
      rw [hw] at hreads
      rcases hreads with rfl | hm
      · exact hold
      · cases hm with
        | keep => exact hold
        | separate x p hp ho => exact ⟨x, hold, hp⟩
        | relocate x q p hq hp ho =>
          obtain ⟨y, hy, hqy⟩ := hold
          obtain ⟨-, -, rfl⟩ := holds_eq_of_offset hs.data.filesOk hqy hq rfl rfl
          exact ⟨y, hy, hp⟩
        | putInline x q hq =>
          obtain ⟨y, hy, hqy⟩ := hold
          obtain ⟨-, -, rfl⟩ := holds_eq_of_offset hs.data.filesOk hqy hq rfl rfl
          exact hy

/-! ## Both kinds of job -/

/-- What a flush up to `flushed` or a compaction makes of the state. -/
def installed (s : State) (j : Nat) (lsm : Lsm) (flushed : Nat)
    (notices : List CompactionJobInfo) : State :=
  { s.setJob j none with lsm := lsm, flushed := flushed, notices := notices }

variable (flushed : Nat) (notices : List CompactionJobInfo)

variable (hs : Inv cf s) (hj : s.jobs j = some job) (hp : job.phase = .built)

include hj hp

theorem change_installed (hf : s.flushed ≤ flushed) (hseq : flushed ≤ s.seq)
    (hr : ∀ k n, region k n → n ≤ flushed) (hi : Installs s job.outputs region lsm) :
    Change s (installed s j lsm flushed notices) j none fun r => r.fileNumber ∈ job.outputs := by
  refine change_remove ?_ ?_ rfl
  · exact
      { grows_refl s Nothing with
        refs := fun k n p h => install_ref hi h
        reads := by
          intro k q r hq h
          have hrel : Relevant s q := hq.imp_right hf.trans
          rcases install_read hi (hq.imp_right fun hle n hn => (hr k n hn).trans hle) h with h | h
          · exact .inl ⟨hrel, h⟩
          · exact .inr h
        tips := fun k r h => install_read hi (.inr fun n hn => (hr k n hn).trans hseq) h }
  · intro r hr
    exact ⟨job, hj, hr, by rw [hp]; exact id, .inr (by rw [hp]; trivial)⟩

include hs

theorem inv_installed (hf : s.flushed ≤ flushed) (hseq : flushed ≤ s.seq)
    (hr : ∀ k n, region k n → n ≤ flushed) (hi : Installs s job.outputs region lsm)
    (hmarked : ∀ d, Marked (installed s j lsm flushed notices) d →
      Marked s d ∨ Dead (installed s j lsm flushed notices) d) :
    Inv cf (installed s j lsm flushed notices) := by
  have hc := change_installed flushed notices hj hp hf hseq hr hi
  refine inv_change hs hc ?_ ?_ ?_ ?_ (fun _ h => .inl h) (fun _ _ h => .inl h) hs.purged hmarked
  · exact data_change hs hc hs.data.filesOk
      (fun k => bounded_rewritten (hi.rewritten k) (hs.data.bounded k))
      (fun k n p _ h => install_stored hs hi h) (fun k n k' n' p ho h h' => hi.once k n k' n' p ho h h')
  · exact install_readsLast hs hi (fun k n hn => (hr k n hn).trans hseq) rfl rfl rfl rfl
  · exact { hs.bounds with flushed := hseq }
  · exact manifest_same hs hc rfl rfl (UInt64.le_refl _) rfl fun old o hold hph =>
      absurd hph (not_deleting hj (by simp [hp]) hold)

theorem inv_flush (hf : s.flushed ≤ flushed) (hseq : flushed ≤ s.seq)
    (hi : Installs s job.outputs (fun _ n => s.flushed < n ∧ n ≤ flushed) lsm) :
    Inv cf { s.setJob j none with lsm := lsm, flushed := flushed } :=
  inv_installed flushed s.notices hs hj hp hf hseq (fun _ _ h => h.2) hi
    (marked_change rfl rfl rfl (by simp))

/-! ## The records that a compaction drops -/

/-- A dropped record was referenced by one version, which the compaction changed. -/
theorem dead_of_dropped (hi : Installs s job.outputs region lsm) {d : UInt64 × UInt64}
    (hin : TableRefers region s.lsm d) (hgone : ¬ TableRefers region lsm d) :
    Dead (installed s j lsm flushed notices) d := by
  obtain ⟨k, n, p, hreg, hkn, rfl⟩ := hin
  have href : Referenced s p := ⟨k, n, hkn⟩
  obtain ⟨v, hv⟩ := hs.data.stored k n p hkn
  have hsame : ∀ q l w, Holds s.files q l w → slotOf q = slotOf p → q = p := by
    intro q l w hq hslot
    simp only [slotOf, Prod.mk.injEq] at hslot
    exact (holds_eq_of_index hs.data.filesOk hq hv hslot.1 hslot.2).1
  have hjob : ∀ i a, (installed s j lsm flushed notices).jobs i = some a → s.jobs i = some a := by
    intro i a hi
    rcases update_eq_some hi with ⟨-, hn⟩ | ⟨-, hold⟩
    · cases hn
    · exact hold
  refine ⟨hv.file_ne_none, ?_, ?_, ?_⟩
  · rintro q ⟨k', n', hq⟩ hslot
    obtain ⟨w, hw⟩ := install_stored hs hi hq
    obtain rfl := hsame q k' w hw hslot
    rcases install_ref hi hq with hold | ho
    · obtain ⟨rfl, rfl⟩ := hs.data.unique k n k' n' q hkn hold
      exact hgone ⟨k, n, q, hreg, hq, rfl⟩
    · exact (hs.jobs j job hj).building (by rw [hp]; trivial) q href ho
  · intro i a hia q hq hslot
    have hok := hs.jobs i a (hjob i a hia)
    obtain ⟨e, he, hes⟩ := mem_newPtrs.mp hq
    obtain ⟨⟨w, hw⟩, -⟩ := (hok.pending e he).copy hes
    exact hok.unreferenced q hq (hsame q e.key w hw hslot ▸ href)
  · intro i a hia hb
    exact (hs.jobs i a (hjob i a hia)).building hb p href

theorem inv_compact {info : CompactionJobInfo} (hr : ∀ k n, region k n → n ≤ s.flushed)
    (hi : Installs s job.outputs region lsm)
    (hin : ∀ d, d ∈ info.inputs ↔ TableRefers region s.lsm d)
    (hout : ∀ d, d ∈ info.outputs ↔ TableRefers region lsm d) :
    Inv cf { s.setJob j none with lsm := lsm, notices := s.notices ++ [info] } := by
  refine inv_installed s.flushed (s.notices ++ [info]) hs hj hp le_rfl hs.bounds.flushed hr hi ?_
  rintro d (hb | ⟨x, hx, hd⟩ | ⟨i, a, hia, hd⟩)
  · exact .inl (.inl hb)
  · rcases List.mem_append.mp hx with hold | hnew
    · exact .inl (.inr (.inl ⟨x, hold, hd⟩))
    · rw [List.mem_singleton.mp hnew, CompactionJobInfo.invalid] at hd
      simp only [Bool.and_eq_true, decide_eq_true_eq, Bool.not_eq_true', decide_eq_false_iff_not] at hd
      exact .inr (dead_of_dropped _ _ hs hj hp hi ((hin d).mp hd.1)
        fun href => hd.2 ((hout d).mpr href))
  · rcases update_eq_some hia with ⟨-, hn⟩ | ⟨-, hold⟩
    · cases hn
    · exact .inl (.inr (.inr ⟨i, a, hold, hd⟩))

end TitanGC.Software.InstallSteps
