import TitanGC.Offload.Invariant

/-!
# User writes, switches, flushes and compactions keep the invariant
-/

namespace TitanGC.Offload.LsmSteps

open Lib.ByteCoding Lib.Relocation List Format.BlobFormat Compaction.Merge Storage.BlobFiles
open Reads Offload.System History Invariant
open Function (update)

variable {K : Type}

theorem add_empty (fs : Files K) : add fs (fun _ => none) = fs := by
  funext f
  simp [add]

theorem fresh_empty (fs : Files K) : Fresh fs (fun _ => none) := by
  intro f recs h
  cases h

section

variable [DecidableEq K] {s t : State K} {k : K} {e : Entry}

section

variable (hm : t.mem = update s.mem k (e :: s.mem k)) (hi : t.imm = s.imm) (hss : t.ssts = s.ssts)
include hm hi hss

/-- The history after a write to the active memtable. -/
theorem history_push (l : K) : t.history l = if l = k then e :: s.history l else s.history l := by
  by_cases hl : l = k
  · subst hl
    simp [State.history, hm, hi, hss]
  · simp [State.history, hm, hi, hss, hl]

theorem seen_push_of_ne {l : K} (hl : l ≠ k) : seen t l = seen s l := by
  simp [seen, hm, hi, hss, hl]

theorem linked_push_of_ne {l : K} (hl : l ≠ k) (h : Linked s l) : Linked t l := by
  have hh := history_push hm hi hss l
  rw [if_neg hl] at hh
  simpa [Linked, hh, hm, hl] using h

end

theorem inv_put (hs : Inv s) (k : K) (v : Bytes) :
    Inv { s with mem := update s.mem k (.value v :: s.mem k),
                 lastPut := update s.lastPut k (some v) } := by
  generalize ht : ({ s with mem := update s.mem k (.value v :: s.mem k),
                            lastPut := update s.lastPut k (some v) } : State K) = t
  have hm : t.mem = update s.mem k (.value v :: s.mem k) := by rw [← ht]
  have hi : t.imm = s.imm := by rw [← ht]
  have hss : t.ssts = s.ssts := by rw [← ht]
  have hh := history_push hm hi hss
  have hptrs : ∀ l, ptrs (t.history l) = ptrs (s.history l) := by
    intro l
    rw [hh l]
    split <;> simp
  have hseen : seen t k = some (.value v) := by
    simp [seen, lsmVisible, memVisible, hm, Entry.version, Version.denote]
  have hstep : LsmStep s t fun _ => none := by
    refine ⟨fresh_empty _, by rw [add_empty, ← ht], by rw [← ht], by rw [← ht],
      fun l p hp => .inl (hptrs l ▸ hp), fun l p hp => .inl ?_⟩
    by_cases hl : l = k
    · subst hl
      rw [hseen] at hp
      cases hp
    · rwa [seen_push_of_ne hm hi hss hl] at hp
  refine inv_lsmStep hstep hs ?_ (fun l => hptrs l ▸ hs.distinct l) ?_ (ht ▸ fun _ => .inl) (ht ▸ hs.purged)
  · intro l
    by_cases hl : l = k
    · left
      rw [hh l, if_pos hl]
      trivial
    · exact linked_push_of_ne hm hi hss hl (hs.linked l)
  · intro l
    by_cases hl : l = k
    · subst hl
      have hlast : t.lastPut l = some v := by simp [← ht]
      simpa only [ReadsLast, hseen] using hlast
    · refine readsLast_step hstep hs (by simp [← ht, hl]) (.inl ?_)
      exact seen_push_of_ne hm hi hss hl

end

variable {s : State K}

theorem inv_switchMem (hs : Inv s)
    (hcare : ∀ k b v rest, s.mem k ≠ .blobIndex b :: .value v :: rest) :
    Inv { s with mem := fun _ => [], imm := s.mem :: s.imm } := by
  generalize ht : ({ s with mem := fun _ => [], imm := s.mem :: s.imm } : State K) = t
  have hh : ∀ k, t.history k = s.history k := by
    intro k
    simp [← ht, State.history]
  have hlead : ∀ k, LeadLinked loc (versionsOf (s.history k)) := by
    intro k
    rcases hs.linked k with h | ⟨b, v, rest, hm, -⟩
    · exact h
    · exact absurd hm (hcare k b v rest)
  have hseen : ∀ k, seen t k = seen s k := by
    intro k
    rw [seen_of_leadLinked (hlead k), seen_of_leadLinked (by rw [hh k]; exact hlead k), hh k]
  have hstep : LsmStep s t fun _ => none :=
    ⟨fresh_empty _, by rw [add_empty, ← ht], by rw [← ht], by rw [← ht],
      fun k p hp => .inl (hh k ▸ hp), fun k p hp => .inl (hseen k ▸ hp)⟩
  refine inv_lsmStep hstep hs (fun k => .inl ?_) (fun k => hh k ▸ hs.distinct k) (fun k => ?_)
    (ht ▸ fun _ => .inl) (ht ▸ hs.purged)
  · rw [hh k]
    exact hlead k
  · exact readsLast_step hstep hs (by rw [← ht]) (.inl (hseen k))

/-! ## Merges -/

/-- What a flush and a compaction do to the history of a key. -/
structure Merged (minBlobSize : Nat) (new : Files K) (s t : State K) (k : K)
    (a run c : List Entry) (out : Option Entry) : Prop where
  before : s.history k = a ++ (run ++ c)
  after : t.history k = a ++ (out.toList ++ c)
  builds : Builds minBlobSize new k (mergeEntries run) out
  careful : AllWriteBacks a → InlineOnTop run

section

variable {minBlobSize : Nat} {new : Files K} {s t : State K} {k : K} {a run c : List Entry}
  {out : Option Entry}

variable (h : Merged minBlobSize new s t k a run c out)

include h

theorem merged_linked (hmem : t.mem = s.mem) (hl : Linked s k) :
    Linked t k ∧ SameOrSeparated new k (seen s k) (seen t k) := by
  rcases hl with hl | ⟨b, v, rest, hm, hb⟩
  · rw [h.before] at hl
    obtain ⟨hl', hsame⟩ := leadLinked_builds h.builds h.careful hl
    rw [← h.before] at hl hsame
    rw [← h.after] at hl' hsame
    refine ⟨.inl hl', ?_⟩
    rw [seen_of_leadLinked hl, seen_of_leadLinked hl']
    exact hsame
  · have hm' : t.mem k = .blobIndex b :: .value v :: rest := by rw [hmem]; exact hm
    refine ⟨.inr ⟨b, v, rest, hm', hb⟩, .inl ?_⟩
    rw [seen_of_pending hm hb, seen_of_pending hm' hb]

theorem merged_ptrs {p : BlobPtr} (hp : p ∈ ptrs (t.history k)) :
    p ∈ ptrs (s.history k) ∨ ∃ v, Holds new p k v := by
  rw [h.after, ptrs_append, ptrs_append] at hp
  rw [h.before, ptrs_append, ptrs_append]
  rcases mem_append.mp hp with ha | hp
  · exact .inl (mem_append_left _ ha)
  · rcases mem_append.mp hp with ho | hc
    · rcases ptrs_builds h.builds ho with hr | hn
      · exact .inl (mem_append_right _ (mem_append_left _ hr))
      · exact .inr hn
    · exact .inl (mem_append_right _ (mem_append_right _ hc))

theorem merged_distinct (hs : Inv s) (hf : Fresh s.files new) : (ptrs (t.history k)).Nodup := by
  rw [h.after]
  refine nodup_builds h.builds hf (fun p hp => hs.stored k p ?_) ?_
  · rw [h.before]; exact hp
  · rw [← h.before]; exact hs.distinct k

end

section

variable {minBlobSize : Nat} {new : Files K} {s t : State K} (hs : Inv s) {a run c : K → List Entry}
  {out : K → Option Entry} (hmerged : ∀ k, Merged minBlobSize new s t k (a k) (run k) (c k) (out k))

include hs hmerged

/-- A merge of a run of every key, careful for each of them. -/
theorem inv_merge (hmem : t.mem = s.mem) (hlast : t.lastPut = s.lastPut) (hpurged : t.purged = s.purged)
    (hstep : LsmStep s t new) (hmarked : ∀ d, Marked t d → Marked s d ∨ Dead t d) : Inv t := by
  refine inv_lsmStep hstep hs (fun k => ?_) (fun k => ?_) (fun k => ?_) hmarked
    (by rw [hpurged, hstep.obsolete]; exact hs.purged)
  · exact (merged_linked (hmerged k) hmem (hs.linked k)).1
  · exact merged_distinct (hmerged k) hs hstep.fresh
  · exact readsLast_step hstep hs (by rw [hlast])
      (merged_linked (hmerged k) hmem (hs.linked k)).2

theorem lsmStep_merge (hmem : t.mem = s.mem) (hfresh : Fresh s.files new) (hfiles : t.files = add s.files new)
    (hobs : t.obsolete = s.obsolete) (hjobs : t.jobs = s.jobs) : LsmStep s t new := by
  refine ⟨hfresh, hfiles, hobs, hjobs, fun k p => merged_ptrs (hmerged k), ?_⟩
  intro k p hp
  rcases (merged_linked (hmerged k) hmem (hs.linked k)).2 with heq | ⟨v, q, -, hafter, hq⟩
  · exact .inl (heq ▸ hp)
  · rw [hafter] at hp
    obtain rfl : q = p := by simpa using hp
    exact .inr ⟨v, hq⟩

/-- A record that an input of a compaction references and no output does is not
referenced by anything any more. -/
theorem dead_of_dropped (hstep : LsmStep s t new) {d : UInt64 × UInt64} (hd : Dropped run out d) :
    Dead t d := by
  obtain ⟨⟨k, b, hb, rfl⟩, hout⟩ := hd
  have hrun : b.ptr ∈ ptrs (run k) := mem_ptrs.mpr ⟨b, hb, rfl⟩
  have hmem : b.ptr ∈ ptrs (s.history k) := by
    rw [(hmerged k).before]
    simp [hrun]
  obtain ⟨v, hv⟩ := hs.stored k b.ptr hmem
  refine ⟨file_ne_none_step hstep hv.file_ne_none, ?_, ?_⟩
  · intro l p hp hslot
    obtain ⟨hfile, hidx⟩ := Prod.mk.inj hslot
    -- `p` is a version of another place: it is in an output, or it was there before
    rw [(hmerged l).after, ptrs_append, ptrs_append] at hp
    have hkept : p ∈ ptrs (a l) ∨ p ∈ ptrs (c l) := by
      rcases mem_append.mp hp with ha | hp
      · exact .inl ha
      · rcases mem_append.mp hp with ho | hc
        · obtain ⟨b', hb', rfl⟩ := mem_ptrs.mp ho
          exact absurd hslot (hout l b' (by simpa using hb'))
        · exact .inr hc
    have hold : p ∈ ptrs (s.history l) := by
      rw [(hmerged l).before]
      rcases hkept with h | h <;> simp [h]
    obtain ⟨w, hw⟩ := hs.stored l p hold
    obtain ⟨rfl, rfl, -⟩ := holds_eq_of_index hs.filesOk hw hv hfile hidx
    have hnd := hs.distinct l
    rw [(hmerged l).before, ptrs_append, ptrs_append] at hnd
    obtain ⟨-, hrc, hdisj⟩ := nodup_append.mp hnd
    rcases hkept with h | h
    · exact hdisj _ h _ (mem_append_left _ hrun) rfl
    · exact (nodup_append.mp hrc).2.2 _ hrun _ h rfl
  · intro j job hj kb hkb hslot
    rw [hstep.jobs] at hj
    cases hph : job.phase with
    | copying bitmap => simp [pendingOf, hph] at hkb
    | writing output pending =>
      rw [hph] at hkb
      have hw := (hs.jobs j job hj).writing output pending hph
      obtain ⟨w, q, hnew, -, -⟩ := hw.copied kb hkb
      obtain ⟨hfile, hidx⟩ := Prod.mk.inj hslot
      obtain ⟨hptr, hkey, -⟩ := holds_eq_of_index hs.filesOk hnew hv hfile hidx
      refine hw.unreferenced kb hkb ?_
      rw [hptr, hkey]
      exact hmem

end

variable {minBlobSize : Nat}

theorem inv_flush (hs : Inv s) (keep : Nat) (new : Files K) (out : K → Option Entry)
    (hnew : Fresh s.files new)
    (hout : ∀ k, Builds minBlobSize new k (mergeEntries (flushRun s keep k)) (out k))
    (hcare : ∀ k, AllWriteBacks (s.mem k ++ ((s.imm.take keep).map (· k)).flatten) →
      InlineOnTop (flushRun s keep k)) :
    Inv { s with imm := s.imm.take keep, ssts := fun k => (out k).toList ++ s.ssts k,
                 files := add s.files new } := by
  generalize ht : ({ s with imm := s.imm.take keep, ssts := fun k => (out k).toList ++ s.ssts k,
                            files := add s.files new } : State K) = t
  have hmerged : ∀ k, Merged minBlobSize new s t k
      (s.mem k ++ ((s.imm.take keep).map (· k)).flatten) (flushRun s keep k) (s.ssts k) (out k) := by
    intro k
    refine ⟨?_, ?_, hout k, hcare k⟩
    · have hsplit : (s.imm.map (· k)).flatten
          = ((s.imm.take keep).map (· k)).flatten ++ flushRun s keep k := by
        rw [flushRun, ← flatten_append, ← map_append, take_append_drop]
      simp [State.history, hsplit]
    · simp [State.history, ← ht]
  have hstep : LsmStep s t new :=
    lsmStep_merge hs hmerged (by rw [← ht]) hnew (by rw [← ht]) (by rw [← ht]) (by rw [← ht])
  exact inv_merge hs hmerged (by rw [← ht]) (by rw [← ht]) (by rw [← ht]) hstep (ht ▸ fun _ => .inl)

theorem inv_compact (hs : Inv s) (newer run older : K → List Entry) (new : Files K)
    (out : K → Option Entry) (dropped : List (UInt64 × UInt64))
    (hssts : ∀ k, s.ssts k = newer k ++ (run k ++ older k)) (hnew : Fresh s.files new)
    (hout : ∀ k, Builds minBlobSize new k (mergeEntries (run k)) (out k))
    (hdropped : ∀ d, d ∈ dropped ↔ Dropped run out d)
    (hcare : ∀ k, AllWriteBacks (s.mem k ++ ((s.imm.map (· k)).flatten ++ newer k)) →
      InlineOnTop (run k)) :
    Inv { s with ssts := fun k => newer k ++ ((out k).toList ++ older k), files := add s.files new,
                 notices := s.notices ++ [dropped] } := by
  generalize ht : ({ s with ssts := fun k => newer k ++ ((out k).toList ++ older k),
                            files := add s.files new,
                            notices := s.notices ++ [dropped] } : State K) = t
  have hmerged : ∀ k, Merged minBlobSize new s t k
      (s.mem k ++ ((s.imm.map (· k)).flatten ++ newer k)) (run k) (older k) (out k) := by
    intro k
    refine ⟨?_, ?_, hout k, hcare k⟩
    · simp [State.history, hssts k]
    · simp [State.history, ← ht]
  have hstep : LsmStep s t new :=
    lsmStep_merge hs hmerged (by rw [← ht]) hnew (by rw [← ht]) (by rw [← ht]) (by rw [← ht])
  refine inv_merge hs hmerged (by rw [← ht]) (by rw [← ht]) (by rw [← ht]) hstep ?_
  intro d hd
  have hd' : Marked s d ∨ d ∈ dropped := by
    simpa [Marked, ← ht, or_and_right, exists_or, or_assoc] using hd
  exact hd'.imp_right fun hlast => dead_of_dropped hs hmerged hstep ((hdropped d).mp hlast)

end TitanGC.Offload.LsmSteps
