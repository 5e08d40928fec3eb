import TitanGC.Manifest.Families

/-!
# Replaying a well-formed manifest

A manifest whose records add each file once, delete only files added before, and
delete each once is replayed without an error, and the live files afterwards are
those added and not deleted. Every prefix of such a manifest is one as well.
-/

namespace TitanGC.Manifest.Replay

open VersionEdits Families List

def added (log : List VersionEdit) : List UInt64 :=
  log.flatMap fun e => e.addedFiles.map (·.fileNumber)

def deleted (log : List VersionEdit) : List UInt64 :=
  log.flatMap fun e => e.deletedFiles.map (·.1)

@[simp] theorem added_append (log log' : List VersionEdit) :
    added (log ++ log') = added log ++ added log' := by simp [added]

@[simp] theorem deleted_append (log log' : List VersionEdit) :
    deleted (log ++ log') = deleted log ++ deleted log' := by simp [deleted]

@[simp] theorem added_nil : added [] = [] := rfl

@[simp] theorem deleted_nil : deleted [] = [] := rfl

variable (e : VersionEdit) (log : List VersionEdit)

@[simp] theorem added_cons :
    added (e :: log) = e.addedFiles.map (·.fileNumber) ++ added log := by simp [added]

@[simp] theorem deleted_cons :
    deleted (e :: log) = e.deletedFiles.map (·.1) ++ deleted log := by simp [deleted]

theorem added_take_subset (m : Nat) : ∀ f ∈ added (log.take m), f ∈ added log := by
  intro f hf
  rw [← take_append_drop m log, added_append]
  exact mem_append_left _ hf

theorem deleted_take_subset (m : Nat) : ∀ f ∈ deleted (log.take m), f ∈ deleted log := by
  intro f hf
  rw [← take_append_drop m log, deleted_append]
  exact mem_append_left _ hf

structure WellFormed (cf : UInt32) (log : List VersionEdit) : Prop where
  family : ∀ e ∈ log, e.columnFamilyId = cf ∨ e.addedFiles = [] ∧ e.deletedFiles = []
  addedOnce : (added log).Nodup
  deletedOnce : (deleted log).Nodup
  /-- A file is deleted only after it was added. -/
  paired : ∀ m, ∀ f ∈ deleted (log.take m), f ∈ added (log.take m)
  /-- The next file number never decreases. -/
  numbered : (log.filterMap (·.nextFileNumber)).Pairwise (· ≤ ·)

theorem wellFormed_take {cf : UInt32} {log : List VersionEdit} (h : WellFormed cf log) (m : Nat) :
    WellFormed cf (log.take m) where
  family := fun e he => h.family e (mem_of_mem_take he)
  addedOnce := by
    have := h.addedOnce
    rw [← take_append_drop m log, added_append] at this
    exact this.of_append_left
  deletedOnce := by
    have := h.deletedOnce
    rw [← take_append_drop m log, deleted_append] at this
    exact this.of_append_left
  paired := by
    intro l f hf
    rw [take_take] at hf ⊢
    exact h.paired _ f hf
  numbered := h.numbered.sublist ((take_sublist m log).filterMap _)

/-- Appending a record that adds new files and deletes files added before. -/
theorem wellFormed_append {cf : UInt32} {log : List VersionEdit} {e : VersionEdit}
    (h : WellFormed cf log) (hcf : e.columnFamilyId = cf)
    (haddNodup : (e.addedFiles.map (·.fileNumber)).Nodup)
    (hadd : ∀ f ∈ e.addedFiles.map (·.fileNumber), f ∉ added log)
    (hdelNodup : (e.deletedFiles.map (·.1)).Nodup)
    (hdel : ∀ f ∈ e.deletedFiles.map (·.1), f ∈ added log ∧ f ∉ deleted log)
    (hnext : ∀ e' ∈ log, ∀ n m, e'.nextFileNumber = some n → e.nextFileNumber = some m → n ≤ m) :
    WellFormed cf (log ++ [e]) where
  family := by
    intro x hx
    rcases mem_append.mp hx with hx | hx
    · exact h.family x hx
    · exact .inl (mem_singleton.mp hx ▸ hcf)
  addedOnce := by
    rw [added_append, added_cons, added_nil, append_nil]
    exact nodup_append.mpr ⟨h.addedOnce, haddNodup, fun a ha b hb hab => hadd b hb (hab ▸ ha)⟩
  deletedOnce := by
    rw [deleted_append, deleted_cons, deleted_nil, append_nil]
    exact nodup_append.mpr
      ⟨h.deletedOnce, hdelNodup, fun a ha b hb hab => (hdel b hb).2 (hab ▸ ha)⟩
  paired := by
    intro m f hf
    rcases Nat.lt_or_ge log.length m with hm | hm
    · rw [take_of_length_le (by rw [length_append]; exact hm)] at hf ⊢
      rw [deleted_append, deleted_cons, deleted_nil, append_nil] at hf
      rw [added_append]
      refine mem_append_left _ ?_
      rcases mem_append.mp hf with hf | hf
      · have := h.paired log.length f
        rw [take_length] at this
        exact this hf
      · exact (hdel f hf).1
    · rw [take_append_of_le_length hm] at hf ⊢
      exact h.paired m f hf
  numbered := by
    rw [filterMap_append]
    refine pairwise_append.mpr ⟨h.numbered, ?_, ?_⟩
    · cases hn : e.nextFileNumber <;> simp [hn]
    · intro n hn m hm
      obtain ⟨e', he', hn'⟩ := mem_filterMap.mp hn
      obtain ⟨x, hx, hm'⟩ := mem_filterMap.mp hm
      rw [mem_singleton.mp hx] at hm'
      exact hnext e' he' n m hn' hm'

/-! ## The replay -/

section

variable {cf : UInt32} {log : List VersionEdit} (h : WellFormed cf log)

include h

/-- Records of the other column families are without files. -/
theorem files_of_family (cf' : UInt32) :
    ∀ e ∈ log, ((if e.columnFamilyId = cf' then e.addedFiles else []) =
        if cf = cf' then e.addedFiles else []) ∧
      ((if e.columnFamilyId = cf' then e.deletedFiles else []) =
        if cf = cf' then e.deletedFiles else []) := by
  intro e he
  rcases h.family e he with hcf | ⟨hadd, hdel⟩
  · rw [hcf]
    exact ⟨rfl, rfl⟩
  · rw [hadd, hdel]
    simp

theorem addedTo_eq (cf' : UInt32) :
    (addedTo cf' log).map (·.fileNumber) = if cf = cf' then added log else [] := by
  have hfiles : addedTo cf' log = log.flatMap fun e => if cf = cf' then e.addedFiles else [] :=
    flatMap_congr fun e he => (files_of_family h cf' e he).1
  rw [hfiles, map_flatMap]
  by_cases hcf : cf = cf'
  · simp [hcf, added]
  · simp [hcf]

theorem deletedFrom_eq (cf' : UInt32) :
    (deletedFrom cf' log).map (·.1) = if cf = cf' then deleted log else [] := by
  have hfiles : deletedFrom cf' log = log.flatMap fun e => if cf = cf' then e.deletedFiles else [] :=
    flatMap_congr fun e he => (files_of_family h cf' e he).2
  rw [hfiles, map_flatMap]
  by_cases hcf : cf = cf'
  · simp [hcf, deleted]
  · simp [hcf]

theorem replayable_of_wellFormed (hnext : ∃ e ∈ log, e.nextFileNumber.isSome) : Replayable [cf] log where
  addedOnce cf' := by
    rw [addedTo_eq h]
    split
    · exact h.addedOnce
    · exact nodup_nil
  deletedOnce cf' := by
    rw [deletedFrom_eq h]
    split
    · exact h.deletedOnce
    · exact nodup_nil
  numbered := h.numbered
  paired cf' hcf' d hd := by
    obtain rfl := mem_singleton.mp hcf'
    have hd' := mem_map_of_mem (f := fun x : UInt64 × Nat => x.1) hd
    rw [deletedFrom_eq h, if_pos rfl] at hd'
    rw [addedTo_eq h, if_pos rfl]
    have hp := h.paired log.length d.1
    rw [take_length] at hp
    exact hp hd'
  hasNext := by
    obtain ⟨e, he, hsome⟩ := hnext
    obtain ⟨n, hn⟩ := Option.isSome_iff_exists.mp hsome
    have hmem : n ∈ log.filterMap (·.nextFileNumber) := mem_filterMap.mpr ⟨e, he, hn⟩
    rw [lastNext, getLast?_isSome]
    exact ne_nil_of_mem hmem

/-- The replay of a well-formed manifest ends with the files that were added and
not deleted. -/
theorem recover_live (hnext : ∃ e ∈ log, e.nextFileNumber.isSome) :
    ∃ st next, recover [cf] log = .ok ([(cf, st)], next) ∧
      ∀ f, (st.files f).isSome ↔ f ∈ added log ∧ f ∉ deleted log := by
  have hreplay := replayable_of_wellFormed h hnext
  obtain ⟨next, -, hrecover⟩ := recover_ok hreplay
  refine ⟨replayed log cf, next, hrecover, fun f => ?_⟩
  have hadded := addedTo_eq h cf
  have hdeleted := deletedFrom_eq h cf
  rw [if_pos rfl] at hadded hdeleted
  rw [Option.isSome_iff_exists, ← hadded, ← hdeleted]
  constructor
  · intro ⟨g, hg⟩
    obtain ⟨-, hmem, rfl, hdel⟩ := (replayed_files hreplay.toConsistent cf f g).mp hg
    exact ⟨mem_map_of_mem hmem, hdel⟩
  · intro ⟨hmem, hdel⟩
    obtain ⟨file, hfile, rfl⟩ := mem_map.mp hmem
    exact ⟨⟨file, false⟩, (replayed_files hreplay.toConsistent cf _ _).mpr ⟨rfl, hfile, rfl, hdel⟩⟩

end

end TitanGC.Manifest.Replay
