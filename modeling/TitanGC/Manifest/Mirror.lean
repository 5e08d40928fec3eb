import TitanGC.Lib.Runs
import TitanGC.Manifest.Logging

/-!
# The manifest mirrors the storages

Runs of an open `BlobFileSet`: file numbers are allocated, column families are
opened, dropped and destroyed, edits are logged, obsolete files are purged and
snapshots written, in any order. At every moment the replay of the manifest gives
the files of the storages that are not obsolete, except for files that a failed
`LogAndApply` with a durable record has touched.
-/

namespace TitanGC.Manifest.Mirror

open Format.Coding List Function VersionEdits Families Logging

/-! ## Checking and applying one edit -/

structure Fits (c : CFEditCollector) (st : BlobStorage) : Prop where
  added : ∀ f ∈ c.addedFiles, st.files f.fileNumber = none
  deleted : ∀ d ∈ c.deletedFiles, d.1 ∈ c.addedFiles.map (·.fileNumber) ∨
    ∃ f, st.files d.1 = some f ∧ f.isObsolete = false

theorem forM_ok_inv {α ε : Type} {f : α → Except ε Unit} {xs : List α} (h : xs.forM f = .ok ()) :
    ∀ x ∈ xs, f x = .ok () := by
  induction xs with
  | nil => exact fun x hx => by cases hx
  | cons y ys ih =>
    change (f y >>= fun _ => ys.forM f) = .ok () at h
    obtain ⟨_, hy, h⟩ := bind_ok.mp h
    intro x hx
    rcases mem_cons.mp hx with rfl | hx
    · exact hy
    · exact ih h x hx

variable {c : CFEditCollector} {st : BlobStorage}

theorem fits_of_check (h : c.check st = .ok ()) : Fits c st := by
  rw [CFEditCollector.check] at h
  obtain ⟨_, hadded, h⟩ := bind_ok.mp h
  constructor
  · intro f hf
    have hcheck := forM_ok_inv hadded f hf
    rw [CFEditCollector.checkAdded] at hcheck
    cases hfile : st.files f.fileNumber with
    | none => rfl
    | some g =>
      rw [hfile] at hcheck
      dsimp only at hcheck
      split at hcheck <;> cases hcheck
  · intro d hd
    have hcheck := forM_ok_inv h d hd
    rw [CFEditCollector.checkDeleted] at hcheck
    by_cases hany : c.addedFiles.any (·.fileNumber == d.1) = true
    · exact .inl (any_added.mp hany)
    · rw [if_neg hany] at hcheck
      right
      cases hfile : st.files d.1 with
      | none => rw [hfile] at hcheck; cases hcheck
      | some g =>
        rw [hfile] at hcheck
        dsimp only at hcheck
        cases hob : g.isObsolete with
        | false => exact ⟨g, rfl, hob⟩
        | true => rw [hob] at hcheck; cases hcheck

def applied (c : CFEditCollector) (st : BlobStorage) : BlobStorage where
  files n :=
    if n ∈ c.deletedFiles.map (·.1) then
      if n ∈ c.addedFiles.map (·.fileNumber) then st.files n
      else (st.files n).map fun f => { f with isObsolete := true }
    else match c.addedFiles.find? (·.fileNumber == n) with
      | some file => some ⟨file, false⟩
      | none => st.files n
  obsoleteFiles := st.obsoleteFiles ++
    c.deletedFiles.filter fun d => !c.addedFiles.any (·.fileNumber == d.1)

variable {n : UInt64}

/-- A file of the storage after the batch was there before, or is one that it adds. -/
theorem mem_applied {f : StoredFile} (h : (applied c st).files n = some f) :
    (∃ g, st.files n = some g ∧ f.file = g.file) ∨ f.file ∈ c.addedFiles ∧ f.file.fileNumber = n := by
  simp only [applied] at h
  split at h
  · split at h
    · exact .inl ⟨f, h, rfl⟩
    · obtain ⟨g, hg, rfl⟩ := Option.map_eq_some_iff.mp h
      exact .inl ⟨g, hg, rfl⟩
  · split at h
    · next file hfind =>
        cases h
        exact .inr ⟨mem_of_find?_eq_some hfind, by simpa using find?_some hfind⟩
    · exact .inl ⟨f, h, rfl⟩

/-- The additions of a batch. -/
theorem applyAdded_files (hfits : Fits c st) (hnodup : (c.addedFiles.map (·.fileNumber)).Nodup)
    (n : UInt64) :
    (c.applyAdded st).files n =
      if n ∈ c.deletedFiles.map (·.1) then st.files n
      else match c.addedFiles.find? (·.fileNumber == n) with
        | some file => some ⟨file, false⟩
        | none => st.files n := by
  refine Option.ext fun g => ?_
  rw [CFEditCollector.applyAdded, files_foldl_add _ _ _ hfits.added hnodup]
  simp only [any_eq_false, beq_iff_eq]
  by_cases hdel : n ∈ c.deletedFiles.map (·.1)
  · obtain ⟨d, hd, hdn⟩ := mem_map.mp hdel
    rw [if_pos hdel]
    constructor
    · rintro (h | ⟨file, -, hskip, rfl, -⟩)
      · exact h
      · exact absurd hdn (hskip d hd)
    · exact .inl
  · rw [if_neg hdel]
    have hskip : ∀ d ∈ c.deletedFiles, ¬ d.1 = n := fun d hd heq =>
      hdel (heq ▸ mem_map_of_mem hd)
    cases hfind : c.addedFiles.find? (·.fileNumber == n) with
    | none =>
      rw [find?_eq_none] at hfind
      constructor
      · rintro (h | ⟨file, hfile, -, hnum, -⟩)
        · exact h
        · exact absurd hnum (by simpa using hfind file hfile)
      · exact .inl
    | some file =>
      have hmem := mem_of_find?_eq_some hfind
      have hnum : file.fileNumber = n := by simpa using find?_some hfind
      constructor
      · rintro (h | ⟨file', hfile', -, hnum', rfl⟩)
        · rw [← hnum, hfits.added file hmem] at h
          cases h
        · rw [inj_on_of_nodup_map hnodup hmem hfile' (hnum.trans hnum'.symm)]
      · intro h
        cases h
        exact .inr ⟨file, hmem, hnum ▸ hskip, hnum, rfl⟩

/-- The deletions of a batch, those of its own additions left out. -/
theorem applyDeleted_files (ds : List (UInt64 × Nat)) (st : BlobStorage)
    (hnodup : (ds.map (·.1)).Nodup)
    (hstored : ∀ d ∈ ds, d.1 ∈ c.addedFiles.map (·.fileNumber) ∨ (st.files d.1).isSome) :
    ds.foldlM c.applyDeleted st = .ok
      { files := fun n =>
          if n ∈ ds.map (·.1) ∧ n ∉ c.addedFiles.map (·.fileNumber) then
            (st.files n).map fun f => { f with isObsolete := true }
          else st.files n
        obsoleteFiles := st.obsoleteFiles ++
          ds.filter fun d => !c.addedFiles.any (·.fileNumber == d.1) } := by
  induction ds generalizing st with
  | nil => simp [pure, Except.pure]
  | cons d ds ih =>
    rw [map_cons, nodup_cons] at hnodup
    rw [foldlM_cons, CFEditCollector.applyDeleted]
    by_cases hadd : d.1 ∈ c.addedFiles.map (·.fileNumber)
    · have hany := any_added.mpr hadd
      rw [if_pos hany, ok_bind, ih st hnodup.2 fun x hx => hstored x (mem_cons_of_mem _ hx)]
      congr 2
      · funext n
        by_cases hn : n = d.1
        · rw [if_neg fun h => h.2 (hn ▸ hadd), if_neg fun h => h.2 (hn ▸ hadd)]
        · simp only [map_cons, mem_cons, hn, false_or]
      · rw [filter_cons_of_neg (by simp [hany])]
    · have hany := mt any_added.mp hadd
      obtain ⟨f, hf⟩ := Option.isSome_iff_exists.mp ((hstored d mem_cons_self).resolve_left hadd)
      rw [if_neg hany, BlobStorage.markFileObsolete, hf]
      dsimp only
      rw [ok_bind, ih _ hnodup.2]
      · congr 2
        · funext n
          by_cases hn : n = d.1
          · subst hn
            simp [hadd, hnodup.1, hf]
          · simp only [map_cons, mem_cons, hn, false_or, update_of_ne hn]
        · rw [filter_cons_of_pos (by simpa using hany)]
          simp
      · intro x hx
        refine (hstored x (mem_cons_of_mem _ hx)).imp_right fun hsome => ?_
        by_cases hxd : x.1 = d.1
        · simp [hxd]
        · simpa [update_of_ne hxd] using hsome

theorem apply_eq (hfits : Fits c st) (hadded : (c.addedFiles.map (·.fileNumber)).Nodup)
    (hdeleted : (c.deletedFiles.map (·.1)).Nodup) : c.apply st = .ok (applied c st) := by
  have hfiles := applyAdded_files hfits hadded
  rw [CFEditCollector.apply, applyDeleted_files _ _ hdeleted]
  · congr 2
    · funext n
      rw [hfiles n]
      by_cases hdel : n ∈ c.deletedFiles.map (·.1)
      · simp only [hdel, true_and, if_pos]
        by_cases hadd : n ∈ c.addedFiles.map (·.fileNumber)
        · rw [if_neg (not_not_intro hadd), if_pos hadd]
        · rw [if_pos hadd, if_neg hadd]
      · rw [if_neg fun h => hdel h.1, if_neg hdel, if_neg hdel]
    · rw [obsoleteFiles_applyAdded]
  · intro d hd
    refine (hfits.deleted d hd).imp_right fun ⟨f, hf, _⟩ => ?_
    rw [hfiles, if_pos (mem_map_of_mem hd), hf]
    rfl

theorem applied_empty (hadded : c.addedFiles = []) (hdeleted : c.deletedFiles = [])
    (st : BlobStorage) : applied c st = st := by
  simp [applied, hadded, hdeleted]

/-! ## Runs -/

def numbers (e : VersionEdit) : List UInt64 :=
  e.addedFiles.map (·.fileNumber) ++ e.deletedFiles.map (·.1)

structure State where
  set : OpenSet
  /-- Ghost: numbers that `NewFileNumber` gave out and no accepted edit has added. -/
  unused : List UInt64 := []
  /-- Ghost: edits whose call failed with a durable record, since the last snapshot. -/
  failed : List VersionEdit := []

inductive Op where
  | newFileNumber
  | addColumnFamilies (ids : List UInt32)
  | logAndApply (w : Write) (edit : VersionEdit)
  | dropColumnFamily (w : Write) (cf : UInt32) (obsoleteSequence : Nat)
  | maybeDestroyColumnFamily (cf : UInt32)
  | getObsoleteFiles (oldestSequence : Nat)
  | openManifest

/-- The ghost fields after a call of `LogAndApply`. -/
def State.after (s : State) (edit : VersionEdit) (r : Option Status × OpenSet) : State :=
  match r.1 with
  | none => { s with set := r.2, unused := s.unused.filter (· ∉ edit.addedFiles.map (·.fileNumber)) }
  | some _ =>
    { s with
      set := r.2
      failed := if r.2.manifest.length = s.set.manifest.length then s.failed
        else s.failed ++ [edit] }

section

variable (iterate : BlobStorage → List (UInt64 × StoredFile))

def exec (s : State) : Op → State
  | .newFileNumber =>
    { s with set := s.set.newFileNumber.2, unused := s.set.newFileNumber.1 :: s.unused }
  | .addColumnFamilies ids => { s with set := s.set.addColumnFamilies ids }
  | .logAndApply w edit => s.after edit (s.set.logAndApply w edit)
  | .dropColumnFamily w cf obsoleteSequence =>
    match s.set.columnFamilies.find? (·.1 == cf) with
    | none => s
    | some (_, st) =>
      s.after (OpenSet.dropEdit cf obsoleteSequence (iterate st))
        (s.set.dropColumnFamily iterate w cf obsoleteSequence)
  | .maybeDestroyColumnFamily cf => { s with set := (s.set.maybeDestroyColumnFamily cf).2 }
  | .getObsoleteFiles oldestSequence => { s with set := (s.set.getObsoleteFiles oldestSequence).2 }
  | .openManifest => { s with set := s.set.openManifest iterate, failed := [] }

def opened (ids : List UInt32) : State where
  set := (({} : OpenSet).addColumnFamilies ids).openManifest iterate

def run (ids : List UInt32) (ops : List Op) : State := ops.foldl (exec iterate) (opened iterate ids)

end

/-- The files that an edit adds have numbers from `NewFileNumber`, one for each,
and keys whose length fits 32 bits; the counter does not wrap around. -/
def Allocated (s : State) : Op → Prop
  | .newFileNumber | .openManifest => s.set.nextFileNumber.toNat + 1 < 2 ^ 64
  | .logAndApply _ edit => edit.KeysFit ∧ ∀ f ∈ edit.addedFiles, f.fileNumber ∈ s.unused
  | _ => True

/-- Edits that name files are for open column families, and a column family that
is opened has no file left in the manifest. -/
def KnownFamily (s : State) : Op → Prop
  | .logAndApply _ edit =>
    numbers edit = [] ∨ edit.columnFamilyId ∈ s.set.columnFamilies.map (·.1)
  | .addColumnFamilies ids =>
    ∀ cf ∈ ids, cf ∉ s.set.columnFamilies.map (·.1) →
      ∀ log, s.set.manifest.mapM VersionEdit.decodeFrom = .ok log →
        ∀ f ∈ addedTo cf log, f.fileNumber ∈ (deletedFrom cf log).map (·.1)
  | _ => True

def Untouched (failed : List VersionEdit) (n : UInt64) : Prop := ∀ e ∈ failed, n ∉ numbers e

/-- No edit names a file that a failed edit with a durable record names. -/
def NotRepeated (s : State) : Op → Prop
  | .logAndApply _ edit => ∀ n ∈ numbers edit, Untouched s.failed n
  | .dropColumnFamily _ cf _ =>
    ∀ f ∈ s.set.columnFamilies, f.1 = cf →
      ∀ n g, f.2.files n = some g → g.isObsolete = false → Untouched s.failed n
  | _ => True

/-! ## The invariant -/

structure StorageOk (next : UInt64) (unused : List UInt64) (st : BlobStorage) : Prop where
  number : ∀ n f, st.files n = some f →
    f.file.fileNumber = n ∧ n < next ∧ n ∉ unused ∧ f.file.KeysFit
  obsolete : ∀ d ∈ st.obsoleteFiles, ∃ f, st.files d.1 = some f ∧ f.isObsolete = true
  obsoleteOnce : (st.obsoleteFiles.map (·.1)).Nodup

/-- The replay of the log gives the live files of the storage, failed edits apart. -/
def Agrees (failed log : List VersionEdit) (cf : UInt32) (st : BlobStorage) : Prop :=
  ∀ n, Untouched failed n → ∀ f,
    (replayed log cf).files n = some f ↔ st.files n = some f ∧ f.isObsolete = false

structure Mirrors (s : State) (log : List VersionEdit) : Prop where
  records : s.set.manifest.mapM VersionEdit.decodeFrom = .ok log
  consistent : Consistent log
  paired : ∀ cf, Paired (gathered log cf)
  next : ∃ n, lastNext log = some n ∧ n ≤ s.set.nextFileNumber ∧
    ∀ cf, ∀ f ∈ addedTo cf log, f.fileNumber < n
  unused_lt : ∀ n ∈ s.unused, n < s.set.nextFileNumber
  unused_new : ∀ n ∈ s.unused, Untouched s.failed n → ∀ cf, n ∉ (addedTo cf log).map (·.fileNumber)
  familiesOnce : (s.set.columnFamilies.map (·.1)).Nodup
  storage : ∀ f ∈ s.set.columnFamilies, StorageOk s.set.nextFileNumber s.unused f.2
  agrees : ∀ f ∈ s.set.columnFamilies, Agrees s.failed log f.1 f.2

/-! ### A logged edit -/

@[simp] theorem persistent_addedFiles (e : VersionEdit) : e.persistent.addedFiles = e.addedFiles := rfl

@[simp] theorem persistent_deletedFiles (e : VersionEdit) :
    e.persistent.deletedFiles.map (·.1) = e.deletedFiles.map (·.1) := by
  simp [VersionEdit.persistent]

/-- An edit with the next file number that `LogAndApply` puts into it. -/
def numbered (s : OpenSet) (edit : VersionEdit) : VersionEdit :=
  { edit with nextFileNumber := some s.nextFileNumber }

theorem gathered_numbered (s : OpenSet) (edit : VersionEdit) (cf : UInt32) :
    gathered [numbered s edit] cf =
      if edit.columnFamilyId = cf then ⟨edit.addedFiles, edit.deletedFiles⟩ else {} := by
  by_cases hcf : edit.columnFamilyId = cf
  · simp [gathered, addedTo_singleton, deletedFrom_singleton, numbered, hcf]
  · simp [gathered, addedTo_singleton, deletedFrom_singleton, numbered, hcf]

variable {e : VersionEdit} {collector : EditCollector}

theorem checked_ok {s : OpenSet} (h : s.checked e = .ok collector) :
    ∃ c, Collects [e] c ∧ collector = { c with isSealed := true } ∧
      ∀ f ∈ s.columnFamilies, Fits (gathered [e] f.1) f.2 := by
  rw [OpenSet.checked] at h
  by_cases hown : Consistent [e]
  · obtain ⟨c, hadd, hc⟩ := addEdit_ok (e := e) collects_nil hown
    rw [hadd, ok_bind, EditCollector.checkEdits] at h
    obtain ⟨_, hforM, h⟩ := bind_ok.mp h
    cases h
    refine ⟨c, hc, rfl, fun f hf => ?_⟩
    have hcheck := forM_ok_inv hforM f hf
    rw [hc.families] at hcheck
    exact fits_of_check hcheck
  · obtain ⟨status, herror, -⟩ := addEdit_error (e := e) collects_nil hown
    rw [herror, error_bind] at h
    cases h

/-- An edit that passed the checks is applied. -/
theorem apply_checked {s : OpenSet} (h : s.checked e = .ok collector) :
    collector.apply s.columnFamilies
      = .ok (s.columnFamilies.map fun f => (f.1, applied (gathered [e] f.1) f.2)) := by
  obtain ⟨c, hc, rfl, hfits⟩ := checked_ok h
  rw [EditCollector.apply, if_pos rfl]
  refine mapM_ok fun f hf => ?_
  dsimp only
  rw [hc.families, apply_eq (hfits f hf) (hc.consistent.addedOnce f.1) (hc.consistent.deletedOnce f.1),
    ok_bind]
  rfl

/-- A write that fails is reported. -/
theorem logAndApply_failed (s : OpenSet) {w : Write} (hw : w ≠ .ok) (edit : VersionEdit) :
    ∃ status, (s.logAndApply w edit).1 = some status := by
  rw [OpenSet.logAndApply]
  dsimp only
  cases s.checked { edit with nextFileNumber := some s.nextFileNumber } with
  | error status => exact ⟨status, rfl⟩
  | ok collector =>
    cases w with
    | ok => exact absurd rfl hw
    | failed status durable => exact ⟨status, rfl⟩

/-- What a call of `LogAndApply` does: it refuses the edit and changes nothing, or
the edit fits and its record is written, and applied if the write succeeds. -/
theorem logAndApply_cases (s : OpenSet) (w : Write) (edit : VersionEdit) :
    (∃ status, s.logAndApply w edit = (some status, s)) ∨
      Consistent [numbered s edit] ∧
      (∀ f ∈ s.columnFamilies, Fits (gathered [numbered s edit] f.1) f.2) ∧
      ((∃ status, s.logAndApply w edit = (some status, s.addRecord (numbered s edit))) ∧ w ≠ .ok ∨
        s.logAndApply w edit = (none, { s.addRecord (numbered s edit) with
          columnFamilies := s.columnFamilies.map fun f =>
            (f.1, applied (gathered [numbered s edit] f.1) f.2) })) := by
  rw [OpenSet.logAndApply]
  dsimp only
  rw [← numbered]
  generalize numbered s edit = e
  cases hchecked : s.checked e with
  | error status => exact .inl ⟨status, rfl⟩
  | ok collector =>
    obtain ⟨c, hc, -, hfits⟩ := checked_ok hchecked
    cases w with
    | failed status durable =>
      cases durable with
      | false => exact .inl ⟨status, rfl⟩
      | true => exact .inr ⟨hc.consistent, hfits, .inl ⟨⟨status, rfl⟩, by simp⟩⟩
    | ok =>
      refine .inr ⟨hc.consistent, hfits, .inr ?_⟩
      dsimp only
      rw [apply_checked hchecked]

section

variable {next : UInt64} {unused unused' : List UInt64} {st : BlobStorage} {c : CFEditCollector}

/-- A batch that fits keeps a storage in order. -/
theorem storageOk_applied (h : StorageOk next unused st) (hfits : Fits c st)
    (hdeleted : (c.deletedFiles.map (·.1)).Nodup)
    (hadd : ∀ f ∈ c.addedFiles, f.fileNumber < next ∧ f.KeysFit)
    (hunused : ∀ n ∈ unused', n ∈ unused ∧ n ∉ c.addedFiles.map (·.fileNumber)) :
    StorageOk next unused' (applied c st) where
  number n f hf := by
    rcases mem_applied hf with ⟨g, hg, hsame⟩ | ⟨hmem, rfl⟩
    · obtain ⟨hnum, hlt, hnot, hkeys⟩ := h.number n g hg
      rw [hsame]
      exact ⟨hnum, hlt, fun hn => hnot (hunused n hn).1, hkeys⟩
    · exact ⟨rfl, (hadd f.file hmem).1, fun hn => (hunused _ hn).2 (mem_map_of_mem hmem),
        (hadd f.file hmem).2⟩
  obsolete d hd := by
    simp only [applied]
    rcases mem_append.mp hd with hd | hd
    · obtain ⟨f, hf, hob⟩ := h.obsolete d hd
      rw [hf]
      split
      · split
        · exact ⟨f, rfl, hob⟩
        · exact ⟨_, rfl, rfl⟩
      · split
        · next file hfind =>
            have hnum : file.fileNumber = d.1 := by simpa using find?_some hfind
            have hnone := hfits.added file (mem_of_find?_eq_some hfind)
            rw [hnum, hf] at hnone
            cases hnone
        · exact ⟨f, rfl, hob⟩
    · obtain ⟨hmem, hnew⟩ := mem_filter.mp hd
      have hnot : d.1 ∉ c.addedFiles.map (·.fileNumber) := by
        intro hadd
        rw [any_added.mpr hadd] at hnew
        cases hnew
      obtain ⟨f, hf, -⟩ := (hfits.deleted d hmem).resolve_left hnot
      rw [if_pos (mem_map_of_mem hmem), if_neg hnot, hf]
      exact ⟨_, rfl, rfl⟩
  obsoleteOnce := by
    rw [applied, map_append]
    refine nodup_append.mpr ⟨h.obsoleteOnce, hdeleted.sublist (filter_sublist.map _), ?_⟩
    intro a ha b hb hab
    obtain ⟨d, hd, rfl⟩ := mem_map.mp ha
    obtain ⟨d', hd', rfl⟩ := mem_map.mp hb
    obtain ⟨hmem, hnew⟩ := mem_filter.mp hd'
    obtain ⟨f, hf, hob⟩ := h.obsolete d hd
    rcases hfits.deleted d' hmem with hadd | ⟨g, hg, hlive⟩
    · rw [any_added.mpr hadd] at hnew
      cases hnew
    · rw [← hab, hf] at hg
      cases hg
      rw [hob] at hlive
      cases hlive

end

section

variable {s : State} {log : List VersionEdit} (h : Mirrors s log) {edit : VersionEdit}
include h

/-- A number that is unused and that no failed edit names is new to the log. -/
theorem number_new (hn : n ∈ s.unused) (hu : Untouched s.failed n) (cf : UInt32) :
    n ∉ (addedTo cf log).map (·.fileNumber) ∧ n ∉ (deletedFrom cf log).map (·.1) := by
  have hadded := h.unused_new n hn hu cf
  refine ⟨hadded, fun hdel => ?_⟩
  obtain ⟨d, hd, rfl⟩ := mem_map.mp hdel
  exact hadded (h.paired cf d hd)

/-- What an edit that fits deletes is in the log, unless the edit adds it itself. -/
theorem deletes_logged
    (hknown : numbers edit = [] ∨ edit.columnFamilyId ∈ s.set.columnFamilies.map (·.1))
    (hrepeat : ∀ n ∈ numbers edit, Untouched s.failed n)
    (hfits : ∀ f ∈ s.set.columnFamilies, Fits (gathered [numbered s.set edit] f.1) f.2) :
    ∀ d ∈ edit.deletedFiles, d.1 ∈ edit.addedFiles.map (·.fileNumber) ∨
      ∃ f, (replayed log edit.columnFamilyId).files d.1 = some f := by
  intro d hd
  have hnumber : d.1 ∈ numbers edit := mem_append_right _ (mem_map_of_mem hd)
  rcases hknown with hnone | hopen
  · rw [hnone] at hnumber
    cases hnumber
  · obtain ⟨f, hf, hcf⟩ := mem_map.mp hopen
    have hfit := hfits f hf
    rw [gathered_numbered, if_pos hcf.symm] at hfit
    refine (hfit.deleted d hd).imp_right fun ⟨g, hg, hlive⟩ => ⟨g, ?_⟩
    rw [← hcf]
    exact (h.agrees f hf d.1 (hrepeat d.1 hnumber) g).mpr ⟨hg, hlive⟩

theorem paired_logged
    (hdel : ∀ d ∈ edit.deletedFiles, d.1 ∈ edit.addedFiles.map (·.fileNumber) ∨
      ∃ f, (replayed log edit.columnFamilyId).files d.1 = some f) (cf : UInt32) :
    Paired (gathered (log ++ [(numbered s.set edit).persistent]) cf) := by
  intro d hd
  simp only [gathered, addedTo_append, deletedFrom_append, map_append] at hd ⊢
  rcases mem_append.mp hd with hd | hd
  · exact mem_append_left _ (h.paired cf d hd)
  · rw [deletedFrom_singleton] at hd
    by_cases hcf : (numbered s.set edit).persistent.columnFamilyId = cf
    · rw [if_pos hcf] at hd
      obtain ⟨d', hd', heq⟩ := mem_map.mp hd
      rw [← heq, addedTo_singleton, if_pos hcf]
      rcases hdel d' hd' with hin | ⟨f, hf⟩
      · exact mem_append_right _ hin
      · obtain ⟨-, hmem, hnum, -⟩ := (replayed_files h.consistent _ _ _).mp hf
        refine mem_append_left _ ?_
        rw [← hcf, ← hnum]
        exact mem_map_of_mem hmem
    · rw [if_neg hcf] at hd
      cases hd

theorem records_logged (hkeys : edit.KeysFit) :
    (s.set.addRecord (numbered s.set edit)).manifest.mapM VersionEdit.decodeFrom
      = .ok (log ++ [(numbered s.set edit).persistent]) := by
  have hdecode : VersionEdit.decodeFrom (numbered s.set edit).encodeTo
      = .ok (numbered s.set edit).persistent := VersionEdit.decodeFrom_encodeTo hkeys
  rw [OpenSet.addRecord, mapM_append, h.records, ok_bind, mapM_cons, hdecode]
  rfl

/-- What an edit does not name is replayed as before. -/
theorem replayed_other (hnew : Consistent (log ++ [(numbered s.set edit).persistent]))
    (hn : n ∉ numbers edit) (cf : UInt32) (f : StoredFile) :
    (replayed (log ++ [(numbered s.set edit).persistent]) cf).files n = some f ↔
      (replayed log cf).files n = some f := by
  have hadded : ∀ g ∈ addedTo cf [(numbered s.set edit).persistent], g.fileNumber ≠ n := by
    exact fun g hg heq =>
      hn (mem_append_left _ (heq ▸ mem_map_of_mem (mem_of_mem_addedTo hg)))
  have hdeleted : n ∉ (deletedFrom cf [(numbered s.set edit).persistent]).map (·.1) := by
    intro hmem
    rw [deletedFrom_singleton] at hmem
    split at hmem
    · rw [persistent_deletedFiles] at hmem
      exact hn (mem_append_right _ hmem)
    · cases hmem
  rw [replayed_files hnew, replayed_files h.consistent, addedTo_append, deletedFrom_append,
    map_append, mem_append, mem_append]
  constructor
  · rintro ⟨hob, hmem, hnum, hdel⟩
    exact ⟨hob, hmem.resolve_right fun hg => hadded _ hg hnum, hnum, fun hin => hdel (.inl hin)⟩
  · rintro ⟨hob, hmem, hnum, hdel⟩
    exact ⟨hob, .inl hmem, hnum, fun hin => hin.elim hdel hdeleted⟩

variable (hadd : ∀ f ∈ edit.addedFiles, f.fileNumber ∈ s.unused ∧ Untouched s.failed f.fileNumber)

include hadd

theorem next_logged :
    ∃ n, lastNext (log ++ [(numbered s.set edit).persistent]) = some n ∧ n ≤ s.set.nextFileNumber ∧
      ∀ cf, ∀ f ∈ addedTo cf (log ++ [(numbered s.set edit).persistent]), f.fileNumber < n := by
  refine ⟨s.set.nextFileNumber, by rw [lastNext_append_singleton]; rfl, UInt64.le_refl _, ?_⟩
  intro cf f hf
  rw [addedTo_append] at hf
  rcases mem_append.mp hf with hf | hf
  · obtain ⟨n, -, hle, hlt⟩ := h.next
    exact UInt64.lt_of_lt_of_le (hlt cf f hf) hle
  · exact h.unused_lt _ (hadd f (mem_of_mem_addedTo hf)).1

/-- The replay follows a batch that is applied. -/
theorem agrees_applied (hconsistent : Consistent (log ++ [(numbered s.set edit).persistent]))
    {f : UInt32 × BlobStorage} (hf : f ∈ s.set.columnFamilies)
    (hfits : Fits (gathered [numbered s.set edit] f.1) f.2) :
    Agrees s.failed (log ++ [(numbered s.set edit).persistent]) f.1
      (applied (gathered [numbered s.set edit] f.1) f.2) := by
  intro n hn g
  rw [gathered_numbered] at hfits ⊢
  by_cases hcf : edit.columnFamilyId = f.1
  · rw [if_pos hcf] at hfits ⊢
    have hcf' : (numbered s.set edit).persistent.columnFamilyId = f.1 := hcf
    have honce := hconsistent.addedOnce f.1
    rw [replayed_files hconsistent]
    rw [addedTo_append, addedTo_singleton, if_pos hcf'] at honce ⊢
    rw [deletedFrom_append, deletedFrom_singleton, if_pos hcf', map_append,
      persistent_deletedFiles]
    simp only [applied, persistent_addedFiles] at honce ⊢
    by_cases hdel : n ∈ edit.deletedFiles.map (·.1)
    · -- deleted by this edit: gone in the replay, and absent or obsolete in the storage
      rw [if_pos hdel]
      constructor
      · rintro ⟨-, -, -, hnot⟩
        exact absurd (mem_append_right _ hdel) hnot
      · rintro ⟨hfile, hlive⟩
        split at hfile
        · next hin =>
            obtain ⟨file, hfile', rfl⟩ := mem_map.mp hin
            rw [hfits.added file hfile'] at hfile
            cases hfile
        · obtain ⟨g', -, rfl⟩ := Option.map_eq_some_iff.mp hfile
          cases hlive
    · rw [if_neg hdel]
      cases hfind : edit.addedFiles.find? (·.fileNumber == n) with
      | some file =>
        have hmem := mem_of_find?_eq_some hfind
        have hnum : file.fileNumber = n := by simpa using find?_some hfind
        have hnew := number_new h (hadd file hmem).1 (hadd file hmem).2 f.1
        rw [hnum] at hnew
        constructor
        · rintro ⟨hob, hg, hgnum, -⟩
          have hsame : g.file = file := inj_on_of_nodup_map honce hg
            (mem_append_right _ hmem) (hgnum.trans hnum.symm)
          refine ⟨?_, hob⟩
          cases g
          cases hob
          cases hsame
          rfl
        · rintro ⟨hg, -⟩
          cases hg
          exact ⟨rfl, mem_append_right _ hmem, hnum, fun hin =>
            (mem_append.mp hin).elim hnew.2 hdel⟩
      | none =>
        rw [find?_eq_none] at hfind
        have hother : ∀ file ∈ edit.addedFiles, file.fileNumber ≠ n :=
          fun file hfile => by simpa using hfind file hfile
        rw [← h.agrees f hf n hn g, replayed_files h.consistent]
        constructor
        · rintro ⟨hob, hg, hgnum, hnot⟩
          exact ⟨hob, (mem_append.mp hg).resolve_right fun hin => hother _ hin hgnum, hgnum,
            fun hin => hnot (mem_append_left _ hin)⟩
        · rintro ⟨hob, hg, hgnum, hnot⟩
          exact ⟨hob, mem_append_left _ hg, hgnum, fun hin =>
            (mem_append.mp hin).elim hnot hdel⟩
  · have hcf' : ¬ (numbered s.set edit).persistent.columnFamilyId = f.1 := hcf
    rw [if_neg hcf, applied_empty rfl rfl, ← h.agrees f hf n hn g, replayed_files hconsistent,
      replayed_files h.consistent, addedTo_append, deletedFrom_append, addedTo_singleton,
      deletedFrom_singleton, if_neg hcf', if_neg hcf', append_nil, append_nil]

variable (hown : Consistent [numbered s.set edit])
  (hdel : ∀ d ∈ edit.deletedFiles, d.1 ∈ edit.addedFiles.map (·.fileNumber) ∨
    ∃ f, (replayed log edit.columnFamilyId).files d.1 = some f)

include hown hdel

theorem consistent_logged : Consistent (log ++ [(numbered s.set edit).persistent]) := by
  have hadded := hown.addedOnce (numbered s.set edit).columnFamilyId
  have hdeleted := hown.deletedOnce (numbered s.set edit).columnFamilyId
  rw [addedTo_singleton, if_pos rfl] at hadded
  rw [deletedFrom_singleton, if_pos rfl] at hdeleted
  refine consistent_append h.consistent ?_ ?_ ?_
  · rw [map_append]
    refine nodup_append.mpr ⟨h.consistent.addedOnce _, hadded, fun a ha b hb hab => ?_⟩
    obtain ⟨f, hf, rfl⟩ := mem_map.mp hb
    exact (number_new h (hadd f hf).1 (hadd f hf).2 _).1 (hab ▸ ha)
  · rw [map_append, persistent_deletedFiles]
    refine nodup_append.mpr ⟨h.consistent.deletedOnce _, hdeleted, fun a ha b hb hab => ?_⟩
    obtain ⟨d, hd, rfl⟩ := mem_map.mp hb
    rw [hab] at ha
    rcases hdel d hd with hin | ⟨f, hf⟩
    · obtain ⟨f, hf, heq⟩ := mem_map.mp hin
      rw [← heq] at ha
      exact (number_new h (hadd f hf).1 (hadd f hf).2 _).2 ha
    · exact ((replayed_files h.consistent _ _ _).mp hf).2.2.2 ha
  · intro n hn
    cases hn
    obtain ⟨m, hm, hle, -⟩ := h.next
    rw [hm]
    exact hle

/-- A record that is durable although its call failed. -/
theorem mirrors_failed (hkeys : edit.KeysFit) :
    Mirrors { s with set := s.set.addRecord (numbered s.set edit), failed := s.failed ++ [edit] }
      (log ++ [(numbered s.set edit).persistent]) := by
  have hconsistent := consistent_logged h hadd hown hdel
  have huntouched : ∀ n, Untouched (s.failed ++ [edit]) n → Untouched s.failed n ∧ n ∉ numbers edit :=
    fun n hn => ⟨fun e he => hn e (mem_append_left _ he), hn edit (by simp)⟩
  exact {
    records := records_logged h hkeys
    consistent := hconsistent
    paired := paired_logged h hdel
    next := next_logged h hadd
    unused_lt := h.unused_lt
    unused_new := by
      intro n hn hu cf hmem
      rw [addedTo_append, map_append] at hmem
      rcases mem_append.mp hmem with hmem | hmem
      · exact h.unused_new n hn (huntouched n hu).1 cf hmem
      · obtain ⟨f, hf, rfl⟩ := mem_map.mp hmem
        exact (huntouched _ hu).2 (mem_append_left _ (mem_map_of_mem (mem_of_mem_addedTo hf)))
    familiesOnce := h.familiesOnce
    storage := h.storage
    agrees := fun f hf n hn g =>
      (replayed_other h hconsistent (huntouched n hn).2 f.1 g).trans
        (h.agrees f hf n (huntouched n hn).1 g) }

/-- An edit that is logged and applied. -/
theorem mirrors_applied (hkeys : edit.KeysFit)
    (hfits : ∀ f ∈ s.set.columnFamilies, Fits (gathered [numbered s.set edit] f.1) f.2) :
    Mirrors
      { s with
        set := { s.set.addRecord (numbered s.set edit) with
          columnFamilies := s.set.columnFamilies.map fun f =>
            (f.1, applied (gathered [numbered s.set edit] f.1) f.2) }
        unused := s.unused.filter (· ∉ edit.addedFiles.map (·.fileNumber)) }
      (log ++ [(numbered s.set edit).persistent]) := by
  have hconsistent := consistent_logged h hadd hown hdel
  have hunused : ∀ n, n ∈ s.unused.filter (· ∉ edit.addedFiles.map (·.fileNumber)) →
      n ∈ s.unused ∧ n ∉ edit.addedFiles.map (·.fileNumber) := by
    intro n hn
    simpa using hn
  have hgathered : ∀ cf, ∀ g ∈ (gathered [numbered s.set edit] cf).addedFiles, g ∈ edit.addedFiles :=
    fun _ _ => mem_of_mem_addedTo
  exact {
    records := records_logged h hkeys
    consistent := hconsistent
    paired := paired_logged h hdel
    next := next_logged h hadd
    unused_lt := fun n hn => h.unused_lt n (hunused n hn).1
    unused_new := by
      intro n hn hu cf hmem
      rw [addedTo_append, map_append] at hmem
      rcases mem_append.mp hmem with hmem | hmem
      · exact h.unused_new n (hunused n hn).1 hu cf hmem
      · obtain ⟨f, hf, rfl⟩ := mem_map.mp hmem
        exact (hunused _ hn).2 (mem_map_of_mem (mem_of_mem_addedTo hf))
    familiesOnce := by simpa [comp_def] using h.familiesOnce
    storage := by
      intro f' hf'
      obtain ⟨f, hf, rfl⟩ := mem_map.mp hf'
      refine storageOk_applied (h.storage f hf) (hfits f hf) (hown.deletedOnce f.1) ?_ ?_
      · exact fun g hg => ⟨h.unused_lt _ (hadd g (hgathered f.1 g hg)).1, hkeys g (hgathered f.1 g hg)⟩
      · intro n hn
        refine ⟨(hunused n hn).1, fun hin => (hunused n hn).2 ?_⟩
        obtain ⟨g, hg, rfl⟩ := mem_map.mp hin
        exact mem_map_of_mem (hgathered f.1 g hg)
    agrees := by
      intro f' hf'
      obtain ⟨f, hf, rfl⟩ := mem_map.mp hf'
      exact agrees_applied h hadd hconsistent hf (hfits f hf) }

end

end TitanGC.Manifest.Mirror
