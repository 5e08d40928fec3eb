import TitanGC.Accounting.StorageIndexes
import TitanGC.Scheduling.Picker

/-!
# What a call of `LogAndApply` changes in memory

`LogAndApply` collects and checks an edit, appends its record to the manifest, syncs it,
and only then goes over the storage of the edit's column family. A file that is not found
there would end it half way, with the files before it already changed. The order in which
the hash maps of the collector are iterated is a parameter, and so is what `ComputeGCScore`
makes of the files.
-/

namespace TitanGC.Accounting.AllOrNothing

open Lib.ByteCoding List Function Format.Coding Manifest.VersionEdits Manifest.Logging
open Manifest.Mirror Tracking StorageIndexes
open Scheduling.Picker (GCScore)

/-! ## The model -/

/-- The order in which `added_files_` and `deleted_files_` are iterated. -/
structure Order (e : Edit) where
  added : List TrackedFile
  deleted : List (UInt64 × Nat)
  addedPerm : added.Perm e.addedFiles
  deletedPerm : deleted.Perm e.deletedFiles

structure ScoredStorage (compare : Bytes → Bytes → Ordering) (R : Type) where
  indexed : IndexedStorage compare
  gcScore : List (GCScore R) := []

structure State (compare : Bytes → Bytes → Ordering) (R : Type) where
  storage : UInt32 → ScoredStorage compare R
  nextFileNumber : UInt64 := 1
  manifest : List Bytes := []

section

variable {compare : Bytes → Bytes → Ordering} {R : Type}

/-- The second loop of `Apply`, with the status it returns; the storage is as far as it came. -/
def deleteFiles (skip : UInt64 → Bool) :
    List (UInt64 × Nat) → IndexedStorage compare → Option (Option Status × IndexedStorage compare)
  | [], st => some (none, st)
  | d :: rest, st =>
    if skip d.1 then deleteFiles skip rest st
    else
      match st.files.find d.1 with
      | none => some (some ⟨.notFound, "Invalid file number " ++ toString d.1⟩, st)
      | some _ => (st.markFileObsolete d.1 d.2).bind (deleteFiles skip rest)

def addFiles [Std.TransCmp compare] (skip : UInt64 → Bool) (added : List TrackedFile)
    (st : IndexedStorage compare) : Option (IndexedStorage compare) :=
  added.foldlM (fun st f => if skip (number f) then some st else st.addBlobFile f) st

/-- `CFEditCollector::Apply`; `none` is a level out of bounds. -/
def ScoredStorage.apply [Std.TransCmp compare] (st : ScoredStorage compare R)
    (computeGCScore : IndexedStorage compare → List (GCScore R)) {e : Edit} (o : Order e) :
    Option (Option Status × ScoredStorage compare R) := do
  let added ← addFiles (fun n => e.deletedFiles.any (·.1 == n)) o.added st.indexed
  match ← deleteFiles (fun n => e.addedFiles.any (number · == n)) o.deleted added with
  | (some status, changed) => return (some status, { st with indexed := changed })
  | (none, changed) => return (none, { indexed := changed, gcScore := computeGCScore changed })

namespace State

variable (F : StorageIndexes.Families)

/-- The set as `Seal` looks at it. -/
def openSet (s : State compare R) : OpenSet where
  columnFamilies := F.ids.map fun cf => (cf, (s.storage cf).indexed.tracked.erase)
  nextFileNumber := s.nextFileNumber
  manifest := s.manifest

def record (s : State compare R) (e : Edit) : VersionEdit := numbered (s.openSet F) e.toVersionEdit

def addRecord (s : State compare R) (e : Edit) : State compare R :=
  { s with manifest := s.manifest ++ [(s.record F e).encodeTo] }

/-- The status that is returned, and the set afterwards. -/
def logAndApply [Std.TransCmp compare] (s : State compare R)
    (computeGCScore : IndexedStorage compare → List (GCScore R)) (w : Write) {e : Edit} (o : Order e) :
    Option (Option Status × State compare R) :=
  match (s.openSet F).checked (s.record F e) with
  | .error status => some (some status, s)
  | .ok _ =>
    match w with
    | .failed status durable => some (some status, if durable then s.addRecord F e else s)
    | .ok =>
      if e.columnFamilyId ∈ F.ids then
        ((s.storage e.columnFamilyId).apply computeGCScore o).map fun r =>
          (r.1, { s.addRecord F e with storage := update s.storage e.columnFamilyId r.2 })
      else some (none, s.addRecord F e)

end State

/-! ## Exactly the edit -/

def adds (e : Edit) : List TrackedFile :=
  e.addedFiles.filter fun f => !e.deletedFiles.any (·.1 == number f)

def deletes (e : Edit) : List (UInt64 × Nat) :=
  e.deletedFiles.filter fun d => !e.addedFiles.any (number · == d.1)

def isAt (st : IndexedStorage compare) (level : Nat) (n : UInt64) : Bool :=
  (st.files.find n).any (·.file.fileLevel.toNat == level)

/-- A storage after exactly these files have been added and these made obsolete. -/
structure ChangedBy (added : List TrackedFile) (deleted : List (UInt64 × Nat))
    (st st' : IndexedStorage compare) : Prop where
  appeared : ∀ f ∈ added, st.files.find (number f) = none ∧ st'.files.find (number f) = some f
  transited : ∀ d ∈ deleted, ∃ f, st.files.find d.1 = some f ∧ f.isObsolete = false ∧
    st'.files.find d.1 = some (f.fileStateTransit .delete)
  others : ∀ n, n ∉ added.map number → n ∉ deleted.map (·.1) → st'.files.find n = st.files.find n
  ranges : st'.blobRanges.entries.Perm (st.blobRanges.entries ++ added.map rangeEntry)
  obsolete : st'.obsoleteFiles.Perm (st.obsoleteFiles ++ deleted)
  levels : ∀ level, st'.levelsFileCount[level]? = st.levelsFileCount[level]?.map fun count : Int =>
    count + added.countP (·.file.fileLevel.toNat == level) - deleted.countP fun d => isAt st level d.1

structure Applied (F : StorageIndexes.Families) (computeGCScore : IndexedStorage compare → List (GCScore R))
    (e : Edit) (s s' : State compare R) : Prop where
  logged : s'.manifest = s.manifest ++ [(s.record F e).encodeTo]
  nextFileNumber : s'.nextFileNumber = s.nextFileNumber
  others : ∀ cf, cf ≠ e.columnFamilyId ∨ cf ∉ F.ids → s'.storage cf = s.storage cf
  changed : e.columnFamilyId ∈ F.ids → ChangedBy (adds e) (deletes e)
    (s.storage e.columnFamilyId).indexed (s'.storage e.columnFamilyId).indexed
  scored : e.columnFamilyId ∈ F.ids → (s'.storage e.columnFamilyId).gcScore =
    computeGCScore (s'.storage e.columnFamilyId).indexed

/-! ## The loops of `Apply` -/

theorem isAt_congr {st st' : IndexedStorage compare} {n : UInt64} (h : st'.files.find n = st.files.find n)
    (level : Nat) : isAt st' level n = isAt st level n := by
  rw [isAt, isAt, h]

/-- The files that are not skipped become obsolete, and the loop goes to its end. -/
theorem deleteFiles_eq (skip : UInt64 → Bool) {deleted : List (UInt64 × Nat)} {st : IndexedStorage compare}
    (hnodup : (deleted.map (·.1)).Nodup)
    (hfound : ∀ d ∈ deleted, skip d.1 = false → ∃ f, st.files.find d.1 = some f ∧
      f.file.fileLevel.toNat < st.levelsFileCount.length) :
    ∃ st', deleteFiles skip deleted st = some (none, st') ∧
      (∀ d ∈ deleted.filter (fun d => !skip d.1), ∀ f, st.files.find d.1 = some f →
        st'.files.find d.1 = some (f.fileStateTransit .delete)) ∧
      (∀ n, n ∉ (deleted.filter fun d => !skip d.1).map (·.1) → st'.files.find n = st.files.find n) ∧
      st'.blobRanges = st.blobRanges ∧
      st'.obsoleteFiles = st.obsoleteFiles ++ deleted.filter (fun d => !skip d.1) ∧
      ∀ level, st'.levelsFileCount[level]? = st.levelsFileCount[level]?.map
        (· - ((deleted.filter fun d => !skip d.1).countP fun d => isAt st level d.1 : Int)) := by
  induction deleted generalizing st with
  | nil => exact ⟨st, rfl, forall_mem_nil _, fun n _ => rfl, rfl, by simp,
      fun level => by simp⟩
  | cons d deleted ih =>
    rw [map_cons, nodup_cons] at hnodup
    have hfound' := fun d' hd' => hfound d' (mem_cons_of_mem d hd')
    rw [deleteFiles]
    cases hskip : skip d.1 with
    | true =>
      rw [filter_cons_of_neg (by simp [hskip])]
      exact ih hnodup.2 hfound'
    | false =>
      obtain ⟨f, hf, hlevel⟩ := hfound d mem_cons_self hskip
      obtain ⟨st₁, hmark, hfiles, hranges, hobsolete, hcounts⟩ := markFileObsolete_eq hf hlevel d.2
      have hne : ∀ d' ∈ deleted, d'.1 ≠ d.1 := fun d' hd' heq => hnodup.1 (heq ▸ mem_map_of_mem hd')
      have hsame : ∀ d' ∈ deleted, st₁.files.find d'.1 = st.files.find d'.1 := by
        intro d' hd'
        rw [hfiles, find_transit_of_ne _ (hne d' hd')]
      have hrest : ∀ d' ∈ deleted, skip d'.1 = false → ∃ f, st₁.files.find d'.1 = some f ∧
          f.file.fileLevel.toNat < st₁.levelsFileCount.length := by
        intro d' hd' hskip'
        rw [hsame d' hd', hcounts, length_modify]
        exact hfound' d' hd' hskip'
      obtain ⟨st', hloop, htransited, hothers, hranges', hobsolete', hlevels⟩ := ih hnodup.2 hrest
      have hlast : d.1 ∉ (deleted.filter fun d => !skip d.1).map (·.1) :=
        fun hmem => hnodup.1 ((filter_sublist.map _).subset hmem)
      rw [filter_cons_of_pos (by simp [hskip])]
      refine ⟨st', ?_, fun d' hd' g hg => ?_, fun n hn => ?_, hranges'.trans hranges, ?_, fun level => ?_⟩
      · simp only [Bool.false_eq_true, ↓reduceIte, hf, hmark, Option.bind_some]
        exact hloop
      · rcases mem_cons.mp hd' with rfl | hd'
        · rw [hothers d'.1 hlast, hfiles]
          exact find_transit_self hg .delete
        · exact htransited d' hd' g ((hsame d' (mem_filter.mp hd').1).trans hg)
      · rw [map_cons, mem_cons, not_or] at hn
        rw [hothers n hn.2, hfiles, find_transit_of_ne _ hn.1]
      · rw [hobsolete', hobsolete, append_assoc, singleton_append]
      · have hat : isAt st level d.1 = (f.file.fileLevel.toNat == level) := by
          rw [isAt, hf, Option.any_some]
        -- the files after this one are found as before it was marked
        have hcount : (deleted.filter fun d => !skip d.1).countP (fun d => isAt st₁ level d.1) =
            (deleted.filter fun d => !skip d.1).countP fun d => isAt st level d.1 := by
          refine countP_congr fun d' hd' => ?_
          rw [isAt_congr (hsame d' (mem_filter.mp hd').1)]
        rw [hlevels level, hcount, hcounts, getElem?_addToLevel, Option.map_map, countP_cons, hat]
        congr 1
        funext count
        simp only [comp_apply, beq_iff_eq]
        split <;> push_cast <;> omega

/-- A loop that goes to its end is that of `IndexedStorage.apply`. -/
theorem foldlM_of_deleteFiles {skip : UInt64 → Bool} {deleted : List (UInt64 × Nat)}
    {st st' : IndexedStorage compare} (h : deleteFiles skip deleted st = some (none, st')) :
    deleted.foldlM (fun st d => if skip d.1 then some st else st.markFileObsolete d.1 d.2) st =
      some st' := by
  induction deleted generalizing st with
  | nil =>
    cases h
    rfl
  | cons d deleted ih =>
    rw [deleteFiles] at h
    rw [foldlM_cons]
    split at h <;> rename_i hskip
    · rw [if_pos hskip]
      exact ih h
    · rw [if_neg hskip]
      split at h
      · cases h
      · obtain ⟨st₁, hmark, hrest⟩ := Option.bind_eq_some_iff.mp h
        rw [hmark]
        exact ih hrest

/-- In the order of the edit, a call of `Apply` that returns OK is `IndexedStorage.apply`. -/
theorem indexed_apply [Std.TransCmp compare] {computeGCScore : IndexedStorage compare → List (GCScore R)}
    {st st' : ScoredStorage compare R} {e : Edit}
    (h : st.apply computeGCScore ⟨e.addedFiles, e.deletedFiles, .refl _, .refl _⟩ = some (none, st')) :
    st.indexed.apply e = some st'.indexed := by
  obtain ⟨added, hadd, hrest⟩ := Option.bind_eq_some_iff.mp h
  obtain ⟨r, hdelete, hr⟩ := Option.bind_eq_some_iff.mp hrest
  refine Option.bind_eq_some_iff.mpr ⟨added, hadd, ?_⟩
  split at hr
  · cases hr
  · cases hr
    exact foldlM_of_deleteFiles hdelete

/-! ## One storage -/

/-- What `Seal` has checked of the storage is enough for `Apply` to go to its end, and then
exactly the files that the edit does not pair have changed. -/
theorem apply_eq [Std.TransCmp compare] (computeGCScore : IndexedStorage compare → List (GCScore R))
    {st : ScoredStorage compare R} {e : Edit} (o : Order e) (hadded : (e.addedFiles.map number).Nodup)
    (hdeleted : (e.deletedFiles.map (·.1)).Nodup)
    (hnew : ∀ f ∈ e.addedFiles, st.indexed.files.find (number f) = none)
    (hfound : ∀ d ∈ e.deletedFiles, d.1 ∈ e.addedFiles.map number ∨
      ∃ f, st.indexed.files.find d.1 = some f ∧ f.isObsolete = false)
    (hlevel : ∀ f, f ∈ e.addedFiles ∨ f ∈ st.indexed.files.list →
      f.file.fileLevel.toNat < st.indexed.levelsFileCount.length) :
    ∃ st', st.apply computeGCScore o = some (none, ⟨st', computeGCScore st'⟩) ∧
      ChangedBy (adds e) (deletes e) st.indexed st' := by
  have hadds : (o.added.filter fun f => !e.deletedFiles.any (·.1 == number f)).Perm (adds e) :=
    o.addedPerm.filter _
  have hdeletes : (o.deleted.filter fun d => !e.addedFiles.any (number · == d.1)).Perm (deletes e) :=
    o.deletedPerm.filter _
  obtain ⟨st₁, hadd, hfiles, hranges, hobsolete, hlength, hlevels⟩ :=
    addFiles_eq (fun n => e.deletedFiles.any (·.1 == n)) ((o.addedPerm.map number).nodup_iff.mpr hadded)
      (fun f hf => hnew f (o.addedPerm.subset hf)) fun f hf => hlevel f (.inl (o.addedPerm.subset hf))
  -- the edit adds no file that it makes obsolete, so that one is found as before
  have hunpaired : ∀ d ∈ e.deletedFiles, e.addedFiles.any (number · == d.1) = false →
      d.1 ∉ e.addedFiles.map number := by
    intro d _ hskip hmem
    obtain ⟨f, hf, hn⟩ := mem_map.mp hmem
    exact any_eq_false.mp hskip f hf (beq_iff_eq.mpr hn)
  have hsame : ∀ n, n ∉ (adds e).map number → st₁.files.find n = st.indexed.files.find n := by
    intro n hn
    exact find_of_append hfiles fun hmem => hn ((hadds.map number).subset hmem)
  have hadds_sub : ∀ n, n ∈ (adds e).map number → n ∈ e.addedFiles.map number :=
    fun n hn => (filter_sublist.map _).subset hn
  have hthere : ∀ d ∈ e.deletedFiles, e.addedFiles.any (number · == d.1) = false →
      ∃ f, st.indexed.files.find d.1 = some f ∧ f.isObsolete = false ∧
        st₁.files.find d.1 = st.indexed.files.find d.1 := by
    intro d hd hskip
    have hnot := hunpaired d hd hskip
    obtain ⟨f, hf, hlive⟩ := (hfound d hd).resolve_left hnot
    exact ⟨f, hf, hlive, hsame d.1 fun hmem => hnot (hadds_sub _ hmem)⟩
  have hready : ∀ d ∈ o.deleted, e.addedFiles.any (number · == d.1) = false →
      ∃ f, st₁.files.find d.1 = some f ∧ f.file.fileLevel.toNat < st₁.levelsFileCount.length := by
    intro d hd hskip
    obtain ⟨f, hf, -, hst₁⟩ := hthere d (o.deletedPerm.subset hd) hskip
    refine ⟨f, hst₁.trans hf, ?_⟩
    rw [hlength]
    exact hlevel f (.inr (Files.find_eq_some.mp hf).1)
  obtain ⟨st', hdelete, htransited, hothers, hranges', hobsolete', hlevels'⟩ :=
    deleteFiles_eq (fun n => e.addedFiles.any (number · == n))
      ((o.deletedPerm.map (·.1)).nodup_iff.mpr hdeleted) hready
  have hkept : ∀ n, n ∉ (deletes e).map (·.1) → st'.files.find n = st₁.files.find n := by
    intro n hn
    exact hothers n fun hmem => hn ((hdeletes.map (·.1)).subset hmem)
  have hdeletes_sub : ∀ d ∈ deletes e, d ∈ e.deletedFiles ∧ e.addedFiles.any (number · == d.1) = false := by
    intro d hd
    obtain ⟨hmem, hskip⟩ := mem_filter.mp hd
    exact ⟨hmem, by simpa using hskip⟩
  have hapart : ∀ n ∈ (adds e).map number, n ∉ (deletes e).map (·.1) := by
    intro n hn hmem
    obtain ⟨d, hd, rfl⟩ := mem_map.mp hmem
    exact hunpaired d (hdeletes_sub d hd).1 (hdeletes_sub d hd).2 (hadds_sub _ hn)
  refine ⟨st', ?_, fun f hf => ⟨hnew f (mem_filter.mp hf).1, ?_⟩, fun d hd => ?_, fun n hn hn' => ?_,
    ?_, ?_, fun level => ?_⟩
  · rw [ScoredStorage.apply, addFiles, hadd]
    simp only [Option.bind_eq_bind, Option.bind_some, hdelete]
    rfl
  · rw [hkept _ (hapart _ (mem_map_of_mem hf)), Files.find_eq_some, hfiles]
    exact ⟨mem_append_right _ (hadds.symm.subset hf), rfl⟩
  · obtain ⟨hmem, hskip⟩ := hdeletes_sub d hd
    obtain ⟨f, hf, hlive, hst₁⟩ := hthere d hmem hskip
    exact ⟨f, hf, hlive, htransited d (hdeletes.symm.subset hd) f (hst₁.trans hf)⟩
  · exact (hkept n hn').trans (hsame n hn)
  · rw [hranges']
    exact hranges.trans ((hadds.map rangeEntry).append_left _)
  · rw [hobsolete', hobsolete]
    exact hdeletes.append_left _
  · have hat : (o.deleted.filter fun d => !e.addedFiles.any (number · == d.1)).countP
        (fun d => isAt st₁ level d.1) = (deletes e).countP fun d => isAt st.indexed level d.1 := by
      rw [hdeletes.countP_eq]
      refine countP_congr fun d hd => ?_
      obtain ⟨f, -, -, hst₁⟩ := hthere d (hdeletes_sub d hd).1 (hdeletes_sub d hd).2
      rw [isAt_congr hst₁]
    rw [hlevels' level, hlevels level, Option.map_map, hat, hadds.countP_eq]
    rfl

/-! ## The call -/

/-- A call of `LogAndApply`, for every edit, every set of open column families and however
the write of the record ends: a status other than OK leaves every storage as it was, an edit
that is refused leaves the manifest too, and one that passes the checks and is written is
applied in full. The levels of the files are ones that the storage counts. -/
theorem logAndApply_all_or_nothing [Std.TransCmp compare] (F : StorageIndexes.Families)
    (s : State compare R) (computeGCScore : IndexedStorage compare → List (GCScore R)) (w : Write)
    {e : Edit} (o : Order e)
    (hlevel : e.columnFamilyId ∈ F.ids →
      ∀ f, f ∈ e.addedFiles ∨ f ∈ (s.storage e.columnFamilyId).indexed.files.list →
        f.file.fileLevel.toNat < (s.storage e.columnFamilyId).indexed.levelsFileCount.length) :
    ∃ status s', s.logAndApply F computeGCScore w o = some (status, s') ∧
      (status ≠ none → s'.storage = s.storage) ∧
      (∀ refused, (s.openSet F).checked (s.record F e) = .error refused → status = some refused ∧ s' = s) ∧
      ∀ collector, (s.openSet F).checked (s.record F e) = .ok collector → w = .ok →
        status = none ∧ Applied F computeGCScore e s s' := by
  unfold State.logAndApply
  cases hchecked : (s.openSet F).checked (s.record F e) with
  | error refused =>
    refine ⟨some refused, s, rfl, fun _ => rfl, fun status h => ?_, fun collector h => by cases h⟩
    obtain rfl := Except.error.inj h
    exact ⟨rfl, rfl⟩
  | ok collector =>
    cases w with
    | failed status durable =>
      refine ⟨some status, _, rfl, fun _ => ?_, fun refused h => (by cases h),
        fun _ _ h => (by cases h)⟩
      cases durable <;> rfl
    | ok =>
      dsimp only
      split
      · rename_i hcf
        obtain ⟨c, hc, -, hfits⟩ := checked_ok hchecked
        obtain ⟨hadded, hdeleted, hnew, hfound⟩ := fits_storage hc.consistent
          (hfits (e.columnFamilyId, (s.storage e.columnFamilyId).indexed.tracked.erase)
            (mem_map_of_mem hcf))
        obtain ⟨st', happly, hchanged⟩ := apply_eq computeGCScore o hadded hdeleted hnew hfound
          (hlevel hcf)
        rw [happly]
        refine ⟨none, _, rfl, fun h => absurd rfl h, fun refused h => (by cases h), fun _ _ _ =>
          ⟨rfl, rfl, rfl, fun cf hother => ?_, fun _ => ?_, fun _ => ?_⟩⟩
        · refine update_of_ne (hother.elim id fun hnot heq => hnot (heq ▸ hcf)) _ _
        · dsimp only
          rw [update_self]
          exact hchanged
        · dsimp only
          rw [update_self]
      · rename_i hcf
        exact ⟨none, _, rfl, fun _ => rfl, fun refused h => (by cases h), fun _ _ _ =>
          ⟨rfl, rfl, rfl, fun _ _ => rfl, fun h => absurd h hcf, fun h => absurd h hcf⟩⟩

end

def twoLevels : State (compareOn List.length) Nat where
  storage _ :=
    { indexed :=
        { files := ⟨[{ file := { fileNumber := 5 }, state := .normal },
            { file := { fileNumber := 6, fileLevel := 1 }, state := .normal }], by decide⟩
          blobRanges := ⟨[([], { fileNumber := 5 }), ([], { fileNumber := 6, fileLevel := 1 })], by decide⟩
          levelsFileCount := [1, 1] } }
  nextFileNumber := 9

/-- File 7 comes, file 5 goes, and file 8 is paired. -/
def pairedEdit : Edit where
  addedFiles := [{ file := { fileNumber := 7 }, state := .pendingLSM },
    { file := { fileNumber := 8 }, state := .pendingLSM }]
  deletedFiles := [(8, 3), (5, 3)]

def pairedOrder : Order pairedEdit := ⟨pairedEdit.addedFiles, pairedEdit.deletedFiles, .refl _, .refl _⟩

theorem logAndApply_pairedEdit :
    ∃ s', twoLevels.logAndApply oneFamily (fun _ => []) .ok pairedOrder = some (none, s') ∧
      Applied oneFamily (fun _ => []) pairedEdit twoLevels s' := by
  have hlevel : ∀ f, f ∈ pairedEdit.addedFiles ∨
      f ∈ (twoLevels.storage pairedEdit.columnFamilyId).indexed.files.list →
        f.file.fileLevel.toNat <
          (twoLevels.storage pairedEdit.columnFamilyId).indexed.levelsFileCount.length := by
    rintro f (hf | hf)
    · revert f
      decide
    · revert f
      decide
  have hchecked : ∃ collector, (twoLevels.openSet oneFamily).checked (twoLevels.record oneFamily pairedEdit) =
      .ok collector := ⟨_, rfl⟩
  obtain ⟨collector, hchecked⟩ := hchecked
  obtain ⟨status, s', hcall, -, -, hok⟩ :=
    logAndApply_all_or_nothing oneFamily twoLevels (fun _ => []) .ok pairedOrder fun _ => hlevel
  obtain ⟨rfl, happlied⟩ := hok collector hchecked rfl
  exact ⟨s', hcall, happlied⟩

end TitanGC.Accounting.AllOrNothing
