import TitanGC.Lib.MultiMaps
import TitanGC.Accounting.Tracking

/-!
# The indexes of a blob storage

`BlobStorage` keeps its files in four containers: by number, by smallest key, counted
by level, and those that are obsolete. `LogAndApply` adds files and makes them
obsolete, jobs change states, and `GetObsoleteFiles` removes what no snapshot sees any
more. The containers always speak of the same files, and no file is reported twice.
A level that is out of bounds, or a file that is not found where `Seal` has seen it,
ends the run.
-/

namespace TitanGC.Accounting.StorageIndexes

open Lib.ByteCoding Lib.MultiMaps Lib.Runs List Function
open Manifest.VersionEdits Manifest.Families Manifest.Logging Manifest.Mirror Tracking

/-! ## Files by number -/

def number (f : TrackedFile) : UInt64 := f.file.fileNumber

structure Files where
  list : List TrackedFile := []
  nodup : (list.map number).Nodup := by exact .nil

theorem fileStateTransit_file (f : TrackedFile) (event : FileEvent) :
    (f.fileStateTransit event).file = f.file := by
  cases event <;> simp only [TrackedFile.fileStateTransit] <;> split <;> rfl

theorem numbers_transit (fs : List TrackedFile) (n : UInt64) (event : FileEvent) :
    (fs.map fun f => if number f = n then f.fileStateTransit event else f).map number = fs.map number := by
  rw [map_map]
  refine map_congr_left fun f _ => ?_
  rw [comp_apply]
  split
  · rw [number, number, fileStateTransit_file]
  · rfl

variable {fs : Files} {n : UInt64} {f : TrackedFile}

namespace Files

def find (fs : Files) (n : UInt64) : Option TrackedFile := fs.list.find? (number · == n)

theorem find_eq_none : fs.find n = none ↔ ∀ f ∈ fs.list, number f ≠ n := by
  simp [find]

theorem find_eq_some : fs.find n = some f ↔ f ∈ fs.list ∧ number f = n := by
  constructor
  · intro h
    exact ⟨mem_of_find?_eq_some h, by simpa using find?_some h⟩
  · rintro ⟨hmem, hn⟩
    cases h : fs.find n with
    | none => exact absurd hn (find_eq_none.mp h f hmem)
    | some g =>
      have hg := mem_of_find?_eq_some h
      have hgn : number g = n := by simpa using find?_some h
      exact congrArg some (inj_on_of_nodup_map fs.nodup hg hmem (hgn.trans hn.symm))

/-- `emplace` keeps a file that is there. -/
def emplace (fs : Files) (f : TrackedFile) : Files :=
  if h : fs.find (number f) = none then
    { list := fs.list ++ [f]
      nodup := nodup_map_append_singleton fs.nodup fun hmem => by
        obtain ⟨g, hg, hgn⟩ := mem_map.mp hmem
        exact find_eq_none.mp h g hg hgn }
  else fs

/-- The file changes through its pointer. -/
def transit (fs : Files) (n : UInt64) (event : FileEvent) : Files where
  list := fs.list.map fun f => if number f = n then f.fileStateTransit event else f
  nodup := by
    rw [numbers_transit]
    exact fs.nodup

def erase (fs : Files) (n : UInt64) : Files where
  list := fs.list.filter (number · != n)
  nodup := fs.nodup.sublist (filter_sublist.map _)

/-- A file that is found, and the others. -/
theorem split (h : fs.find n = some f) :
    ∃ others, fs.list.Perm (f :: others) ∧ (∀ g ∈ others, number g ≠ n) ∧
      (∀ event, (fs.transit n event).list.Perm (f.fileStateTransit event :: others)) ∧
      (fs.erase n).list.Perm others := by
  obtain ⟨hmem, hn⟩ := find_eq_some.mp h
  obtain ⟨before, after, hsplit⟩ := append_of_mem hmem
  have hnodup := fs.nodup
  rw [hsplit] at hnodup
  have hperm : (before ++ f :: after).Perm (f :: (before ++ after)) := perm_middle
  have hlist : fs.list.Perm (f :: (before ++ after)) := by rw [hsplit]; exact hperm
  have hothers : ∀ g ∈ before ++ after, number g ≠ n := by
    intro g hg hgn
    have hcons := (hperm.map number).nodup_iff.mp hnodup
    rw [map_cons, nodup_cons] at hcons
    exact hcons.1 (mem_map.mpr ⟨g, hg, hgn.trans hn.symm⟩)
  refine ⟨before ++ after, hlist, hothers, fun event => ?_, ?_⟩
  · have hmap : (fs.transit n event).list.Perm ((f :: (before ++ after)).map fun f =>
        if number f = n then f.fileStateTransit event else f) := hlist.map _
    rw [map_cons, if_pos hn] at hmap
    refine hmap.trans (.of_eq (congrArg _ ?_))
    refine (map_congr_left fun g hg => ?_).trans (map_id _)
    rw [if_neg (hothers g hg), id]
  · have hfilter : (fs.erase n).list.Perm ((f :: (before ++ after)).filter (number · != n)) :=
      hlist.filter _
    rw [filter_cons_of_neg (by simp [hn])] at hfilter
    refine hfilter.trans (.of_eq (filter_eq_self.mpr fun g hg => ?_))
    simp [hothers g hg]

end Files

/-! ## One storage -/

structure IndexedStorage (compare : Bytes → Bytes → Ordering) where
  files : Files := {}
  blobRanges : MultiMap Bytes BlobFileMeta compare := {}
  levelsFileCount : List Int
  obsoleteFiles : List (UInt64 × Nat) := []

/-- `levels_file_count_[level] += delta`; `none` is a level out of bounds. -/
def addToLevel (counts : List Int) (level : Nat) (delta : Int) : Option (List Int) :=
  if level < counts.length then some (counts.modify level (· + delta)) else none

namespace IndexedStorage

variable {compare : Bytes → Bytes → Ordering} [Std.TransCmp compare]

def addBlobFile (st : IndexedStorage compare) (f : TrackedFile) : Option (IndexedStorage compare) :=
  (addToLevel st.levelsFileCount f.file.fileLevel.toNat 1).map fun counts =>
    { st with
      files := st.files.emplace f
      blobRanges := st.blobRanges.emplace f.file.smallestKey f.file
      levelsFileCount := counts }

def markFileObsolete (st : IndexedStorage compare) (n : UInt64) (obsoleteSequence : Nat) :
    Option (IndexedStorage compare) :=
  match st.files.find n with
  | none => none
  | some f => (addToLevel st.levelsFileCount f.file.fileLevel.toNat (-1)).map fun counts =>
    { st with
      files := st.files.transit n .delete
      levelsFileCount := counts
      obsoleteFiles := st.obsoleteFiles ++ [(n, obsoleteSequence)] }

def removeFile (st : IndexedStorage compare) (n : UInt64) : IndexedStorage compare :=
  match st.files.find n with
  | none => st
  | some f =>
    { st with
      files := st.files.erase n
      blobRanges := st.blobRanges.eraseFirst f.file.smallestKey (·.fileNumber == n) }

/-- The loop of `GetObsoleteFiles` over `obsolete_files_`, with the files it reports. -/
def purge (oldestSequence : Nat) :
    List (UInt64 × Nat) → IndexedStorage compare → IndexedStorage compare × List UInt64
  | [], st => ({ st with obsoleteFiles := [] }, [])
  | (n, obsoleteSequence) :: rest, st =>
    if oldestSequence > obsoleteSequence then
      let (st, reported) := purge oldestSequence rest (st.removeFile n)
      (st, n :: reported)
    else
      let (st, reported) := purge oldestSequence rest st
      ({ st with obsoleteFiles := (n, obsoleteSequence) :: st.obsoleteFiles }, reported)

def getObsoleteFiles (st : IndexedStorage compare) (oldestSequence : Nat) :
    IndexedStorage compare × List UInt64 :=
  purge oldestSequence st.obsoleteFiles st

/-- `Apply`: a file that the edit adds and deletes is skipped. -/
def apply (st : IndexedStorage compare) (e : Edit) : Option (IndexedStorage compare) := do
  let st ← e.addedFiles.foldlM (fun st f =>
    if e.deletedFiles.any (·.1 == number f) then some st else st.addBlobFile f) st
  e.deletedFiles.foldlM (fun st d =>
    if e.addedFiles.any (number · == d.1) then some st else st.markFileObsolete d.1 d.2) st

def tracked (st : IndexedStorage compare) : Storage where
  files := st.files.find
  obsoleteFiles := st.obsoleteFiles

end IndexedStorage

/-! ## Coherence -/

variable {counts : List Int} (oldestSequence : Nat)

section

variable {compare : Bytes → Bytes → Ordering}

def rangeEntry (f : TrackedFile) : Bytes × BlobFileMeta := (f.file.smallestKey, f.file)

def isLiveAt (level : Nat) (f : TrackedFile) : Bool := !f.isObsolete && f.file.fileLevel.toNat == level

/-- The containers speak of the same files, where `obsolete` stands for `obsolete_files_`. -/
structure CoherentWith (numLevels : Nat) (obsolete : List (UInt64 × Nat)) (st : IndexedStorage compare) :
    Prop where
  ranges : st.blobRanges.entries.Perm (st.files.list.map rangeEntry)
  obsolete : (obsolete.map (·.1)).Perm ((st.files.list.filter (·.isObsolete)).map number)
  levels : ∀ level < numLevels, st.levelsFileCount[level]? =
    some (st.files.list.countP (isLiveAt level) : Int)
  length : st.levelsFileCount.length = numLevels
  inBounds : ∀ f ∈ st.files.list, f.file.fileLevel.toNat < numLevels

/-- One entry of `blob_ranges_` for each file, under its smallest key; the obsolete files, each
once, in `obsolete_files_`; and for each level the number of files that are not obsolete. -/
abbrev Coherent (numLevels : Nat) (st : IndexedStorage compare) : Prop :=
  CoherentWith numLevels st.obsoleteFiles st

variable {numLevels : Nat} {obsolete : List (UInt64 × Nat)} {st : IndexedStorage compare}

variable {level : Nat} {f : TrackedFile} {added : List TrackedFile} {n : UInt64}

theorem addToLevel_eq (h : level < counts.length) (delta : Int) :
    addToLevel counts level delta = some (counts.modify level (· + delta)) := if_pos h

theorem getElem?_addToLevel (counts : List Int) (level l : Nat) (delta : Int) :
    (counts.modify level (· + delta))[l]? = counts[l]?.map (· + if level = l then delta else 0) := by
  rw [getElem?_modify]
  cases counts[l]? with
  | none => rfl
  | some count => by_cases h : level = l <;> simp [h]

/-- A file whose number is new is added behind the others. -/
theorem addBlobFile_eq [Std.TransCmp compare] {st : IndexedStorage compare}
    (hnew : st.files.find (number f) = none) (hlevel : f.file.fileLevel.toNat < st.levelsFileCount.length) :
    ∃ st', st.addBlobFile f = some st' ∧ st'.files.list = st.files.list ++ [f] ∧
      st'.blobRanges.entries.Perm (rangeEntry f :: st.blobRanges.entries) ∧
      st'.obsoleteFiles = st.obsoleteFiles ∧
      st'.levelsFileCount = st.levelsFileCount.modify f.file.fileLevel.toNat (· + 1) := by
  rw [IndexedStorage.addBlobFile, addToLevel_eq hlevel]
  refine ⟨_, rfl, ?_, st.blobRanges.emplace_perm _ _, rfl, rfl⟩
  dsimp only
  rw [Files.emplace, dif_pos hnew]

theorem find_of_append {fs fs' : Files} (h : fs'.list = fs.list ++ added) (hn : n ∉ added.map number) :
    fs'.find n = fs.find n := by
  have hnone : added.find? (number · == n) = none := by
    refine find?_eq_none.mpr fun g hg heq => hn ?_
    exact mem_map.mpr ⟨g, hg, beq_iff_eq.mp heq⟩
  rw [Files.find, Files.find, h, find?_append, hnone, Option.or_none]

/-- The files that are not skipped are added behind those that are there. -/
theorem addFiles_eq [Std.TransCmp compare] (skip : UInt64 → Bool) {st : IndexedStorage compare}
    (hnodup : (added.map number).Nodup) (hnew : ∀ f ∈ added, st.files.find (number f) = none)
    (hlevel : ∀ f ∈ added, f.file.fileLevel.toNat < st.levelsFileCount.length) :
    ∃ st', added.foldlM (fun st f => if skip (number f) then some st else st.addBlobFile f) st = some st' ∧
      st'.files.list = st.files.list ++ added.filter (fun f => !skip (number f)) ∧
      st'.blobRanges.entries.Perm
        (st.blobRanges.entries ++ (added.filter fun f => !skip (number f)).map rangeEntry) ∧
      st'.obsoleteFiles = st.obsoleteFiles ∧
      st'.levelsFileCount.length = st.levelsFileCount.length ∧
      ∀ level, st'.levelsFileCount[level]? = st.levelsFileCount[level]?.map
        (· + ((added.filter fun f => !skip (number f)).countP (·.file.fileLevel.toNat == level) : Int)) := by
  induction added generalizing st with
  | nil => exact ⟨st, rfl, by simp, by simp, rfl, rfl, fun level => by simp⟩
  | cons f added ih =>
    rw [map_cons, nodup_cons] at hnodup
    have hnew' := fun g hg => hnew g (mem_cons_of_mem f hg)
    have hlevel' := fun g hg => hlevel g (mem_cons_of_mem f hg)
    rw [foldlM_cons]
    cases hskip : skip (number f) with
    | true =>
      rw [filter_cons_of_neg (by simp [hskip])]
      exact ih hnodup.2 hnew' hlevel'
    | false =>
      obtain ⟨st₁, hadd, hfiles, hranges, hobsolete, hcounts⟩ :=
        addBlobFile_eq (hnew f mem_cons_self) (hlevel f mem_cons_self)
      have hlength : st₁.levelsFileCount.length = st.levelsFileCount.length := by
        rw [hcounts, length_modify]
      have hrest : ∀ g ∈ added, st₁.files.find (number g) = none := by
        intro g hg
        rw [find_of_append hfiles, hnew' g hg]
        rw [map_singleton, mem_singleton]
        exact fun heq => hnodup.1 (heq ▸ mem_map_of_mem hg)
      obtain ⟨st', hfold, hfiles', hranges', hobsolete', hlength', hlevels⟩ :=
        ih hnodup.2 hrest fun g hg => hlength.symm ▸ hlevel' g hg
      rw [filter_cons_of_pos (by simp [hskip])]
      refine ⟨st', ?_, ?_, ?_, hobsolete'.trans hobsolete, hlength'.trans hlength, fun level => ?_⟩
      · simp only [Bool.false_eq_true, ↓reduceIte, hadd]
        exact hfold
      · rw [hfiles', hfiles, append_assoc, singleton_append]
      · exact (hranges'.trans (hranges.append_right _)).trans perm_middle.symm
      · rw [hlevels level, hcounts, getElem?_addToLevel, Option.map_map, countP_cons]
        congr 1
        funext count
        simp only [comp_apply, beq_iff_eq]
        split <;> push_cast <;> omega

/-- A file that is there becomes obsolete. -/
theorem markFileObsolete_eq {st : IndexedStorage compare} (hfind : st.files.find n = some f)
    (hlevel : f.file.fileLevel.toNat < st.levelsFileCount.length) (obsoleteSequence : Nat) :
    ∃ st', st.markFileObsolete n obsoleteSequence = some st' ∧ st'.files = st.files.transit n .delete ∧
      st'.blobRanges = st.blobRanges ∧ st'.obsoleteFiles = st.obsoleteFiles ++ [(n, obsoleteSequence)] ∧
      st'.levelsFileCount = st.levelsFileCount.modify f.file.fileLevel.toNat (· + -1) := by
  rw [IndexedStorage.markFileObsolete, hfind]
  dsimp only
  rw [addToLevel_eq hlevel]
  exact ⟨_, rfl, rfl, rfl, rfl, rfl⟩

/-- What a level counts when one file is added to it or taken from it. -/
theorem levels_modify {count : Nat → Nat} {delta : Int}
    (hcounts : ∀ l < numLevels, counts[l]? = some (count l : Int)) {count' : Nat → Nat}
    (hsame : ∀ l ≠ level, count' l = count l) (hlevel : (count' level : Int) = count level + delta) :
    ∀ l < numLevels, (counts.modify level (· + delta))[l]? = some (count' l : Int) := by
  intro l hl
  rw [getElem?_modify, hcounts l hl]
  by_cases heq : level = l
  · subst heq
    simp [hlevel]
  · simp [heq, hsame l (Ne.symm heq)]

theorem countP_cons_live (hf : f.isObsolete = false) (others : List TrackedFile) :
    (f :: others).countP (isLiveAt level) =
      others.countP (isLiveAt level) + if f.file.fileLevel.toNat = level then 1 else 0 := by
  simp [countP_cons, isLiveAt, hf]

theorem countP_cons_obsolete (hf : f.isObsolete = true) (others : List TrackedFile) :
    (f :: others).countP (isLiveAt level) = others.countP (isLiveAt level) := by
  simp [isLiveAt, hf]

/-- A file that is there and not obsolete yet. -/
theorem CoherentWith.markFileObsolete (h : CoherentWith numLevels obsolete st)
    (hfind : st.files.find n = some f) (hf : f.isObsolete = false) (obsoleteSequence : Nat) :
    ∃ st', st.markFileObsolete n obsoleteSequence = some st' ∧
      CoherentWith numLevels (obsolete ++ [(n, obsoleteSequence)]) st' ∧
      st'.files = st.files.transit n .delete ∧
      st'.obsoleteFiles = st.obsoleteFiles ++ [(n, obsoleteSequence)] := by
  obtain ⟨others, hperm, hothers, htransit, -⟩ := Files.split hfind
  obtain ⟨hmem, hn⟩ := Files.find_eq_some.mp hfind
  have hdelete : (f.fileStateTransit .delete).isObsolete = true := rfl
  have hlevel := h.inBounds f hmem
  obtain ⟨st', hmark, hfiles, hranges, hobsolete, hcounts⟩ :=
    markFileObsolete_eq hfind (h.length.symm ▸ hlevel) obsoleteSequence
  have hdeleted : st'.files.list.Perm (f.fileStateTransit .delete :: others) := hfiles ▸ htransit .delete
  refine ⟨st', hmark, ⟨?_, ?_, ?_, ?_, ?_⟩, hfiles, hobsolete⟩
  · rw [hranges]
    refine (h.ranges.trans (hperm.map rangeEntry)).trans ?_
    exact (hdeleted.map rangeEntry).symm
  · refine (perm_append_singleton _ _ |>.map _).trans ?_
    refine List.Perm.trans ?_ ((hdeleted.filter _).map number).symm
    rw [filter_cons_of_pos hdelete, map_cons, map_cons,
      show number (f.fileStateTransit .delete) = n from hn]
    refine List.Perm.cons _ ((h.obsolete.trans ((hperm.filter _).map number)).trans ?_)
    rw [filter_cons_of_neg (by simp [hf])]
  · rw [hcounts]
    refine levels_modify h.levels (fun l hl => ?_) ?_
    · rw [hdeleted.countP_eq, hperm.countP_eq, countP_cons_obsolete hdelete, countP_cons_live hf,
        if_neg (Ne.symm hl), Nat.add_zero]
    · rw [hdeleted.countP_eq, hperm.countP_eq, countP_cons_obsolete hdelete, countP_cons_live hf,
        if_pos rfl]
      push_cast
      omega
  · rw [hcounts, length_modify]
    exact h.length
  · intro g hg
    rcases mem_cons.mp (hdeleted.subset hg) with rfl | hg
    · exact hlevel
    · exact h.inBounds g (hperm.symm.subset (mem_cons_of_mem _ hg))

/-- A file of `obsolete_files_` is removed from all containers. -/
theorem CoherentWith.removeFile [Std.TransCmp compare] {kept rest : List (UInt64 × Nat)}
    {obsoleteSequence : Nat} (h : CoherentWith numLevels (kept ++ (n, obsoleteSequence) :: rest) st) :
    (∃ f, st.files.find n = some f ∧ f.isObsolete = true) ∧
      CoherentWith numLevels (kept ++ rest) (st.removeFile n) ∧
      (st.removeFile n).files = st.files.erase n := by
  have hobsolete : ((n, obsoleteSequence) :: (kept ++ rest)).map (·.1) |>.Perm
      ((st.files.list.filter (·.isObsolete)).map number) :=
    (perm_middle.map _).symm.trans h.obsolete
  obtain ⟨f, hf, hn⟩ := mem_map.mp (hobsolete.subset mem_cons_self)
  obtain ⟨hmem, hf⟩ := mem_filter.mp hf
  have hfind : st.files.find n = some f := Files.find_eq_some.mpr ⟨hmem, hn⟩
  obtain ⟨others, hperm, hothers, -, herase⟩ := Files.split hfind
  rw [IndexedStorage.removeFile, hfind]
  refine ⟨⟨f, rfl, hf⟩, ⟨?_, ?_, ?_, h.length, ?_⟩, rfl⟩
  · refine List.Perm.trans ?_ (herase.map rangeEntry).symm
    refine MultiMap.eraseFirst_perm (h.ranges.trans (hperm.map rangeEntry)) Std.ReflCmp.compare_self ?_ ?_
    · exact beq_iff_eq.mpr hn
    · exact forall_mem_map.mpr fun g hg => beq_eq_false_iff_ne.mpr (hothers g hg)
  · have hcons := hobsolete.trans ((hperm.filter _).map number)
    rw [filter_cons_of_pos hf, map_cons, map_cons, hn] at hcons
    exact hcons.cons_inv.trans ((herase.filter _).map number).symm
  · intro l hl
    dsimp only
    rw [h.levels l hl, hperm.countP_eq, herase.countP_eq, countP_cons_obsolete hf]
  · intro g hg
    exact h.inBounds g (hperm.symm.subset (mem_cons_of_mem _ (herase.subset hg)))

/-! ## The loops -/

theorem CoherentWith.nodup (h : CoherentWith numLevels obsolete st) : (obsolete.map (·.1)).Nodup :=
  h.obsolete.nodup_iff.mpr (st.files.nodup.sublist (filter_sublist.map _))

theorem purge_reported (ds : List (UInt64 × Nat)) (st : IndexedStorage compare) :
    (IndexedStorage.purge oldestSequence ds st).2 =
      (ds.filter fun d => oldestSequence > d.2).map (·.1) := by
  induction ds generalizing st with
  | nil => rfl
  | cons d ds ih =>
    rw [IndexedStorage.purge]
    split
    · rename_i hold
      rw [filter_cons_of_pos (by simpa using hold), map_cons]
      exact congrArg _ (ih _)
    · rename_i hnew
      rw [filter_cons_of_neg (by simpa using hnew)]
      exact ih st

/-- The loop keeps the containers coherent; what it reports was obsolete, and is gone. -/
theorem CoherentWith.purge [Std.TransCmp compare] {kept ds : List (UInt64 × Nat)}
    (h : CoherentWith numLevels (kept ++ ds) st) :
    CoherentWith numLevels (kept ++ (IndexedStorage.purge oldestSequence ds st).1.obsoleteFiles)
        (IndexedStorage.purge oldestSequence ds st).1 ∧
      (∀ n ∈ (IndexedStorage.purge oldestSequence ds st).2,
        ∃ f, st.files.find n = some f ∧ f.isObsolete = true) ∧
      ∀ f ∈ (IndexedStorage.purge oldestSequence ds st).1.files.list, f ∈ st.files.list ∧
        number f ∉ (IndexedStorage.purge oldestSequence ds st).2 := by
  induction ds generalizing kept st with
  | nil => exact ⟨⟨h.ranges, h.obsolete, h.levels, h.length, h.inBounds⟩,
      forall_mem_nil _, fun f hf => ⟨hf, not_mem_nil⟩⟩
  | cons d ds ih =>
    obtain ⟨n, obsoleteSequence⟩ := d
    rw [IndexedStorage.purge]
    split
    · obtain ⟨hfound, hremoved, herase⟩ := h.removeFile
      obtain ⟨hcoherent, hreported, hfiles⟩ := ih hremoved
      have hstays : ∀ f, f ∈ (st.removeFile n).files.list → f ∈ st.files.list ∧ number f ≠ n := by
        intro f hf
        rw [herase] at hf
        obtain ⟨hmem, hne⟩ := mem_filter.mp hf
        exact ⟨hmem, by simpa using hne⟩
      refine ⟨hcoherent, fun m hm => ?_, fun f hf => ?_⟩
      · rcases mem_cons.mp hm with rfl | hm
        · exact hfound
        · obtain ⟨f, hf, hobs⟩ := hreported m hm
          obtain ⟨hmem, hnum⟩ := Files.find_eq_some.mp hf
          exact ⟨f, Files.find_eq_some.mpr ⟨(hstays f hmem).1, hnum⟩, hobs⟩
      · obtain ⟨hmem, hnot⟩ := hfiles f hf
        obtain ⟨hmem, hne⟩ := hstays f hmem
        exact ⟨hmem, not_mem_cons_of_ne_of_not_mem hne hnot⟩
    · have hkept : CoherentWith numLevels ((kept ++ [(n, obsoleteSequence)]) ++ ds) st := by
        rw [append_assoc]
        exact h
      obtain ⟨hcoherent, hreported, hfiles⟩ := ih hkept
      rw [append_assoc] at hcoherent
      exact ⟨⟨hcoherent.ranges, hcoherent.obsolete, hcoherent.levels, hcoherent.length,
        hcoherent.inBounds⟩, hreported, hfiles⟩

/-- The files that an edit adds, but for those that are skipped. -/
theorem CoherentWith.addFiles [Std.TransCmp compare] (skip : UInt64 → Bool)
    (h : CoherentWith numLevels obsolete st) (hnodup : (added.map number).Nodup)
    (hnew : ∀ f ∈ added, st.files.find (number f) = none) (hlive : ∀ f ∈ added, f.isObsolete = false)
    (hlevel : ∀ f ∈ added, f.file.fileLevel.toNat < numLevels) :
    ∃ st', added.foldlM (fun st f => if skip (number f) then some st else st.addBlobFile f) st = some st' ∧
      CoherentWith numLevels obsolete st' ∧ st'.obsoleteFiles = st.obsoleteFiles ∧
      st'.files.list = st.files.list ++ added.filter fun f => !skip (number f) := by
  obtain ⟨st', hfold, hfiles, hranges, hobsolete, hlength, hlevels⟩ :=
    addFiles_eq skip hnodup hnew fun f hf => h.length.symm ▸ hlevel f hf
  have hkept : ∀ f ∈ added.filter (fun f => !skip (number f)), f ∈ added := fun f hf => (mem_filter.mp hf).1
  refine ⟨st', hfold, ⟨?_, ?_, fun level hl => ?_, hlength.trans h.length, fun f hf => ?_⟩, hobsolete, hfiles⟩
  · rw [hfiles, map_append]
    exact hranges.trans (h.ranges.append_right _)
  · have hnone : (added.filter fun f => !skip (number f)).filter (·.isObsolete) = [] :=
      filter_eq_nil_iff.mpr fun f hf => by simp [hlive f (hkept f hf)]
    rw [hfiles, filter_append, hnone, append_nil]
    exact h.obsolete
  · rw [hlevels level, h.levels level hl, Option.map_some, hfiles, countP_append, Nat.cast_add]
    congr 3
    exact countP_congr fun f hf => by simp [isLiveAt, hlive f (hkept f hf)]
  · rw [hfiles] at hf
    exact (mem_append.mp hf).elim (h.inBounds f) fun hf => hlevel f (hkept f hf)

theorem find_transit_of_ne (fs : Files) {m : UInt64} (h : m ≠ n) (event : FileEvent) :
    (fs.transit n event).find m = fs.find m := by
  have hkeep : ∀ f g, (if number f = n then f.fileStateTransit event else f) = g → number g = m → f = g := by
    intro f g hg hm
    split at hg
    · rename_i hn
      rw [← hg, number, fileStateTransit_file] at hm
      exact absurd (hm.symm.trans hn) h
    · exact hg
  apply Option.ext
  intro g
  rw [Files.find_eq_some, Files.find_eq_some, Files.transit, mem_map]
  constructor
  · rintro ⟨⟨f, hf, hg⟩, hm⟩
    exact ⟨hkeep f g hg hm ▸ hf, hm⟩
  · rintro ⟨hg, hm⟩
    exact ⟨⟨g, hg, if_neg (hm ▸ h)⟩, hm⟩

theorem find_transit_self {fs : Files} (h : fs.find n = some f) (event : FileEvent) :
    (fs.transit n event).find n = some (f.fileStateTransit event) := by
  obtain ⟨hmem, hn⟩ := Files.find_eq_some.mp h
  refine Files.find_eq_some.mpr ⟨mem_map.mpr ⟨f, hmem, if_pos hn⟩, ?_⟩
  rw [number, fileStateTransit_file]
  exact hn

/-! ## Agreement with `Tracking` -/

theorem find_emplace (fs : Files) (f : TrackedFile) :
    (fs.emplace f).find = update fs.find (number f) (some ((fs.find (number f)).getD f)) := by
  rw [Files.emplace]
  split
  · rename_i hnone
    funext n
    by_cases hn : n = number f
    · subst hn
      rw [update_self, hnone, Files.find_eq_some]
      exact ⟨mem_append_right _ (mem_singleton.mpr rfl), rfl⟩
    · rw [update_of_ne hn]
      exact find_of_append rfl (by simpa using hn)
  · rename_i hsome
    obtain ⟨g, hg⟩ := Option.ne_none_iff_exists'.mp hsome
    rw [hg, Option.getD_some, ← hg, update_eq_self]

theorem tracked_addBlobFile [Std.TransCmp compare] {st st' : IndexedStorage compare}
    (h : st.addBlobFile f = some st') : st'.tracked = st.tracked.addBlobFile f := by
  obtain ⟨counts, -, rfl⟩ := Option.map_eq_some_iff.mp h
  exact congrArg (Storage.mk · _) (find_emplace st.files f)

theorem tracked_markFileObsolete {st st' : IndexedStorage compare} {q : Nat}
    (h : st.markFileObsolete n q = some st') : st.tracked.markFileObsolete n q = some st'.tracked := by
  rw [IndexedStorage.markFileObsolete] at h
  cases hf : st.files.find n with
  | none => rw [hf] at h; cases h
  | some f =>
    rw [hf] at h
    obtain ⟨counts, -, rfl⟩ := Option.map_eq_some_iff.mp h
    rw [Storage.markFileObsolete, show st.tracked.files n = some f from hf]
    refine congrArg some (congrArg (Storage.mk · _) (funext fun m => ?_))
    by_cases hm : m = n
    · subst hm
      rw [update_self]
      exact (find_transit_self hf .delete).symm
    · rw [update_of_ne hm]
      exact (find_transit_of_ne _ hm .delete).symm

/-- A loop over the containers that skips what the edit pairs, and the loop over the files. -/
theorem tracked_foldlM {α : Type} (skip : α → Bool) {as : List α}
    {step : IndexedStorage compare → α → Option (IndexedStorage compare)} {step' : Storage → α → Storage}
    (hstep : ∀ {st a st'}, step st a = some st' → st'.tracked = step' st.tracked a)
    {st st' : IndexedStorage compare}
    (h : as.foldlM (fun st a => if skip a then some st else step st a) st = some st') :
    st'.tracked = as.foldl (fun st a => if skip a then st else step' st a) st.tracked := by
  induction as generalizing st with
  | nil =>
    cases h
    rfl
  | cons a as ih =>
    rw [foldlM_cons] at h
    obtain ⟨st₁, hst₁, hrest⟩ := Option.bind_eq_some_iff.mp h
    rw [foldl_cons, ih hrest]
    split at hst₁ <;> rename_i hskip
    · cases hst₁
      rw [if_pos hskip]
    · rw [if_neg hskip, hstep hst₁]

/-- `Apply` on the containers is `Apply` on the files by number. -/
theorem tracked_apply [Std.TransCmp compare] {st st' : IndexedStorage compare} {e : Edit}
    (h : st.apply e = some st') : st'.tracked = st.tracked.apply e := by
  obtain ⟨st₁, hadd, hdelete⟩ := Option.bind_eq_some_iff.mp h
  have hadded := tracked_foldlM _ tracked_addBlobFile hadd
  refine (tracked_foldlM _ (fun hd => ?_) hdelete).trans (congrArg (e.deletedFiles.foldl _) hadded)
  rw [tracked_markFileObsolete hd, Option.getD_some]

/-- The files that an edit makes obsolete, but for those that are skipped. -/
theorem CoherentWith.deleteFiles (skip : UInt64 → Bool) {deleted : List (UInt64 × Nat)}
    (h : CoherentWith numLevels obsolete st) (hnodup : (deleted.map (·.1)).Nodup)
    (hfound : ∀ d ∈ deleted, skip d.1 = true ∨ ∃ f, st.files.find d.1 = some f ∧ f.isObsolete = false) :
    ∃ st', deleted.foldlM
      (fun st d => if skip d.1 then some st else st.markFileObsolete d.1 d.2) st = some st' ∧
      CoherentWith numLevels (obsolete ++ deleted.filter fun d => !skip d.1) st' ∧
      st'.obsoleteFiles = st.obsoleteFiles ++ deleted.filter (fun d => !skip d.1) ∧
      st'.files.list.map number = st.files.list.map number := by
  induction deleted generalizing st obsolete with
  | nil => exact ⟨st, rfl, by rw [filter_nil, append_nil]; exact h, (append_nil _).symm, rfl⟩
  | cons d deleted ih =>
    rw [map_cons, nodup_cons] at hnodup
    rw [foldlM_cons]
    cases hskip : skip d.1 with
    | true =>
      rw [filter_cons_of_neg (by simp [hskip])]
      exact ih h hnodup.2 fun d' hd' => hfound d' (mem_cons_of_mem d hd')
    | false =>
      rcases hfound d mem_cons_self with hskip' | ⟨f, hf, hlive⟩
      · rw [hskip] at hskip'
        cases hskip'
      · obtain ⟨st₁, hmark, hcoherent, hfiles, hobsolete⟩ := h.markFileObsolete hf hlive d.2
        have hrest : ∀ d' ∈ deleted, skip d'.1 = true ∨
            ∃ f, st₁.files.find d'.1 = some f ∧ f.isObsolete = false := by
          intro d' hd'
          have hne : d'.1 ≠ d.1 := fun heq => hnodup.1 (heq ▸ mem_map_of_mem hd')
          rw [hfiles, find_transit_of_ne _ hne]
          exact hfound d' (mem_cons_of_mem d hd')
        obtain ⟨st', hfold, hcoherent', hobsolete', hnumbers⟩ := ih hcoherent hnodup.2 hrest
        rw [append_assoc, singleton_append] at hcoherent'
        rw [hobsolete, append_assoc, singleton_append] at hobsolete'
        rw [filter_cons_of_pos (by simp [hskip])]
        refine ⟨st', ?_, hcoherent', hobsolete', ?_⟩
        · simp only [Bool.false_eq_true, ↓reduceIte, hmark]
          exact hfold
        · rw [hnumbers, hfiles]
          exact numbers_transit ..

end

/-! ## Runs -/

/-- The open column families: their storages are made with as many levels as their options say. -/
structure Families where
  ids : List UInt32
  nodup : ids.Nodup
  numLevels : UInt32 → Nat

structure State (compare : Bytes → Bytes → Ordering) where
  storage : UInt32 → IndexedStorage compare
  /-- Ghost: the numbers of the files that edits have added. -/
  used : List UInt64 := []
  /-- Ghost: the files that have been reported for deletion. -/
  reported : List UInt64 := []

inductive Op where
  | logAndApply (w : Write) (edit : Edit)
  | gcBegin (cf : UInt32) (n : UInt64)
  | gcCompleted (cf : UInt32) (n : UInt64)
  | getObsoleteFiles (oldestSequence : Nat)

variable {numLevels : Nat} {event : FileEvent} {e : Edit}

section

variable (F : Families) {compare : Bytes → Bytes → Ordering}

def opened (compare : Bytes → Bytes → Ordering) : State compare where
  storage cf := { levelsFileCount := List.replicate (F.numLevels cf) 0 }

def State.openSet (s : State compare) : OpenSet :=
  { columnFamilies := F.ids.map fun cf => (cf, (s.storage cf).tracked.erase) }

def State.setStorage (s : State compare) (cf : UInt32) (st : IndexedStorage compare) : State compare :=
  { s with storage := update s.storage cf st }

@[simp] theorem State.setStorage_self (s : State compare) (cf : UInt32) (st : IndexedStorage compare) :
    (s.setStorage cf st).storage cf = st := update_self ..

theorem State.setStorage_of_ne (s : State compare) {cf cf' : UInt32} (h : cf' ≠ cf)
    (st : IndexedStorage compare) : (s.setStorage cf st).storage cf' = s.storage cf' :=
  update_of_ne h ..

/-- An edit that is refused, or whose write fails, changes nothing; one for a column family
that is not open is only logged. -/
def State.logAndApply [Std.TransCmp compare] (s : State compare) (w : Write) (e : Edit) :
    Option (State compare) :=
  match ((s.openSet F).logAndApply w e.toVersionEdit).1 with
  | some _ => some s
  | none =>
    if e.columnFamilyId ∈ F.ids then
      ((s.storage e.columnFamilyId).apply e).map fun st =>
        { s.setStorage e.columnFamilyId st with used := s.used ++ e.addedFiles.map number }
    else some s

def State.transit (s : State compare) (cf : UInt32) (n : UInt64) (event : FileEvent) : State compare :=
  s.setStorage cf { s.storage cf with files := (s.storage cf).files.transit n event }

def State.getObsoleteFiles (s : State compare) (oldestSequence : Nat) : State compare :=
  { s with
    storage := fun cf => if cf ∈ F.ids then ((s.storage cf).getObsoleteFiles oldestSequence).1
      else s.storage cf
    reported := s.reported ++ F.ids.flatMap fun cf => ((s.storage cf).getObsoleteFiles oldestSequence).2 }

/-- `none` once a call has gone out of bounds. -/
def exec [Std.TransCmp compare] : Option (State compare) → Op → Option (State compare)
  | none, _ => none
  | some s, .logAndApply w e => s.logAndApply F w e
  | some s, .gcBegin cf n => some (s.transit cf n .gcBegin)
  | some s, .gcCompleted cf n => some (s.transit cf n .gcCompleted)
  | some s, .getObsoleteFiles oldestSequence => some (s.getObsoleteFiles F oldestSequence)

/-- What the callers see to: an added file is not obsolete, its number is from
`NewFileNumber` and its level is one of the column family; a job begins with files that are
in the normal state. -/
def Promised : Option (State compare) → Op → Prop
  | some s, .logAndApply _ e => ∀ f ∈ e.addedFiles, f.state ≠ .obsolete ∧ number f ∉ s.used ∧
      f.file.fileLevel.toNat < F.numLevels e.columnFamilyId
  | some s, .gcBegin cf n => ∀ f, (s.storage cf).files.find n = some f → f.state = .normal
  | _, _ => True

/-- A file that `GetObsoleteFiles` reports is obsolete, since a sequence number before the
oldest one. -/
def ReportsObsolete : Option (State compare) → Op → Prop
  | some s, .getObsoleteFiles oldestSequence =>
    ∀ n, n ∈ (s.getObsoleteFiles F oldestSequence).reported → n ∈ s.reported ∨
      ∃ cf ∈ F.ids, ∃ f obsoleteSequence, (s.storage cf).files.find n = some f ∧ f.state = .obsolete ∧
        (n, obsoleteSequence) ∈ (s.storage cf).obsoleteFiles ∧ obsoleteSequence < oldestSequence
  | _, _ => True

def IndexedStorage.numbers (st : IndexedStorage compare) : List UInt64 := st.files.list.map number

structure Inv (s : State compare) : Prop where
  coherent : ∀ cf, Coherent (F.numLevels cf) (s.storage cf)
  used : ∀ cf, ∀ n ∈ (s.storage cf).numbers, n ∈ s.used
  apart : ∀ cf cf', cf ≠ cf' → ∀ n ∈ (s.storage cf).numbers, n ∉ (s.storage cf').numbers
  once : s.reported.Nodup
  gone : ∀ n ∈ s.reported, n ∈ s.used ∧ ∀ cf, n ∉ (s.storage cf).numbers

variable {F}

theorem inv_opened : Inv F (opened F compare) where
  coherent cf := by
    refine ⟨.nil, .nil, fun level hlevel => ?_, length_replicate, forall_mem_nil _⟩
    rw [opened, getElem?_replicate, if_pos hlevel]
    rfl
  used cf n hn := absurd hn not_mem_nil
  apart cf cf' _ n hn := absurd hn not_mem_nil
  once := .nil
  gone n hn := absurd hn not_mem_nil

/-! ### Transitions -/

/-- A transition that does not change whether the file is obsolete. -/
theorem CoherentWith.transit {obsolete : List (UInt64 × Nat)} {st : IndexedStorage compare}
    (h : CoherentWith numLevels obsolete st)
    (hkeep : ∀ f, st.files.find n = some f → (f.fileStateTransit event).isObsolete = f.isObsolete) :
    CoherentWith numLevels obsolete { st with files := st.files.transit n event } := by
  have hsame : ∀ f ∈ st.files.list, (if number f = n then f.fileStateTransit event else f).file = f.file ∧
      (if number f = n then f.fileStateTransit event else f).isObsolete = f.isObsolete := by
    intro f hf
    split
    · rename_i hn
      exact ⟨fileStateTransit_file f event, hkeep f (Files.find_eq_some.mpr ⟨hf, hn⟩)⟩
    · exact ⟨rfl, rfl⟩
  refine ⟨?_, ?_, ?_, h.length, ?_⟩
  · refine h.ranges.trans (.of_eq ?_)
    rw [Files.transit, map_map]
    refine map_congr_left fun f hf => ?_
    rw [comp_apply, rangeEntry, rangeEntry, (hsame f hf).1]
  · refine h.obsolete.trans (.of_eq ?_)
    rw [Files.transit, filter_map, map_map]
    have hfilter : st.files.list.filter ((·.isObsolete) ∘ fun f =>
        if number f = n then f.fileStateTransit event else f) = st.files.list.filter (·.isObsolete) :=
      filter_congr fun f hf => (hsame f hf).2
    rw [hfilter]
    refine map_congr_left fun f hf => ?_
    exact congrArg BlobFileMeta.fileNumber (hsame f (mem_filter.mp hf).1).1.symm
  · intro level hlevel
    refine (h.levels level hlevel).trans ?_
    rw [Files.transit, countP_map]
    refine congrArg _ (congrArg _ (countP_congr fun f hf => ?_))
    rw [comp_apply, isLiveAt, isLiveAt, (hsame f hf).1, (hsame f hf).2]
  · intro g hg
    obtain ⟨f, hf, rfl⟩ := mem_map.mp hg
    rw [(hsame f hf).1]
    exact h.inBounds f hf

/-- One storage changes and keeps its files. -/
theorem Inv.setStorage {s : State compare} (h : Inv F s) {cf : UInt32} {st : IndexedStorage compare}
    (hst : Coherent (F.numLevels cf) st) (hnumbers : st.numbers = (s.storage cf).numbers) :
    Inv F (s.setStorage cf st) := by
  have hsame : ∀ cf', ((s.setStorage cf st).storage cf').numbers = (s.storage cf').numbers := by
    intro cf'
    by_cases hcf : cf' = cf
    · subst hcf
      rw [State.setStorage_self]
      exact hnumbers
    · rw [State.setStorage_of_ne s hcf]
  refine ⟨fun cf' => ?_, fun cf' n hn => ?_, fun cf₁ cf₂ hne n hn => ?_, h.once, fun n hn => ?_⟩
  · by_cases hcf : cf' = cf
    · subst hcf
      rw [State.setStorage_self]
      exact hst
    · rw [State.setStorage_of_ne s hcf]
      exact h.coherent cf'
  · rw [hsame] at hn
    exact h.used cf' n hn
  · rw [hsame] at hn ⊢
    exact h.apart cf₁ cf₂ hne n hn
  · refine ⟨(h.gone n hn).1, fun cf' => ?_⟩
    rw [hsame]
    exact (h.gone n hn).2 cf'

theorem Inv.transit {s : State compare} (h : Inv F s) {cf : UInt32}
    (hkeep : ∀ f, (s.storage cf).files.find n = some f →
      (f.fileStateTransit event).isObsolete = f.isObsolete) :
    Inv F (s.transit cf n event) :=
  h.setStorage ((h.coherent cf).transit hkeep) (numbers_transit _ n event)

theorem gcCompleted_isObsolete (f : TrackedFile) :
    (f.fileStateTransit .gcCompleted).isObsolete = f.isObsolete := by
  rw [TrackedFile.fileStateTransit]
  split
  · rfl
  · rename_i hstate
    simp [TrackedFile.isObsolete, hstate]

theorem gcBegin_isObsolete (hf : f.state = .normal) :
    (f.fileStateTransit .gcBegin).isObsolete = f.isObsolete := by
  simp [TrackedFile.fileStateTransit, TrackedFile.isObsolete, hf]

/-! ### Edits -/

/-- What the checks of an edit say about the storage of its column family. -/
theorem fits_storage {set : OpenSet} {st : Storage}
    (hown : Consistent [numbered set e.toVersionEdit])
    (hfit : Fits (gathered [numbered set e.toVersionEdit] e.columnFamilyId) st.erase) :
    (e.addedFiles.map number).Nodup ∧ (e.deletedFiles.map (·.1)).Nodup ∧
      (∀ f ∈ e.addedFiles, st.files (number f) = none) ∧
      ∀ d ∈ e.deletedFiles, d.1 ∈ e.addedFiles.map number ∨ ∃ f, st.files d.1 = some f ∧
        f.isObsolete = false := by
  have hadded := hown.addedOnce e.columnFamilyId
  have hdeleted := hown.deletedOnce e.columnFamilyId
  rw [gathered_numbered, if_pos (show e.toVersionEdit.columnFamilyId = e.columnFamilyId from rfl)] at hfit
  rw [addedTo_singleton,
    if_pos (show (numbered _ e.toVersionEdit).columnFamilyId = e.columnFamilyId from rfl)]
    at hadded
  rw [deletedFrom_singleton,
    if_pos (show (numbered _ e.toVersionEdit).columnFamilyId = e.columnFamilyId from rfl)] at hdeleted
  have hnumbers : (e.toVersionEdit.addedFiles.map (·.fileNumber)) = e.addedFiles.map number := by
    rw [Edit.toVersionEdit, map_map]
    rfl
  refine ⟨hnumbers ▸ hadded, hdeleted, fun f hf => ?_, fun d hd => ?_⟩
  · have hnone := hfit.added f.file (mem_map_of_mem hf)
    exact Option.map_eq_none_iff.mp hnone
  · rcases hfit.deleted d hd with hin | ⟨g, hg, hlive⟩
    · exact .inl (hnumbers ▸ hin)
    · obtain ⟨f, hf, rfl⟩ := Option.map_eq_some_iff.mp hg
      exact .inr ⟨f, hf, hlive⟩

/-- What the checks of `LogAndApply` say about the storage of an open column family. -/
theorem checked_storage {s : State compare} {w : Write}
    (happlied : ((s.openSet F).logAndApply w e.toVersionEdit).1 = none)
    (hcf : e.columnFamilyId ∈ F.ids) :
    (e.addedFiles.map number).Nodup ∧ (e.deletedFiles.map (·.1)).Nodup ∧
      (∀ f ∈ e.addedFiles, (s.storage e.columnFamilyId).files.find (number f) = none) ∧
      ∀ d ∈ e.deletedFiles, d.1 ∈ e.addedFiles.map number ∨
        ∃ f, (s.storage e.columnFamilyId).files.find d.1 = some f ∧ f.isObsolete = false := by
  rcases logAndApply_cases (s.openSet F) w e.toVersionEdit with ⟨status, h⟩ | ⟨hown, hfits, -⟩
  · rw [h] at happlied
    cases happlied
  · exact fits_storage hown (hfits (e.columnFamilyId, (s.storage e.columnFamilyId).tracked.erase)
      (mem_map_of_mem hcf))

/-- An edit that passes the checks is applied, and the storage stays coherent. -/
theorem Coherent.apply [Std.TransCmp compare] {st : IndexedStorage compare}
    (h : Coherent numLevels st) (hadded : (e.addedFiles.map number).Nodup)
    (hdeleted : (e.deletedFiles.map (·.1)).Nodup)
    (hnew : ∀ f ∈ e.addedFiles, st.files.find (number f) = none)
    (hlive : ∀ f ∈ e.addedFiles, f.isObsolete = false)
    (hlevel : ∀ f ∈ e.addedFiles, f.file.fileLevel.toNat < numLevels)
    (hfound : ∀ d ∈ e.deletedFiles, d.1 ∈ e.addedFiles.map number ∨
      ∃ f, st.files.find d.1 = some f ∧ f.isObsolete = false) :
    ∃ st', st.apply e = some st' ∧ Coherent numLevels st' ∧
      ∀ n ∈ st'.numbers, n ∈ st.numbers ∨ n ∈ e.addedFiles.map number := by
  obtain ⟨st₁, hadd, hcoherent, hobsolete, hfiles⟩ :=
    h.addFiles (fun n => e.deletedFiles.any (·.1 == n)) hadded hnew hlive hlevel
  have hfound' : ∀ d ∈ e.deletedFiles, (e.addedFiles.any (number · == d.1)) = true ∨
      ∃ f, st₁.files.find d.1 = some f ∧ f.isObsolete = false := by
    intro d hd
    rcases hfound d hd with hin | ⟨f, hf, hobs⟩
    · obtain ⟨g, hg, hgn⟩ := mem_map.mp hin
      exact .inl (any_eq_true.mpr ⟨g, hg, beq_iff_eq.mpr hgn⟩)
    · obtain ⟨hmem, hn⟩ := Files.find_eq_some.mp hf
      refine .inr ⟨f, Files.find_eq_some.mpr ⟨?_, hn⟩, hobs⟩
      rw [hfiles]
      exact mem_append_left _ hmem
  rw [← hobsolete] at hcoherent
  obtain ⟨st', hdelete, hcoherent', hobsolete', hnumbers⟩ :=
    hcoherent.deleteFiles (fun n => e.addedFiles.any (number · == n)) hdeleted hfound'
  rw [← hobsolete'] at hcoherent'
  refine ⟨st', ?_, hcoherent', fun n hn => ?_⟩
  · rw [IndexedStorage.apply, hadd]
    exact hdelete
  · rw [IndexedStorage.numbers, hnumbers, hfiles, map_append] at hn
    rcases mem_append.mp hn with hn | hn
    · exact .inl hn
    · obtain ⟨f, hf, rfl⟩ := mem_map.mp hn
      exact .inr (mem_map_of_mem (mem_filter.mp hf).1)

theorem Inv.logAndApply [Std.TransCmp compare] {s : State compare} (h : Inv F s) (w : Write)
    (hpromised : ∀ f ∈ e.addedFiles, f.state ≠ .obsolete ∧ number f ∉ s.used ∧
      f.file.fileLevel.toNat < F.numLevels e.columnFamilyId) :
    ∃ s', s.logAndApply F w e = some s' ∧ Inv F s' := by
  rw [State.logAndApply]
  split
  · exact ⟨s, rfl, h⟩
  · rename_i happlied
    split
    · rename_i hcf
      obtain ⟨hadded, hdeleted, hnew, hfound⟩ := checked_storage happlied hcf
      obtain ⟨st, hst, hcoherent, hnumbers⟩ := (h.coherent e.columnFamilyId).apply hadded hdeleted hnew
        (fun f hf => by simpa [TrackedFile.isObsolete] using (hpromised f hf).1)
        (fun f hf => (hpromised f hf).2.2) hfound
      rw [hst]
      refine ⟨_, rfl, ?_⟩
      -- the numbers of the added files are new to every storage
      have hfresh : ∀ n ∈ e.addedFiles.map number, n ∉ s.used :=
        forall_mem_map.mpr fun f hf => (hpromised f hf).2.1
      have hin : ∀ cf, ∀ n ∈ ((s.setStorage e.columnFamilyId st).storage cf).numbers,
          n ∈ (s.storage cf).numbers ∨ cf = e.columnFamilyId ∧ n ∈ e.addedFiles.map number := by
        intro cf n hn
        by_cases hcf : cf = e.columnFamilyId
        · subst hcf
          rw [State.setStorage_self] at hn
          exact (hnumbers n hn).imp id fun hadd => ⟨rfl, hadd⟩
        · rw [State.setStorage_of_ne s hcf] at hn
          exact .inl hn
      refine ⟨fun cf => ?_, fun cf n hn => ?_, fun cf cf' hne n hn hn' => ?_, h.once, fun n hn =>
        ⟨?_, fun cf hmem => ?_⟩⟩
      · by_cases hcf : cf = e.columnFamilyId
        · subst hcf
          change Coherent _ ((s.setStorage e.columnFamilyId st).storage e.columnFamilyId)
          rw [State.setStorage_self]
          exact hcoherent
        · change Coherent _ ((s.setStorage e.columnFamilyId st).storage cf)
          rw [State.setStorage_of_ne s hcf]
          exact h.coherent cf
      · rcases hin cf n hn with hold | ⟨-, hadd⟩
        · exact mem_append_left _ (h.used cf n hold)
        · exact mem_append_right _ hadd
      · rcases hin cf n hn with hold | ⟨rfl, hadd⟩
        · rcases hin cf' n hn' with hold' | ⟨-, hadd'⟩
          · exact h.apart cf cf' hne n hold hold'
          · exact hfresh n hadd' (h.used cf n hold)
        · rcases hin cf' n hn' with hold' | ⟨rfl, -⟩
          · exact hfresh n hadd (h.used cf' n hold')
          · exact hne rfl
      · exact mem_append_left _ (h.gone n hn).1
      · rcases hin cf n hmem with hold | ⟨-, hadd⟩
        · exact (h.gone n hn).2 cf hold
        · exact hfresh n hadd (h.gone n hn).1
    · exact ⟨s, rfl, h⟩

/-! ### Purges -/

section

variable [Std.TransCmp compare] {s : State compare} (h : Inv F s) (oldestSequence : Nat)

include h

/-- What one storage reports, and what stays in it. -/
theorem Inv.purged (cf : UInt32) :
    Coherent (F.numLevels cf) ((s.storage cf).getObsoleteFiles oldestSequence).1 ∧
      ((s.storage cf).getObsoleteFiles oldestSequence).2.Nodup ∧
      (∀ n ∈ ((s.storage cf).getObsoleteFiles oldestSequence).2,
        (∃ f obsoleteSequence, (s.storage cf).files.find n = some f ∧ f.state = .obsolete ∧
          (n, obsoleteSequence) ∈ (s.storage cf).obsoleteFiles ∧ obsoleteSequence < oldestSequence) ∧
        n ∈ (s.storage cf).numbers) ∧
      ∀ n ∈ ((s.storage cf).getObsoleteFiles oldestSequence).1.numbers,
        n ∈ (s.storage cf).numbers ∧ n ∉ ((s.storage cf).getObsoleteFiles oldestSequence).2 := by
  have hstart : CoherentWith (F.numLevels cf) ([] ++ (s.storage cf).obsoleteFiles) (s.storage cf) :=
    h.coherent cf
  have hpurge := hstart.purge oldestSequence
  have hreported := purge_reported oldestSequence (s.storage cf).obsoleteFiles (s.storage cf)
  obtain ⟨hcoherent, hfound, hfiles⟩ := hpurge
  rw [← IndexedStorage.getObsoleteFiles] at hcoherent hfound hfiles hreported
  refine ⟨hcoherent, ?_, fun n hn => ?_, fun n hn => ?_⟩
  · rw [hreported]
    exact (h.coherent cf).nodup.sublist (filter_sublist.map _)
  · obtain ⟨f, hf, hobsolete⟩ := hfound n hn
    rw [hreported] at hn
    obtain ⟨d, hd, rfl⟩ := mem_map.mp hn
    obtain ⟨hmem, hold⟩ := mem_filter.mp hd
    obtain ⟨hfmem, hfn⟩ := Files.find_eq_some.mp hf
    exact ⟨⟨f, d.2, hf, by simpa [TrackedFile.isObsolete] using hobsolete, hmem, by simpa using hold⟩,
      mem_map.mpr ⟨f, hfmem, hfn⟩⟩
  · obtain ⟨f, hf, rfl⟩ := mem_map.mp hn
    obtain ⟨hmem, hnot⟩ := hfiles f hf
    exact ⟨mem_map_of_mem hmem, hnot⟩

theorem Inv.getObsoleteFiles : Inv F (s.getObsoleteFiles F oldestSequence) := by
  have hin : ∀ cf, ∀ n ∈ ((s.getObsoleteFiles F oldestSequence).storage cf).numbers,
      n ∈ (s.storage cf).numbers ∧
        (cf ∈ F.ids → n ∉ ((s.storage cf).getObsoleteFiles oldestSequence).2) := by
    intro cf n hn
    rw [State.getObsoleteFiles] at hn
    dsimp only at hn
    split at hn
    · obtain ⟨hmem, hnot⟩ := (h.purged oldestSequence cf).2.2.2 n hn
      exact ⟨hmem, fun _ => hnot⟩
    · rename_i hcf
      exact ⟨hn, fun hid => absurd hid hcf⟩
  refine ⟨fun cf => ?_, fun cf n hn => h.used cf n (hin cf n hn).1,
    fun cf cf' hne n hn hn' => h.apart cf cf' hne n (hin cf n hn).1 (hin cf' n hn').1, ?_, fun n hn => ?_⟩
  · rw [State.getObsoleteFiles]
    dsimp only
    split
    · exact (h.purged oldestSequence cf).1
    · exact h.coherent cf
  · refine nodup_append.mpr ⟨h.once, ?_, ?_⟩
    · refine nodup_flatMap.mpr ⟨fun cf _ => (h.purged oldestSequence cf).2.1, ?_⟩
      refine F.nodup.imp fun hne n hn hn' => ?_
      exact h.apart _ _ hne n ((h.purged oldestSequence _).2.2.1 n hn).2
        ((h.purged oldestSequence _).2.2.1 n hn').2
    · rintro n hn m hm rfl
      obtain ⟨cf, -, hmem⟩ := mem_flatMap.mp hm
      exact (h.gone n hn).2 cf ((h.purged oldestSequence cf).2.2.1 n hmem).2
  · rcases mem_append.mp hn with hold | hnew
    · exact ⟨(h.gone n hold).1, fun cf hmem => (h.gone n hold).2 cf (hin cf n hmem).1⟩
    · obtain ⟨cf, hcf, hmem⟩ := mem_flatMap.mp hnew
      have hhere := ((h.purged oldestSequence cf).2.2.1 n hmem).2
      refine ⟨h.used cf n hhere, fun cf' hmem' => ?_⟩
      obtain ⟨hthere, hnot⟩ := hin cf' n hmem'
      by_cases heq : cf = cf'
      · subst heq
        exact hnot hcf hmem
      · exact h.apart cf cf' heq n hhere hthere

end

/-! ### The run -/

def InvSome (F : Families) (s : Option (State compare)) : Prop := ∃ t, s = some t ∧ Inv F t

theorem InvSome.exec [Std.TransCmp compare] (s : Option (State compare)) (op : Op) (h : InvSome F s)
    (hpromised : Promised F s op) : InvSome F (exec F s op) := by
  obtain ⟨t, rfl, hinv⟩ := h
  cases op with
  | logAndApply w e => exact hinv.logAndApply w hpromised
  | gcBegin cf n => exact ⟨_, rfl, hinv.transit fun f hf => gcBegin_isObsolete (hpromised f hf)⟩
  | gcCompleted cf n => exact ⟨_, rfl, hinv.transit fun f _ => gcCompleted_isObsolete f⟩
  | getObsoleteFiles oldestSequence => exact ⟨_, rfl, hinv.getObsoleteFiles oldestSequence⟩

theorem InvSome.reportsObsolete [Std.TransCmp compare] (s : Option (State compare)) (op : Op)
    (h : InvSome F s)
    (_ : Promised F s op) : ReportsObsolete F s op := by
  obtain ⟨t, rfl, hinv⟩ := h
  cases op with
  | logAndApply w e => trivial
  | gcBegin cf n => trivial
  | gcCompleted cf n => trivial
  | getObsoleteFiles oldestSequence =>
    intro n hn
    rcases mem_append.mp hn with hold | hnew
    · exact .inl hold
    · obtain ⟨cf, hcf, hmem⟩ := mem_flatMap.mp hnew
      exact .inr ⟨cf, hcf, ((hinv.purged oldestSequence cf).2.2.1 n hmem).1⟩

/-- In every run of edits, jobs and purges, with whatever comparator orders the keys: no call
goes out of bounds, the containers of every open column family stay coherent, no file is
reported twice, and each file that is reported is obsolete since before the oldest sequence. -/
theorem indexes_coherent [Std.TransCmp compare] (F : Families) {ops : List Op}
    (h : Along (exec F) (Promised F) (some (opened F compare)) ops) :
    Always (exec F) (fun s => ∃ t : State compare, s = some t ∧ t.reported.Nodup ∧
        ∀ cf ∈ F.ids, Coherent (F.numLevels cf) (t.storage cf)) (some (opened F compare)) ops ∧
      Along (exec F) (ReportsObsolete F) (some (opened F compare)) ops := by
  have hstart : InvSome F (some (opened F compare)) := ⟨_, rfl, inv_opened⟩
  constructor
  · refine Along.always (InvSome F) InvSome.exec (fun s hs => ?_) hstart h
    obtain ⟨t, rfl, hinv⟩ := hs
    exact ⟨t, rfl, hinv.once, fun cf _ => hinv.coherent cf⟩
  · exact Along.imp (InvSome F) InvSome.exec InvSome.reportsObsolete hstart h

theorem promised_of_no_adds (s : Option (State compare)) (w : Write) (he : e.addedFiles = []) :
    Promised F s (.logAndApply w e) := by
  cases s with
  | none => trivial
  | some t =>
    intro f hf
    rw [he] at hf
    exact absurd hf not_mem_nil

theorem promised_getObsoleteFiles (s : Option (State compare)) (oldestSequence : Nat) :
    Promised F s (.getObsoleteFiles oldestSequence) := by
  cases s <;> trivial

end

def oneFamily : Families := ⟨[0], nodup_singleton 0, fun _ => 2⟩

/-- Two files with the empty smallest key are added; one of them becomes obsolete and is
purged. -/
def twoFiles : List Op :=
  [.logAndApply .ok { addedFiles := [{ file := { fileNumber := 5 }, state := .pendingLSM },
      { file := { fileNumber := 6, fileLevel := 1 }, state := .pendingLSM }] },
    .logAndApply .ok { deletedFiles := [(5, 3)] }, .getObsoleteFiles 4]

theorem twoFiles_coherent :
    ∃ t : State (compareOn List.length),
      twoFiles.foldl (exec oneFamily) (some (opened oneFamily _)) = some t ∧
      t.reported.Nodup ∧ Coherent 2 (t.storage 0) := by
  have hpromised : Along (exec oneFamily) (Promised oneFamily)
      (some (opened oneFamily (compareOn List.length))) twoFiles := by
    refine ⟨?_, promised_of_no_adds _ _ rfl, promised_getObsoleteFiles _ _, trivial⟩
    intro f hf
    rcases mem_cons.mp hf with rfl | hf
    · exact ⟨by decide, not_mem_nil, by decide⟩
    · obtain rfl := mem_singleton.mp hf
      exact ⟨by decide, not_mem_nil, by decide⟩
  obtain ⟨t, ht, hnodup, hcoherent⟩ := (indexes_coherent oneFamily hpromised).1.last
  exact ⟨t, ht, hnodup, hcoherent 0 mem_cons_self⟩

end TitanGC.Accounting.StorageIndexes
