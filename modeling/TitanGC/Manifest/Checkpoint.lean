import TitanGC.Manifest.Logging

/-!
# Creating a checkpoint

`CreateCustomCheckpoint` links the blob files of all column families into a private
directory, or copies them once linking turns out not to be supported, writes a manifest
of its own with all version edits, and makes `CURRENT` point to it. The loop has one
status that each file overwrites; the manifest comes after the blob files. The result of
creating `CURRENT` is dropped.
-/

namespace TitanGC.Manifest.Checkpoint

open Lib.ByteCoding Format.Coding List VersionEdits Logging

/-! ## The list of files -/

/-- A file name as `ParseFileName` takes it apart. -/
inductive TitanFile where
  | blobFile (number : UInt64)
  | descriptorFile (number : UInt64)
  | currentFile
  | unparsed (name : String)
  deriving Repr, DecidableEq

/-- `BlobFileSet::GetAllFiles`: the blob files of every column family, obsolete ones
included, then the manifest and `CURRENT`; and the edits of a manifest for them. -/
def getAllFiles (set : OpenSet) (manifestFileNumber : UInt64)
    (iterate : BlobStorage → List (UInt64 × StoredFile)) : List TitanFile × List VersionEdit :=
  ((set.columnFamilies.flatMap fun cf => (iterate cf.2).map fun f => .blobFile f.1) ++
      [.descriptorFile manifestFileNumber, .currentFile],
    { nextFileNumber := some set.nextFileNumber } ::
      set.columnFamilies.map fun cf =>
        { columnFamilyId := cf.1, addedFiles := (iterate cf.2).map (·.2.file) })

/-- `GetAllTitanFiles`: `DisableFileDeletions` and `EnableFileDeletions` may fail. -/
def getAllTitanFiles (disable enable : Option Status) (set : OpenSet) (manifestFileNumber : UInt64)
    (iterate : BlobStorage → List (UInt64 × StoredFile)) :
      Except Status (List TitanFile × List VersionEdit) :=
  match disable with
  | some s => .error s
  | none =>
    match enable with
    | some s => .error s
    | none => .ok (getAllFiles set manifestFileNumber iterate)

/-! ## The loop over the files -/

/-- How the calls end: links and copies by the position of the file in the list, and the
records of the manifest by theirs. -/
structure Ops where
  linkFile : Nat → Option Status
  copyFile : Nat → Option Status
  newWritableFile : Option Status
  addRecord : Nat → Option Status
  sync : Option Status
  createFile : Option Status

structure Dir where
  blobFiles : List UInt64 := []
  manifest : Option (UInt64 × List Bytes) := none
  /-- The manifest that `CURRENT` names. -/
  current : Option UInt64 := none

/-- The records that are written before the first failure, and its status. -/
def addRecords (ops : Ops) : Nat → List VersionEdit → List Bytes × Option Status
  | _, [] => ([], none)
  | i, edit :: edits =>
    match ops.addRecord i with
    | some s => ([], some s)
    | none => (edit.encodeTo :: (addRecords ops (i + 1) edits).1, (addRecords ops (i + 1) edits).2)

def createTitanManifest (ops : Ops) (number : UInt64) (edits : List VersionEdit) (dir : Dir) :
    Option Status × Dir :=
  match ops.newWritableFile with
  | some s => (some s, dir)
  | none =>
    let (records, s) := addRecords ops 0 edits
    (s.or ops.sync, { dir with manifest := some (number, records) })

structure Loop where
  s : Option Status := none
  sameFs : Bool := true
  manifestFname : Option UInt64 := none
  currentFname : Bool := false
  dir : Dir := {}

def isNotSupported : Option Status → Bool
  | some s => s.code == .notSupported
  | none => false

/-- The file at position `i` is there if the call for it succeeded. -/
def Loop.transfer (st : Loop) (s : Option Status) (n : UInt64) : Loop :=
  { st with s := s, dir := if s.isNone then { st.dir with blobFiles := st.dir.blobFiles ++ [n] } else st.dir }

/-- A blob file: linked, or copied if links are not supported. -/
def Loop.blobFile (ops : Ops) (i : Nat) (st : Loop) (n : UInt64) : Loop :=
  if st.sameFs then
    if isNotSupported (ops.linkFile i) then { st with sameFs := false }.transfer (ops.copyFile i) n
    else st.transfer (ops.linkFile i) n
  else st.transfer (ops.copyFile i) n

def loop (ops : Ops) (edits : List VersionEdit) : Nat → Loop → List TitanFile → Loop
  | _, st, [] => st
  | _, st, .unparsed _ :: _ => { st with s := some (corruption "Can't parse file name. This is very bad") }
  | i, st, .currentFile :: files => loop ops edits (i + 1) { st with currentFname := true } files
  | i, st, .descriptorFile n :: files =>
    let (s, dir) := createTitanManifest ops n edits st.dir
    loop ops edits (i + 1) { st with s := s, manifestFname := some n, dir := dir } files
  | i, st, .blobFile n :: files => loop ops edits (i + 1) (st.blobFile ops i n) files

/-- `CURRENT` is only created after a loop that ended well; its own status is dropped. -/
def writeCurrent (ops : Ops) (st : Loop) : Option Status × Dir :=
  match st.manifestFname with
  | some n =>
    if st.s.isNone && st.currentFname && ops.createFile.isNone then (st.s, { st.dir with current := some n })
    else (st.s, st.dir)
  | none => (st.s, st.dir)

def createCustomCheckpoint (ops : Ops) (listed : Except Status (List TitanFile × List VersionEdit)) :
    Option Status × Dir :=
  match listed with
  | .error s => (some s, {})
  | .ok (files, edits) => writeCurrent ops (loop ops edits 0 {} files)

/-! ## Blob files -/

def Linking (ops : Ops) (i : Nat) : Prop := ∀ j < i, isNotSupported (ops.linkFile j) = false

/-- The call that decides about the file at position `i` succeeds: a copy from the first
link on that is not supported, a link before. -/
def Transfers (ops : Ops) (i : Nat) : Prop :=
  (Linking ops (i + 1) ∧ ops.linkFile i = none) ∨ (¬ Linking ops (i + 1) ∧ ops.copyFile i = none)

variable {i : Nat}

theorem linking_succ {ops : Ops} :
    Linking ops (i + 1) ↔ Linking ops i ∧ isNotSupported (ops.linkFile i) = false := by
  constructor
  · exact fun h => ⟨fun j hj => h j (Nat.lt_succ_of_lt hj), h i (Nat.lt_succ_self i)⟩
  · rintro ⟨hbefore, hlast⟩ j hj
    rcases Nat.lt_succ_iff_lt_or_eq.mp hj with hlt | rfl
    · exact hbefore j hlt
    · exact hlast

theorem mem_transfer {st : Loop} {s : Option Status} {n m : UInt64} :
    m ∈ (st.transfer s n).dir.blobFiles ↔ m ∈ st.dir.blobFiles ∨ (m = n ∧ s = none) := by
  rw [Loop.transfer]
  cases s with
  | none => simp
  | some e => simp

/-- What a turn of the loop for a blob file, or several, leaves alone. -/
structure SameNames (st st' : Loop) : Prop where
  current : st'.dir.current = st.dir.current
  manifestFname : st'.manifestFname = st.manifestFname
  currentFname : st'.currentFname = st.currentFname

theorem SameNames.trans {st st' st'' : Loop} (h : SameNames st st') (h' : SameNames st' st'') :
    SameNames st st'' :=
  ⟨h'.current.trans h.current, h'.manifestFname.trans h.manifestFname,
    h'.currentFname.trans h.currentFname⟩

theorem transfer_sameNames (st : Loop) (s : Option Status) (n : UInt64) : SameNames st (st.transfer s n) := by
  refine ⟨?_, rfl, rfl⟩
  rw [Loop.transfer]
  dsimp only
  split <;> rfl

variable (ops : Ops)

/-- One blob file: it is in the directory exactly if the call that decides succeeded, and
the loop links as long as links were supported. -/
theorem blobFile_spec {st : Loop} (n : UInt64) (hfs : st.sameFs = true ↔ Linking ops i) :
    ((st.blobFile ops i n).sameFs = true ↔ Linking ops (i + 1)) ∧
      (∀ m, m ∈ (st.blobFile ops i n).dir.blobFiles ↔
        m ∈ st.dir.blobFiles ∨ (m = n ∧ Transfers ops i)) ∧
      SameNames st (st.blobFile ops i n) := by
  rw [Loop.blobFile, Transfers, linking_succ, ← hfs]
  by_cases hsame : st.sameFs = true
  · rw [if_pos hsame]
    by_cases hlink : isNotSupported (ops.linkFile i) = true
    · rw [if_pos hlink]
      refine ⟨by simp [Loop.transfer, hlink], fun m => mem_transfer.trans ?_, ?_⟩
      · simp [hlink]
      · have hnames := transfer_sameNames { st with sameFs := false } (ops.copyFile i) n
        exact ⟨hnames.current, hnames.manifestFname, hnames.currentFname⟩
    · rw [if_neg hlink]
      refine ⟨by simp [Loop.transfer, hsame, hlink], fun m => mem_transfer.trans ?_, transfer_sameNames ..⟩
      simp [hsame, hlink]
  · rw [if_neg hsame]
    refine ⟨by simp [Loop.transfer, hsame], fun m => mem_transfer.trans ?_, transfer_sameNames ..⟩
    simp [hsame]

variable (edits : List VersionEdit) (blobs : List UInt64)

/-- The loop over the blob files, from any position. -/
theorem loop_blobFiles (rest : List TitanFile) (i : Nat) (st : Loop)
    (hfs : st.sameFs = true ↔ Linking ops i) :
    ∃ st', loop ops edits i st (blobs.map .blobFile ++ rest) = loop ops edits (i + blobs.length) st' rest ∧
      (∀ m, m ∈ st'.dir.blobFiles ↔
        m ∈ st.dir.blobFiles ∨ ∃ k, blobs[k]? = some m ∧ Transfers ops (i + k)) ∧
      SameNames st st' := by
  induction blobs generalizing i st with
  | nil => exact ⟨st, rfl, fun m => by simp, rfl, rfl, rfl⟩
  | cons n blobs ih =>
    obtain ⟨hfs', hmem, hnames⟩ := blobFile_spec ops n hfs
    obtain ⟨st', hloop, hmem', hnames'⟩ := ih (i + 1) (st.blobFile ops i n) hfs'
    refine ⟨st', ?_, fun m => ?_, hnames.trans hnames'⟩
    · rw [map_cons, cons_append, loop, hloop, length_cons, Nat.add_assoc,
        Nat.add_comm 1 blobs.length]
    · rw [hmem' m, hmem m, or_assoc]
      refine or_congr_right ?_
      constructor
      · rintro (⟨rfl, htransfers⟩ | ⟨k, hk, htransfers⟩)
        · exact ⟨0, rfl, htransfers⟩
        · exact ⟨k + 1, hk, by rwa [Nat.add_comm k 1, ← Nat.add_assoc]⟩
      · rintro ⟨k, hk, htransfers⟩
        cases k with
        | zero => exact .inl ⟨(Option.some.inj hk).symm, htransfers⟩
        | succ k => exact .inr ⟨k, hk, by rwa [Nat.add_assoc, Nat.add_comm 1 k]⟩

/-! ## The manifest -/

def WritesManifest (ops : Ops) (edits : List VersionEdit) : Prop :=
  ops.newWritableFile = none ∧ (∀ i < edits.length, ops.addRecord i = none) ∧ ops.sync = none

theorem addRecords_ok_iff (i : Nat) :
    (addRecords ops i edits).2 = none ↔ ∀ k < edits.length, ops.addRecord (i + k) = none := by
  induction edits generalizing i with
  | nil => exact iff_of_true rfl fun k hk => absurd hk (Nat.not_lt_zero k)
  | cons edit edits ih =>
    rw [addRecords]
    cases hrecord : ops.addRecord i with
    | some s =>
      refine iff_of_false (Option.some_ne_none s) fun h => ?_
      have hfirst := h 0 (Nat.succ_pos _)
      rw [Nat.add_zero, hrecord] at hfirst
      cases hfirst
    | none =>
      refine (ih (i + 1)).trans ⟨fun h k hk => ?_, fun h k hk => ?_⟩
      · cases k with
        | zero => exact hrecord
        | succ k =>
          have hnext := h k (Nat.lt_of_succ_lt_succ hk)
          rwa [Nat.add_assoc, Nat.add_comm 1 k] at hnext
      · have hnext := h (k + 1) (Nat.succ_lt_succ hk)
        rwa [Nat.add_comm k 1, ← Nat.add_assoc] at hnext

theorem addRecords_all {ops : Ops} {edits : List VersionEdit}
    (h : (addRecords ops i edits).2 = none) :
    (addRecords ops i edits).1 = edits.map (·.encodeTo) := by
  induction edits generalizing i with
  | nil => rfl
  | cons edit edits ih =>
    rw [addRecords] at h ⊢
    cases hrecord : ops.addRecord i with
    | some s =>
      rw [hrecord] at h
      cases h
    | none =>
      rw [hrecord] at h
      dsimp only at h ⊢
      rw [ih h, map_cons]

/-- `CreateTitanManifest` returns OK exactly if every call succeeds, and then all edits
are written. -/
theorem createTitanManifest_spec (n : UInt64) (edits : List VersionEdit) (dir : Dir) :
    ((createTitanManifest ops n edits dir).1 = none ↔ WritesManifest ops edits) ∧
      ((createTitanManifest ops n edits dir).1 = none →
        (createTitanManifest ops n edits dir).2 = { dir with manifest := some (n, edits.map (·.encodeTo)) }) ∧
      (createTitanManifest ops n edits dir).2.blobFiles = dir.blobFiles := by
  rw [createTitanManifest, WritesManifest]
  cases hfile : ops.newWritableFile with
  | some s => exact ⟨by simp, fun h => absurd h (Option.some_ne_none s), rfl⟩
  | none =>
    dsimp only
    have hiff := addRecords_ok_iff ops edits 0
    simp only [Nat.zero_add] at hiff
    rw [Option.or_eq_none_iff, hiff]
    refine ⟨by simp, fun h => ?_, rfl⟩
    rw [addRecords_all (hiff.mpr h.1)]

/-! ## The whole call -/

/-- Every listed blob file is there, the manifest with all edits, and `CURRENT` naming it. -/
structure Complete (files : List TitanFile) (edits : List VersionEdit) (dir : Dir) : Prop where
  blobFiles : ∀ n, .blobFile n ∈ files → n ∈ dir.blobFiles
  manifest : ∃ n, .descriptorFile n ∈ files ∧ dir.manifest = some (n, edits.map (·.encodeTo)) ∧
    dir.current = some n

theorem getAllFiles_eq (set : OpenSet) (manifestFileNumber : UInt64)
    (iterate : BlobStorage → List (UInt64 × StoredFile)) :
    ∃ blobs : List UInt64, (getAllFiles set manifestFileNumber iterate).1 =
      blobs.map .blobFile ++ [.descriptorFile manifestFileNumber, .currentFile] := by
  refine ⟨set.columnFamilies.flatMap fun cf => (iterate cf.2).map (·.1), ?_⟩
  rw [getAllFiles, map_flatMap]
  simp only [map_map, Function.comp_def]

/-- What the call returns for a list of blob files, a manifest and `CURRENT`: the status
of the manifest. -/
theorem createCustomCheckpoint_spec (n : UInt64) (edits : List VersionEdit) :
    let r := createCustomCheckpoint ops
      (.ok (blobs.map .blobFile ++ [.descriptorFile n, .currentFile], edits))
    (r.1 = none ↔ WritesManifest ops edits) ∧
      (∀ m, m ∈ r.2.blobFiles ↔ ∃ k, blobs[k]? = some m ∧ Transfers ops k) ∧
      (r.1 = none → r.2.manifest = some (n, edits.map (·.encodeTo))) ∧
      (r.1 = none → (r.2.current = some n ↔ ops.createFile = none)) := by
  intro r
  obtain ⟨st, hloop, hmem, hnames⟩ := loop_blobFiles ops edits blobs
    [.descriptorFile n, .currentFile] 0 {} (iff_of_true rfl fun j hj => absurd hj (Nat.not_lt_zero j))
  obtain ⟨hok, hdir, hblobs⟩ := createTitanManifest_spec ops n edits st.dir
  have hr : r = writeCurrent ops { st with
      s := (createTitanManifest ops n edits st.dir).1, manifestFname := some n, currentFname := true
      dir := (createTitanManifest ops n edits st.dir).2 } := by
    change writeCurrent ops (loop ops edits 0 {} _) = _
    rw [hloop]
    rfl
  rw [writeCurrent] at hr
  dsimp only at hr
  have hfiles : ∀ m, m ∈ (createTitanManifest ops n edits st.dir).2.blobFiles ↔
      ∃ k, blobs[k]? = some m ∧ Transfers ops k := by
    intro m
    rw [hblobs, hmem m]
    simp
  cases hs : (createTitanManifest ops n edits st.dir).1 with
  | some s =>
    rw [hs] at hr hok
    have hr' : r = (some s, (createTitanManifest ops n edits st.dir).2) := hr
    rw [hr']
    exact ⟨hok, hfiles, fun h => (by cases h), fun h => (by cases h)⟩
  | none =>
    rw [hs] at hr hok
    rw [hdir hs] at hr hfiles
    cases hcreate : ops.createFile with
    | none =>
      rw [hcreate] at hr
      have hr' : r = (none, { st.dir with
        manifest := some (n, edits.map (·.encodeTo)), current := some n }) := hr
      rw [hr']
      exact ⟨hok, hfiles, fun _ => rfl, fun _ => iff_of_true rfl rfl⟩
    | some e =>
      rw [hcreate] at hr
      have hr' : r = (none, { st.dir with manifest := some (n, edits.map (·.encodeTo)) }) := hr
      rw [hr']
      have hcurrent : st.dir.current = none := hnames.current
      refine ⟨hok, hfiles, fun _ => rfl, fun _ => iff_of_false ?_ (Option.some_ne_none e)⟩
      rw [hcurrent]
      exact (Option.some_ne_none n).symm

/-- What the call returns for the files of `GetAllTitanFiles`. -/
theorem checkpoint_spec (set : OpenSet) (manifestFileNumber : UInt64)
    (iterate : BlobStorage → List (UInt64 × StoredFile)) :
    let files := getAllFiles set manifestFileNumber iterate
    let r := createCustomCheckpoint ops (getAllTitanFiles none none set manifestFileNumber iterate)
    (r.1 = none ↔ WritesManifest ops files.2) ∧
      (∀ n, n ∈ r.2.blobFiles ↔ ∃ k, files.1[k]? = some (.blobFile n) ∧ Transfers ops k) ∧
      (r.1 = none → r.2.manifest = some (manifestFileNumber, files.2.map (·.encodeTo))) ∧
      (r.1 = none → (r.2.current = some manifestFileNumber ↔ ops.createFile = none)) := by
  intro files r
  obtain ⟨blobs, hlist⟩ := getAllFiles_eq set manifestFileNumber iterate
  have hr : r = createCustomCheckpoint ops (.ok (blobs.map .blobFile ++
      [.descriptorFile manifestFileNumber, .currentFile], files.2)) := by
    rw [← hlist]
    rfl
  obtain ⟨hok, hmem, hrest⟩ := createCustomCheckpoint_spec ops blobs manifestFileNumber files.2
  rw [← hr] at hok hmem hrest
  refine ⟨hok, fun n => (hmem n).trans (exists_congr fun k => and_congr_left fun _ => ?_), hrest⟩
  change _ ↔ (getAllFiles set manifestFileNumber iterate).1[k]? = _
  rw [hlist, getElem?_append, length_map]
  split
  · rw [getElem?_map]
    cases blobs[k]? with
    | none => simp
    | some m => simp
  · rename_i hk
    rw [getElem?_eq_none (Nat.le_of_not_lt hk)]
    refine iff_of_false (Option.some_ne_none n).symm fun h => ?_
    have hin := mem_of_getElem? h
    simp at hin

/-- A checkpoint that is reported OK is complete exactly if the files cannot be listed,
or the manifest cannot be written, or every blob file is linked or copied and `CURRENT`
is created. -/
theorem checkpoint_complete_iff (ops : Ops) (disable enable : Option Status) (set : OpenSet)
    (manifestFileNumber : UInt64) (iterate : BlobStorage → List (UInt64 × StoredFile)) :
    let files := getAllFiles set manifestFileNumber iterate
    let r := createCustomCheckpoint ops (getAllTitanFiles disable enable set manifestFileNumber iterate)
    (r.1 = none → Complete files.1 files.2 r.2) ↔
      (disable.isSome ∨ enable.isSome ∨ ¬ WritesManifest ops files.2 ∨
        ((∀ n, .blobFile n ∈ files.1 → ∃ k, files.1[k]? = some (.blobFile n) ∧ Transfers ops k) ∧
          ops.createFile = none)) := by
  intro files r
  cases disable with
  | some s => exact iff_of_true (fun h => absurd h (Option.some_ne_none s)) (.inl rfl)
  | none =>
    cases enable with
    | some s => exact iff_of_true (fun h => absurd h (Option.some_ne_none s)) (.inr (.inl rfl))
    | none =>
      obtain ⟨hok, hmem, hmanifest, hcurrent⟩ := checkpoint_spec ops set manifestFileNumber iterate
      have hnumber : ∀ n, .descriptorFile n ∈ files.1 ↔ n = manifestFileNumber := by
        obtain ⟨blobs, hlist⟩ := getAllFiles_eq set manifestFileNumber iterate
        intro n
        change _ ∈ (getAllFiles set manifestFileNumber iterate).1 ↔ _
        rw [hlist]
        simp
      simp only [Option.isSome_none, Bool.false_eq_true, false_or]
      rw [← imp_iff_not_or, ← hok]
      refine imp_congr_right fun hstatus => ?_
      have hat : ∀ n, (∃ k, files.1[k]? = some (.blobFile n) ∧ Transfers ops k) ↔ n ∈ r.2.blobFiles :=
        fun n => (hmem n).symm
      simp only [hat]
      constructor
      · intro h
        obtain ⟨n, hn, -, hcur⟩ := h.manifest
        rw [(hnumber n).mp hn] at hcur
        exact ⟨h.blobFiles, (hcurrent hstatus).mp hcur⟩
      · rintro ⟨hall, hcreate⟩
        exact ⟨hall, manifestFileNumber, (hnumber _).mpr rfl, hmanifest hstatus,
          (hcurrent hstatus).mpr hcreate⟩

/-! ## A link that fails -/

def oneFile : OpenSet where
  columnFamilies := [(0, { files := Function.update (fun _ => none) 5 (some ⟨{ fileNumber := 5 }, false⟩) })]
  nextFileNumber := 8

def oneEntry : BlobStorage → List (UInt64 × StoredFile) := fun _ => [(5, ⟨{ fileNumber := 5 }, false⟩)]

def failedLink : Ops where
  linkFile := fun _ => some ⟨.ioError, "No space left on device"⟩
  copyFile := fun _ => none
  newWritableFile := none
  addRecord := fun _ => none
  sync := none
  createFile := none

/-- The checkpoint is reported OK, and the blob file that its manifest adds is missing. -/
theorem failed_link_reported_ok :
    (createCustomCheckpoint failedLink (getAllTitanFiles none none oneFile 7 oneEntry)).1 = none ∧
      .blobFile 5 ∈ (getAllFiles oneFile 7 oneEntry).1 ∧
      (createCustomCheckpoint failedLink (getAllTitanFiles none none oneFile 7 oneEntry)).2.blobFiles = [] ∧
      (createCustomCheckpoint failedLink
        (getAllTitanFiles none none oneFile 7 oneEntry)).2.current = some 7 :=
  ⟨rfl, by decide, rfl, rfl⟩

end TitanGC.Manifest.Checkpoint
