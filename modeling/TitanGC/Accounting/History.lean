import TitanGC.Accounting.Balance

/-!
# Histories of flushes, compactions and range deletions

A flush or compaction finishes its blob files, installs its tables, and some time
later its notification is delivered; any number of them run at the same time, and
notifications are delivered in any order. A range deletion reads the properties of
some tables, has the base database delete tables, and accounts for what it has read.
What the base database decides (which tables a compaction takes and writes, which
tables a range deletion removes) is a part of the operation.
-/

namespace TitanGC.Accounting.History

open Lib.ByteCoding Lib.OrderedMap List Function Format.Coding
open Manifest.VersionEdits Manifest.Logging Manifest.Families SizeCollector Tracking Listener

/-! ## What tables reference -/

def refs (tables : List Table) (file : UInt64) : ℕ :=
  (tables.map fun t => referenced t.entries file).sum

def Referenced (tables : List Table) (file : UInt64) : Prop := ∃ t ∈ tables, Mentions t.entries file

instance (tables : List Table) (file : UInt64) : Decidable (Referenced tables file) := by
  unfold Referenced
  infer_instance

def Sane (t : Table) : Prop := t.FewFiles ∧ Positive t.entries

instance (t : Table) : Decidable (Sane t) := by
  unfold Sane
  infer_instance

theorem refs_append (ts ts' : List Table) (file : UInt64) :
    refs (ts ++ ts') file = refs ts file + refs ts' file := by
  simp [refs]

variable {ts ts' : List Table} {file : UInt64}

theorem refs_perm (h : ts.Perm ts') (file : UInt64) : refs ts file = refs ts' file :=
  (h.map _).sum_eq

theorem referenced_le_refs {t : Table} (ht : t ∈ ts) (file : UInt64) :
    referenced t.entries file ≤ refs ts file :=
  single_le_sum (fun _ _ => Nat.zero_le _) _ (mem_map_of_mem ht)

theorem Referenced.mono (hsub : ts ⊆ ts') (h : Referenced ts file) : Referenced ts' file :=
  h.imp fun _ => And.imp_left (@hsub _)

theorem referenced_append : Referenced (ts ++ ts') file ↔ Referenced ts file ∨ Referenced ts' file := by
  simp only [Referenced, mem_append, or_and_right, exists_or]

theorem referenced_singleton {t : Table} : Referenced [t] file ↔ Mentions t.entries file := by
  simp only [Referenced, mem_singleton, exists_eq_left]

theorem not_referenced_nil : ¬ Referenced [] file := by
  simp only [Referenced, not_mem_nil, false_and, exists_false, not_false_eq_true]

theorem refs_eq_zero (h : ¬ Referenced ts file) : refs ts file = 0 := by
  rw [refs, sum_eq_zero_iff]
  intro n hn
  obtain ⟨t, ht, rfl⟩ := mem_map.mp hn
  by_contra hpos
  exact h ⟨t, ht, mentions_of_referenced (Nat.pos_of_ne_zero hpos)⟩

theorem refs_pos (hsane : ∀ t ∈ ts, Sane t) (h : Referenced ts file) : 0 < refs ts file := by
  obtain ⟨t, ht, hmention⟩ := h
  exact (referenced_pos (hsane t ht).2 hmention).trans_le (referenced_le_refs ht file)

theorem refs_le_of_subperm (h : ts.Subperm ts') (file : UInt64) : refs ts file ≤ refs ts' file := by
  obtain ⟨ts₁, hperm, hsub⟩ := h
  rw [← refs_perm hperm]
  exact (hsub.map _).sum_le_sum fun _ _ => Nat.zero_le _

/-- The tables that stay, and those that go. -/
theorem refs_diff {gone : List Table} (h : gone.Subperm ts) (file : UInt64) :
    refs (ts.diff gone) file + refs gone file = refs ts file := by
  rw [add_comm, ← refs_append]
  exact refs_perm (subperm_append_diff_self_of_count_le fun t _ => h.count_le t) file

/-! ## Notifications -/

inductive Event where
  | flush (table : Table)
  | compaction (status : Option Status) (inputs outputs : List Table) (outputLevel : Int)

namespace Event

def delta (file : UInt64) : Event → ℤ
  | flush t => referenced t.entries file
  | compaction none inputs outputs _ => refs outputs file - refs inputs file
  | compaction (some _) _ _ _ => 0

/-- The tables whose properties the notification has, unless it is ignored. -/
def tables : Event → List Table
  | flush t => [t]
  | compaction none inputs outputs _ => inputs ++ outputs
  | compaction (some _) _ _ _ => []

/-- The notification of a compaction. A table that was only moved to another level
is an input and an output under the same number. -/
def jobInfo (cf : UInt32) (status : Option Status) (inputs outputs : List Table) (outputLevel : Int) :
    CompactionJobInfo where
  cfId := cf
  status := status
  inputFiles := inputs.map (·.number)
  outputFiles := outputs.map (·.number)
  outputLevel := outputLevel
  tableProperties n := ((inputs ++ outputs).find? (·.number == n)).map (·.userCollectedProperties)

end Event

/-- The numbers of the tables tell them apart. -/
def Named (tables : List Table) : Prop :=
  ∀ a ∈ tables, ∀ b ∈ tables, a.number = b.number → a.entries = b.entries

/-! ## States and operations -/

structure RangeCall where
  /-- The tables whose properties were read. -/
  read : List Table
  /-- The base database has deleted its tables. -/
  removed : Bool := false

structure Lsm where
  /-- The tables of the current version. -/
  tables : List Table := []
  /-- Blob files of flushes and compactions that are not installed. -/
  finished : List UInt64 := []
  undelivered : List Event := []
  calls : List RangeCall := []

structure State where
  blobs : BlobFiles
  lsm : UInt32 → Lsm := fun _ => {}
  /-- The file numbers that were ever given out. -/
  used : List UInt64 := []

def State.setLsm (s : State) (cf : UInt32) (l : Lsm) : State :=
  { s with lsm := update s.lsm cf l }

@[simp] theorem State.setLsm_self (s : State) (cf : UInt32) (l : Lsm) : (s.setLsm cf l).lsm cf = l :=
  update_self _ _ _

theorem State.setLsm_of_ne (s : State) {cf cf' : UInt32} (h : cf' ≠ cf) (l : Lsm) :
    (s.setLsm cf l).lsm cf' = s.lsm cf' := update_of_ne h _ _

inductive Op where
  | finish (cf : UInt32) (files : List BlobFileMeta) (w : Write)
  | flush (cf : UInt32) (table : Table) (created : List UInt64)
  | compact (cf : UInt32) (inputs outputs : List Table) (outputLevel : Int) (created : List UInt64)
  | compactFailed (cf : UInt32) (status : Status) (inputs outputs : List Table) (outputLevel : Int)
  | deliver (cf : UInt32) (i : Nat) (latestSequence : Nat) (w : Write)
  | purge (cf : UInt32) (oldestSequence : Nat)
  | readRange (cf : UInt32) (view : VersionView) (maxLevel : Nat) (ranges : List RangePtr)
      (includeEnd : Bool)
  | removeRange (cf : UInt32) (i : Nat) (status : Option Status) (deleted : List Table)
  | accountRange (cf : UInt32) (i : Nat) (latestSequence : Nat) (w : Write)

section

variable (options : UInt32 → CFOptions)

def finishEdit (cf : UInt32) (files : List BlobFileMeta) : Edit where
  columnFamilyId := cf
  addedFiles := files.map fun f => ({ file := f } : TrackedFile).fileStateTransit .flushOrCompactionOutput

def notify (blobs : BlobFiles) (cf : UInt32) (latestSequence : Nat) (w : Write) : Event → BlobFiles
  | .flush t => onFlushCompleted blobs ⟨cf, t.userCollectedProperties⟩
  | .compaction status inputs outputs outputLevel =>
    onCompactionCompleted blobs (options cf) (Event.jobInfo cf status inputs outputs outputLevel)
      latestSequence w

def exec (s : State) : Op → State
  | .finish cf files w =>
    let r := s.blobs.logAndApply w (finishEdit cf files)
    let s := { s with blobs := r.2, used := s.used ++ files.map (·.fileNumber) }
    if r.1 = none then
      let l := s.lsm cf
      s.setLsm cf { l with finished := l.finished ++ files.map (·.fileNumber) }
    else s
  | .flush cf table created =>
    let l := s.lsm cf
    s.setLsm cf { l with
      tables := l.tables ++ [table]
      finished := l.finished.filter (· ∉ created)
      undelivered := l.undelivered ++ [.flush table] }
  | .compact cf inputs outputs outputLevel created =>
    let l := s.lsm cf
    s.setLsm cf { l with
      tables := l.tables.diff inputs ++ outputs
      finished := l.finished.filter (· ∉ created)
      undelivered := l.undelivered ++ [.compaction none inputs outputs outputLevel] }
  | .compactFailed cf status inputs outputs outputLevel =>
    let l := s.lsm cf
    s.setLsm cf { l with
      undelivered := l.undelivered ++ [.compaction (some status) inputs outputs outputLevel] }
  | .deliver cf i latestSequence w =>
    let l := s.lsm cf
    match l.undelivered[i]? with
    | none => s
    | some e =>
      { s with blobs := notify options s.blobs cf latestSequence w e }.setLsm cf
        { l with undelivered := l.undelivered.eraseIdx i }
  | .purge cf oldestSequence =>
    { s with blobs := s.blobs.setStorage cf ((s.blobs.storage cf).getObsoleteFiles oldestSequence) }
  | .readRange cf view maxLevel ranges includeEnd =>
    let l := s.lsm cf
    s.setLsm cf { l with
      calls := l.calls ++ [{ read := tablesInRanges view l.tables maxLevel ranges includeEnd }] }
  | .removeRange cf i status deleted =>
    let l := s.lsm cf
    match l.calls[i]? with
    | none => s
    | some call =>
      match status with
      -- the base database failed, and `DeleteFilesInRanges` returns
      | some _ => s.setLsm cf { l with calls := l.calls.eraseIdx i }
      | none => s.setLsm cf { l with
          tables := l.tables.diff deleted
          calls := l.calls.set i { call with removed := true } }
  | .accountRange cf i latestSequence w =>
    let l := s.lsm cf
    match l.calls[i]? with
    | none => s
    | some call =>
      { s with blobs := accountRanges s.blobs (options cf) cf call.read latestSequence w }.setLsm cf
        { l with calls := l.calls.eraseIdx i }

end

/-- What holds of the operations of a database. A table builder takes new numbers for
its blob files; a flush references only blob files of its own; a compaction takes
tables of the current version, and what it references of other files than its own
it has found in its inputs; a file is shorter than `2 ^ 63` bytes. -/
def Allowed (s : State) : Op → Prop
  | .finish cf files _ => cf ∈ s.blobs.ids ∧ (files.map (·.fileNumber)).Nodup ∧
      ∀ f ∈ files, f.fileNumber ∉ s.used
  | .flush cf table created => cf ∈ s.blobs.ids ∧ Sane table ∧
      (∀ file ∈ created, file ∈ (s.lsm cf).finished) ∧
      (∀ file, Mentions table.entries file → file ∈ created) ∧
      ∀ file, referenced table.entries file < 2 ^ 63
  | .compact cf inputs outputs _ created => cf ∈ s.blobs.ids ∧ (∀ t ∈ outputs, Sane t) ∧
      inputs.Subperm (s.lsm cf).tables ∧ Named (inputs ++ outputs) ∧
      (∀ file ∈ created, file ∈ (s.lsm cf).finished ∧ refs outputs file < 2 ^ 63) ∧
      ∀ file, file ∉ created → refs outputs file ≤ refs inputs file
  | .compactFailed cf _ _ _ _ => cf ∈ s.blobs.ids
  | .deliver cf _ _ _ => cf ∈ s.blobs.ids
  | .purge _ _ => True
  | .readRange cf view _ _ _ => cf ∈ s.blobs.ids ∧
      ∀ tables start limit, view.cleanInputs tables start limit ⊆ tables
  | .removeRange cf i _ deleted => deleted.Subperm (s.lsm cf).tables ∧
      ∀ call, (s.lsm cf).calls[i]? = some call → call.removed = false
  | .accountRange cf i _ _ => cf ∈ s.blobs.ids ∧
      ∀ call, (s.lsm cf).calls[i]? = some call → call.removed = true

/-- A database that `InitializeGC` has just opened: no notification is to come, and
every blob file has come from the manifest. -/
structure Opened (s : State) : Prop where
  initialized : ∀ cf, ∃ recovered : Storage,
    (∀ n f, recovered.files n = some f → f.liveDataSize = 0 ∧ f.state = .init) ∧
    initializeGC (s.lsm cf).tables recovered = .ok (s.blobs.storage cf)
  quiet : ∀ cf, (s.lsm cf).finished = [] ∧ (s.lsm cf).undelivered = [] ∧ (s.lsm cf).calls = []
  sane : ∀ cf, ∀ t ∈ (s.lsm cf).tables, Sane t
  small : ∀ cf file, refs (s.lsm cf).tables file < 2 ^ 63
  stored : ∀ cf file, ((s.blobs.storage cf).files file).isSome → file ∈ s.used
  mentioned : ∀ cf file, Referenced (s.lsm cf).tables file → file ∈ s.used
  distinct : ∀ cf cf' file, ((s.blobs.storage cf).files file).isSome →
    ((s.blobs.storage cf').files file).isSome → cf = cf'

/-! ## The differences of a notification -/

section

/-- Going through tables adds or subtracts what they reference. -/
theorem foldl_extract {ts : List Table} (hsane : ∀ t ∈ ts, Sane t) (hsmall : ∀ file, refs ts file < 2 ^ 63)
    (toAdd : Bool) {keys : UInt64 → Prop} {total : UInt64 → ℤ} {diff : List (UInt64 × Int64)}
    (h : Totals Int64.ofInt keys total diff) :
    ∃ diff', ts.foldlM (fun diff t =>
        extractGCStatsFromTableProperty t.userCollectedProperties toAdd diff) diff = .ok diff' ∧
      ts.foldl (fun diff t => (extractGCStatsFromTableProperty t.userCollectedProperties toAdd
        diff).toOption.getD diff) diff = diff' ∧
      Totals Int64.ofInt (fun file => keys file ∨ Referenced ts file)
        (fun file => total file + if toAdd then (refs ts file : ℤ) else -refs ts file) diff' := by
  induction ts generalizing keys total diff with
  | nil =>
    refine ⟨diff, rfl, rfl, h.congr (fun file => ?_) (fun file => ?_)⟩
    · simp [Referenced]
    · simp [refs]
  | cons t ts ih =>
    have hcons : ∀ file, refs (t :: ts) file = referenced t.entries file + refs ts file :=
      fun file => by simp [refs]
    obtain ⟨diff₁, hextract, htotals⟩ := extract_totals (hsane t mem_cons_self).1
      (fun file => by have := hsmall file; rw [hcons] at this; omega) h toAdd
    obtain ⟨diff', hrunM, hrun, hfinal⟩ := ih (fun t' ht' => hsane t' (mem_cons_of_mem t ht'))
      (fun file => by have := hsmall file; rw [hcons] at this; omega) htotals
    refine ⟨diff', ?_, ?_, hfinal.congr (fun file => ?_) (fun file => ?_)⟩
    · rw [foldlM_cons, hextract, ok_bind]
      exact hrunM
    · rw [foldl_cons, hextract]
      exact hrun
    · simp [Referenced, or_assoc]
    · rw [hcons]
      cases toAdd with
      | true =>
        simp only [if_true]
        push_cast
        ring
      | false =>
        simp only [Bool.false_eq_true, if_false]
        push_cast
        ring

/-- The names of a notification lead to the properties of its tables. -/
theorem foldl_updateDiff {properties : UInt64 → Option (List (String × Bytes))} {ts : List Table}
    (hprops : ∀ t ∈ ts, properties t.number = some t.userCollectedProperties) (toAdd : Bool)
    (diff : List (UInt64 × Int64)) :
    (ts.map (·.number)).foldl (updateDiff properties toAdd) diff =
      ts.foldl (fun diff t => (extractGCStatsFromTableProperty t.userCollectedProperties toAdd
        diff).toOption.getD diff) diff := by
  induction ts generalizing diff with
  | nil => rfl
  | cons t ts ih =>
    rw [map_cons, foldl_cons, foldl_cons, updateDiff, hprops t mem_cons_self]
    exact ih (fun t' ht' => hprops t' (mem_cons_of_mem t ht')) _

/-- The map that `OnCompactionCompleted` goes through. -/
theorem blobFileSizeDiff_totals (cf : UInt32) {inputs outputs : List Table} (outputLevel : Int)
    (hsane : ∀ t ∈ inputs ++ outputs, Sane t) (hnamed : Named (inputs ++ outputs))
    (hin : ∀ file, refs inputs file < 2 ^ 63) (hout : ∀ file, refs outputs file < 2 ^ 63) :
    Totals Int64.ofInt (Referenced (inputs ++ outputs))
      (fun file => (Event.compaction none inputs outputs outputLevel).delta file)
      (Event.jobInfo cf none inputs outputs outputLevel).blobFileSizeDiff := by
  have hprops : ∀ t ∈ inputs ++ outputs,
      (Event.jobInfo cf none inputs outputs outputLevel).tableProperties t.number =
        some t.userCollectedProperties := by
    intro t ht
    have hsome : ((inputs ++ outputs).find? (·.number == t.number)).isSome :=
      find?_isSome.mpr ⟨t, ht, beq_self_eq_true _⟩
    obtain ⟨t', ht'⟩ := Option.isSome_iff_exists.mp hsome
    have hnumber : t'.number = t.number := by simpa using find?_some ht'
    have hentries := hnamed t' (mem_of_find?_eq_some ht') t ht hnumber
    rw [Event.jobInfo]
    dsimp only
    rw [ht', Option.map_some, Table.userCollectedProperties, hentries]
    rfl
  have hempty : Totals Int64.ofInt (fun _ : UInt64 => False) (fun _ => (0 : ℤ)) [] :=
    Totals.empty Int64.ofInt
  obtain ⟨diff₁, -, hrun₁, htotals₁⟩ := foldl_extract
    (fun t ht => hsane t (mem_append_left _ ht)) hin false hempty
  obtain ⟨diff₂, -, hrun₂, htotals₂⟩ := foldl_extract
    (fun t ht => hsane t (mem_append_right _ ht)) hout true htotals₁
  rw [CompactionJobInfo.blobFileSizeDiff]
  dsimp only [Event.jobInfo] at hprops ⊢
  rw [foldl_updateDiff (fun t ht => hprops t (mem_append_left _ ht)), hrun₁,
    foldl_updateDiff (fun t ht => hprops t (mem_append_right _ ht)), hrun₂]
  refine htotals₂.congr (fun file => ?_) (fun file => ?_)
  · simp [Referenced, or_and_right, exists_or]
  · simp only [Event.delta, Bool.false_eq_true, if_false, if_true]
    ring

end

end TitanGC.Accounting.History
