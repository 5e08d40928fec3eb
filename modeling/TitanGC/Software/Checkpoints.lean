import TitanGC.Manifest.Checkpoint
import TitanGC.Software.Crash

/-!
# Checkpoints of a running database

`CreateCheckpoint` disables file deletions, takes the checkpoint of the base DB, lists the
blob files, links or copies them, and then enables deletions again.
`DisableFileDeletions` waits for a purge that is running, and no purge starts while the
counter is positive: a file that the base checkpoint refers to is in the storage when the
files are listed, even if it has become obsolete since. The base checkpoint,
`GetAllTitanFiles` and other callers disable and enable deletions too.
-/

namespace TitanGC.Software.Checkpoints

open Relation List Lib.MultiVersion Lib.Runs Format.BlobFormat Storage.BlobFiles
open Manifest.VersionEdits Manifest.Replay Manifest.Logging Manifest.Checkpoint GcJob TipReads Crash

/-- The newest version of each key in a base checkpoint. -/
abbrev Base := Key → Option Slot

inductive Progress where
  | started
  | disabled
  | based (base : Base)
  | listed (base : Base) (set : OpenSet)
  | enabled

/-- What it has added to the counter. -/
def Progress.held : Progress → Nat
  | .started | .enabled => 0
  | .disabled | .based _ | .listed _ _ => 1

def Progress.base : Progress → Option Base
  | .based base | .listed base _ => some base
  | .started | .disabled | .enabled => none

structure State where
  db : System.State
  /-- `disable_titandb_file_deletions_`. -/
  disableFileDeletions : Nat := 0
  /-- Ghost: what other callers have added to it. -/
  others : Nat := 0
  progress : Progress := .started

/-- The storage of the column family: a file is there from the edit that adds it until a
purge takes it out, also while it is obsolete. -/
def Stores (cf : UInt32) (s : System.State) (set : OpenSet) : Prop :=
  ∃ st, (cf, st) ∈ set.columnFamilies ∧ (∀ n f, st.files n = some f → f.file.fileNumber = n) ∧
    ∀ n, (st.files n).isSome ↔ n ∈ added (s.log.take s.logSynced) ∧ s.purged n = false

/-- `BatchDeleteFiles` is left out: what it removes whatever the counter is, the files of a
failed job, is in no manifest record. -/
inductive Step (cf : UInt32) : State → State → Prop
  /-- A purge that finds the counter positive returns at once. -/
  | database (c : State) (a : System.Action) (t : System.State) (h : System.Step cf c.db a t)
      (hpurge : c.db.purging = none → t.purging ≠ none → c.disableFileDeletions = 0) :
      Step cf c { c with db := t }
  | disableOther (c : State) (hpurge : c.db.purging = none) :
      Step cf c { c with disableFileDeletions := c.disableFileDeletions + 1, others := c.others + 1 }
  | enableOther (c : State) (hothers : 0 < c.others) :
      Step cf c { c with disableFileDeletions := c.disableFileDeletions - 1, others := c.others - 1 }
  | disable (c : State) (hp : c.progress = .started) (hpurge : c.db.purging = none) :
      Step cf c { c with disableFileDeletions := c.disableFileDeletions + 1, progress := .disabled }
  /-- The SSTs, and the WAL up to some write that is not before the synced ones. -/
  | createBase (c : State) (hp : c.progress = .disabled) (n : Nat) (hsynced : c.db.synced ≤ n)
      (hflushed : c.db.flushed ≤ n) :
      Step cf c { c with progress := .based fun k => visible (c.db.lsm k) n }
  | list (c : State) (base : Base) (set : OpenSet) (hp : c.progress = .based base)
      (hset : Stores cf c.db set) : Step cf c { c with progress := .listed base set }
  | enable (c : State) (base : Base) (set : OpenSet) (hp : c.progress = .listed base set) :
      Step cf c { c with disableFileDeletions := c.disableFileDeletions - 1, progress := .enabled }

def start (cf : UInt32) : State where
  db := System.init cf

/-! ## The files of the base checkpoint stay -/

/-- Every index is of a record on disk, in a file that the manifest has added. -/
def Resolved (base : Base) (s : System.State) : Prop :=
  ∀ k p, base k = some (.index p) → p.fileNumber ∈ added (s.log.take s.logSynced) ∧
    s.purged p.fileNumber = false ∧ ∃ v, Holds s.files p k v

variable {base : Base} {s t : System.State} {cf : UInt32} {c : State}

theorem Resolved.mono (h : Resolved base s) {edits : List VersionEdit}
    (hlength : s.logSynced ≤ s.log.length) (hlog : t.log = s.log ++ edits)
    (hsynced : s.logSynced ≤ t.logSynced) (hpurged : t.purged = s.purged)
    (hfiles : ∀ p k v, Holds s.files p k v → Holds t.files p k v) : Resolved base t := by
  intro k p hp
  obtain ⟨hadded, hpresent, v, hv⟩ := h k p hp
  refine ⟨added_take_mono hsynced ?_, hpurged ▸ hpresent, v, hfiles p k v hv⟩
  rw [hlog, take_append_of_le_length hlength]
  exact hadded

theorem resolved_visible (hs : Invariant.Inv cf s) {n : Nat} (hsynced : s.synced ≤ n)
    (hflushed : s.flushed ≤ n) : Resolved (fun k => visible (s.lsm k) n) s := by
  intro k p hp
  obtain ⟨-, v, recs, hrecs, hmem⟩ := visible_on_disk hs hsynced hflushed hp
  rw [System.State.present] at hrecs
  split at hrecs
  · cases hrecs
  · rename_i hpurged
    exact ⟨hs.manifest.referenced p (referenced_of_visible hp), Bool.eq_false_iff.mpr hpurged, v,
      recs, hrecs, hmem⟩

/-- A step of the database while no purge is running. -/
theorem resolved_step {a : System.Action} (hs : Invariant.Inv cf s) (h : System.Step cf s a t)
    (hpurging : s.purging = none) (hbase : Resolved base s) : Resolved base t := by
  have hlength := hs.manifest.length
  have hmono : ∀ edits, t.log = s.log ++ edits → s.logSynced ≤ t.logSynced → t.purged = s.purged →
      (∀ p k v, Holds s.files p k v → Holds t.files p k v) → Resolved base t :=
    fun _ hlog hsynced hpurged hfiles => hbase.mono hlength hlog hsynced hpurged hfiles
  cases h with
  | build j new outputs next hj hw =>
    exact hmono [] (append_nil _).symm le_rfl rfl fun _ _ _ hv => holds_add_old hw.fresh hv
  | rewriteFiles j job sc fallback new outputs next pending hj hp ht hw hc hn =>
    exact hmono [] (append_nil _).symm le_rfl rfl fun _ _ _ hv => holds_add_old hw.fresh hv
  | logFiles j job after metas hj hp hm => exact hmono _ rfl le_rfl rfl fun _ _ _ hv => hv
  | logDelete j job hj hp => exact hmono _ rfl le_rfl rfl fun _ _ _ hv => hv
  | applyBuild j job hj hp => exact hmono [] (append_nil _).symm hlength rfl fun _ _ _ hv => hv
  | applyRewrite j job pending hj hp => exact hmono [] (append_nil _).symm hlength rfl fun _ _ _ hv => hv
  | applyDelete j job q hj hp => exact hmono [] (append_nil _).symm hlength rfl fun _ _ _ hv => hv
  | purgeRemove oldest hp =>
    rw [hpurging] at hp
    cases hp
  | _ => exact hmono [] (append_nil _).symm le_rfl rfl fun _ _ _ hv => hv

/-! ## The invariant -/

def Listed (cf : UInt32) (set : OpenSet) (n : UInt64) : Prop :=
  ∃ st f, (cf, st) ∈ set.columnFamilies ∧ st.files n = some f ∧ f.file.fileNumber = n

structure Inv (cf : UInt32) (c : State) : Prop where
  db : Invariant.Inv cf c.db
  count : c.disableFileDeletions = c.progress.held + c.others
  idle : 0 < c.disableFileDeletions → c.db.purging = none
  resolved : ∀ base, c.progress.base = some base → Resolved base c.db
  listed : ∀ base set, c.progress = .listed base set → ∀ k p, base k = some (.index p) →
    Listed cf set p.fileNumber

theorem inv_start (cf : UInt32) : Inv cf (start cf) where
  db := inv_init cf
  count := rfl
  idle h := absurd h (lt_irrefl 0)
  resolved base h := by cases h
  listed base set h := by cases h

/-- While the checkpoint holds deletions, no purge runs. -/
theorem Inv.not_purging (h : Inv cf c) (hbase : c.progress.base = some base) : c.db.purging = none := by
  refine h.idle ?_
  rw [h.count]
  cases hp : c.progress with
  | based b => exact Nat.lt_of_lt_of_le Nat.zero_lt_one (Nat.le_add_right _ _)
  | listed b set => exact Nat.lt_of_lt_of_le Nat.zero_lt_one (Nat.le_add_right _ _)
  | started | disabled | enabled =>
    rw [hp] at hbase
    cases hbase

theorem inv_step {c' : State} (h : Inv cf c) (hstep : Step cf c c') : Inv cf c' := by
  have hcount := h.count
  cases hstep with
  | database a t ht hpurge =>
    refine ⟨TipReads.inv_step h.db ht, h.count, fun hpos => ?_, fun base hbase => ?_, h.listed⟩
    · by_contra hrunning
      exact (Nat.ne_of_gt hpos) (hpurge (h.idle hpos) hrunning)
    · exact resolved_step h.db ht (h.not_purging hbase) (h.resolved base hbase)
  | disableOther hpurge =>
    refine ⟨h.db, ?_, fun _ => hpurge, h.resolved, h.listed⟩
    dsimp only
    omega
  | enableOther hothers =>
    refine ⟨h.db, ?_, fun hpos => h.idle ?_, h.resolved, h.listed⟩ <;> dsimp only at * <;> omega
  | disable hp hpurge =>
    rw [hp] at hcount
    refine ⟨h.db, ?_, fun _ => hpurge, fun base hbase => (by cases hbase), fun base set hl => (by cases hl)⟩
    dsimp only [Progress.held] at hcount ⊢
    omega
  | createBase hp n hsynced hflushed =>
    rw [hp] at hcount
    refine ⟨h.db, hcount, h.idle, fun base hbase => ?_, fun base set hl => (by cases hl)⟩
    obtain rfl := Option.some.inj hbase
    exact resolved_visible h.db hsynced hflushed
  | list base set hp hset =>
    rw [hp] at hcount
    have hbase := h.resolved base (by rw [hp]; rfl)
    refine ⟨h.db, hcount, h.idle, fun b hb => ?_, fun b set' hl k p hk => ?_⟩
    · obtain rfl := Option.some.inj hb
      exact hbase
    · obtain ⟨rfl, rfl⟩ := Progress.listed.inj hl
      obtain ⟨st, hst, hnumbers, hfiles⟩ := hset
      obtain ⟨hadded, hpurged, -⟩ := hbase k p hk
      obtain ⟨f, hf⟩ := Option.isSome_iff_exists.mp ((hfiles _).mpr ⟨hadded, hpurged⟩)
      exact ⟨st, f, hst, hf, hnumbers _ f hf⟩
  | enable base set hp =>
    rw [hp] at hcount
    dsimp only [Progress.held] at hcount
    refine ⟨h.db, ?_, fun hpos => h.idle ?_, fun b hb => (by cases hb), fun b set' hl => (by cases hl)⟩
    · dsimp only [Progress.held]
      omega
    · dsimp only at hpos
      omega

theorem inv_run (run : ReflTransGen (Step cf) (start cf) c) : Inv cf c :=
  run_invariant (Inv cf) (fun _ _ h hstep => inv_step h hstep) run (inv_start cf)

theorem purging_of_other (h : OtherStep cf s t) (ht : t.purging = none) : s.purging = none := by
  cases h with
  | purgeRead hp => exact hp
  | _ => exact ht

/-- A run of the database that ends without a purge goes on whatever the counter is. -/
theorem run_database (c : State) (run : ReflTransGen (OtherStep cf) s t) (ht : t.purging = none) :
    ReflTransGen (Step cf) { c with db := s } { c with db := t } := by
  induction run with
  | refl => exact .refl
  | @tail mid t _ hstep ih =>
    exact (ih (purging_of_other hstep ht)).tail
      (.database { c with db := mid } .other t hstep fun _ hne => absurd ht hne)

/-! ## Deletions stay disabled -/

theorem Inv.purging_none (h : Inv cf c) (hheld : 0 < c.progress.held + c.others) :
    c.db.purging = none :=
  h.idle (h.count ▸ hheld)

/-- A step while some caller has not enabled deletions again. -/
def HeldStep (cf : UInt32) (c c' : State) : Prop :=
  0 < c.progress.held + c.others ∧ Step cf c c'

theorem purged_heldStep {c' : State} (h : Inv cf c) (hstep : HeldStep cf c c') :
    c'.db.purged = c.db.purged := by
  have hidle := h.purging_none hstep.1
  cases hstep.2 with
  | database a t ht =>
    cases ht with
    | purgeRemove oldest hp =>
      rw [hidle] at hp
      cases hp
    | _ => rfl
  | _ => rfl

/-- While some caller holds deletions no purge is running, and until the last one enables
them no purge removes a file. -/
theorem disabled_removes_nothing {c' : State} (run : ReflTransGen (Step cf) (start cf) c)
    (hheld : 0 < c.progress.held + c.others) (held : ReflTransGen (HeldStep cf) c c') :
    c.db.purging = none ∧ c'.db.purged = c.db.purged := by
  refine ⟨(inv_run run).purging_none hheld, ?_⟩
  induction held with
  | refl => rfl
  | tail hmid hstep ih =>
    have hinv := inv_run (run.trans (hmid.lift id fun _ _ h => h.2))
    exact (purged_heldStep hinv hstep).trans ih

/-- File 2 is obsolete; it stays while the checkpoint holds deletions, though the other
caller has enabled them again. -/
theorem disabled_removes_nothing_obsolete :
    ∃ c c' : State, c.db.obsolete 2 = some 2 ∧ c.others = 1 ∧ c'.others = 0 ∧
      c'.db.purged 2 = false := by
  let c : State := ⟨collected [] none, 1, 1, .started⟩
  have run : ReflTransGen (Step 0) (start 0) c :=
    (run_database (start 0) (run_flushed.trans (run_collected [] none)) rfl).tail (.disableOther _ rfl)
  have hdisable : HeldStep 0 c { c with disableFileDeletions := 2, progress := .disabled } :=
    ⟨Nat.one_pos, .disable _ rfl rfl⟩
  have henable : HeldStep 0 { c with disableFileDeletions := 2, progress := .disabled }
      { c with others := 0, progress := .disabled } := ⟨Nat.two_pos, .enableOther _ Nat.one_pos⟩
  exact ⟨c, _, rfl, rfl, rfl,
    congrFun (disabled_removes_nothing run Nat.one_pos (.tail (.single hdisable) henable)).2 2⟩

/-! ## The checkpoint -/

structure Succeeds (ops : Ops) : Prop where
  linkFile : ∀ i, ops.linkFile i = none ∨ isNotSupported (ops.linkFile i) = true
  copyFile : ∀ i, ops.copyFile i = none
  newWritableFile : ops.newWritableFile = none
  addRecord : ∀ i, ops.addRecord i = none
  sync : ops.sync = none
  createFile : ops.createFile = none

theorem Succeeds.transfers {ops : Ops} (h : Succeeds ops) (i : Nat) : Transfers ops i := by
  by_cases hlinking : Linking ops (i + 1)
  · refine .inl ⟨hlinking, (h.linkFile i).resolve_right fun hnot => ?_⟩
    rw [hlinking i (Nat.lt_succ_self i)] at hnot
    cases hnot
  · exact .inr ⟨hlinking, h.copyFile i⟩

/-- What a file that is listed has in the checkpoint. -/
theorem listed_complete {set : OpenSet} {n : UInt64} (h : Listed cf set n)
    {iterate : BlobStorage → List (UInt64 × StoredFile)}
    (hiterate : ∀ s ∈ set.columnFamilies, ∀ m f, (m, f) ∈ iterate s.2 ↔ s.2.files m = some f)
    (manifestFileNumber : UInt64) {ops : Ops} (hops : Succeeds ops) :
    let r := createCustomCheckpoint ops (getAllTitanFiles none none set manifestFileNumber iterate)
    r.1 = none ∧ n ∈ r.2.blobFiles ∧ r.2.current = some manifestFileNumber ∧
      ∃ edits : List VersionEdit, r.2.manifest = some (manifestFileNumber, edits.map (·.encodeTo)) ∧
        ∃ e ∈ edits, e.columnFamilyId = cf ∧ n ∈ e.addedFiles.map (·.fileNumber) := by
  intro r
  obtain ⟨st, f, hst, hf, hn⟩ := h
  have hmem : (n, f) ∈ iterate st := (hiterate (cf, st) hst n f).mpr hf
  obtain ⟨hok, hfiles, hmanifest, hcurrent⟩ := checkpoint_spec ops set manifestFileNumber iterate
  have hstatus := hok.mpr ⟨hops.newWritableFile, fun i _ => hops.addRecord i, hops.sync⟩
  refine ⟨hstatus, (hfiles n).mpr ?_, (hcurrent hstatus).mpr hops.createFile, _, hmanifest hstatus,
    { columnFamilyId := cf, addedFiles := (iterate st).map (·.2.file) }, ?_, rfl, ?_⟩
  · have hlist : .blobFile n ∈ (getAllFiles set manifestFileNumber iterate).1 :=
      mem_append_left _ (mem_flatMap.mpr ⟨(cf, st), hst, mem_map.mpr ⟨(n, f), hmem, rfl⟩⟩)
    obtain ⟨k, hk⟩ := mem_iff_getElem?.mp hlist
    exact ⟨k, hk, hops.transfers k⟩
  · exact mem_cons_of_mem _ (mem_map.mpr ⟨(cf, st), hst, rfl⟩)
  · rw [List.map_map]
    exact mem_map.mpr ⟨(n, f), hmem, hn⟩

/-- For every interleaving, if no file operation fails: the checkpoint is reported OK, and
every blob index that is the newest version of its key in the base checkpoint is of a file
that was linked or copied and that the manifest adds; until deletions are enabled again,
the record is on disk. -/
theorem checkpoint_resolves {cf : UInt32} {c : State} (run : ReflTransGen (Step cf) (start cf) c)
    {base : Base}
    {set : OpenSet} (hlisted : c.progress = .listed base set)
    {iterate : BlobStorage → List (UInt64 × StoredFile)}
    (hiterate : ∀ s ∈ set.columnFamilies, ∀ n f, (n, f) ∈ iterate s.2 ↔ s.2.files n = some f)
    (manifestFileNumber : UInt64) {ops : Ops} (hops : Succeeds ops) {k : Key} {p : BlobPtr}
      (hk : base k = some (.index p)) :
    let r := createCustomCheckpoint ops (getAllTitanFiles none none set manifestFileNumber iterate)
    r.1 = none ∧ p.fileNumber ∈ r.2.blobFiles ∧ r.2.current = some manifestFileNumber ∧
      (∃ edits : List VersionEdit, r.2.manifest = some (manifestFileNumber, edits.map (·.encodeTo)) ∧
        ∃ e ∈ edits, e.columnFamilyId = cf ∧ p.fileNumber ∈ e.addedFiles.map (·.fileNumber)) ∧
      ∃ v, Holds c.db.present p k v := by
  have h := inv_run run
  obtain ⟨hstatus, hblobs, hcurrent, hmanifest⟩ :=
    listed_complete (h.listed base set hlisted k p hk) hiterate manifestFileNumber hops
  obtain ⟨-, hpurged, v, recs, hrecs, hmem⟩ := h.resolved base (by rw [hlisted]; rfl) k p hk
  exact ⟨hstatus, hblobs, hcurrent, hmanifest, v, recs,
    by simpa [System.State.present, hpurged] using hrecs, hmem⟩

/-! ## A run -/

/-- The storage after a job has copied the record of file 2 to file 3. -/
def collectedStorage : BlobStorage where
  files := Function.update (Function.update (fun _ => none) 3 (some { file := { fileNumber := 3 } })) 2
    (some { file := { fileNumber := 2 }, isObsolete := true })

def collectedSet : OpenSet where
  columnFamilies := [(0, collectedStorage)]

def collectedFiles : List (UInt64 × StoredFile) :=
  [(2, { file := { fileNumber := 2 }, isObsolete := true }), (3, { file := { fileNumber := 3 } })]

theorem mem_collectedFiles (n : UInt64) (f : StoredFile) :
    (n, f) ∈ collectedFiles ↔ collectedStorage.files n = some f := by
  by_cases h2 : n = 2
  · subst h2
    simp [collectedFiles, collectedStorage, eq_comm]
  · by_cases h3 : n = 3
    · subst h3
      simp [collectedFiles, collectedStorage, eq_comm]
    · simp [collectedFiles, collectedStorage, h2, h3]

theorem stores_collected : Stores 0 (collected [] none) collectedSet := by
  refine ⟨collectedStorage, mem_singleton.mpr rfl, fun n f hf => ?_, fun n => ?_⟩
  · rcases mem_pair.mp ((mem_collectedFiles n f).mpr hf) with heq | heq <;> cases heq <;> rfl
  · have hadded : added ((collected [] none).log.take (collected [] none).logSynced) = [2, 3] := rfl
    have hpurged : (collected [] none).purged n = false := rfl
    rw [hadded, hpurged, and_iff_left rfl, Option.isSome_iff_exists]
    simp only [← mem_collectedFiles]
    simp [collectedFiles, exists_or]

/-- The base checkpoint has the index of file 2; the file is obsolete when the files are
listed, and is in the checkpoint. -/
theorem checkpoint_resolves_obsolete :
    ∃ c base, ReflTransGen (Step 0) (start 0) c ∧ c.progress = .listed base collectedSet ∧
      base key = some (.index (ptr 2)) ∧ c.db.obsolete 2 = some 2 ∧
      2 ∈ (createCustomCheckpoint ⟨fun _ => none, fun _ => none, none, fun _ => none, none, none⟩
        (getAllTitanFiles none none collectedSet 9 fun _ => collectedFiles)).2.blobFiles := by
  let based : State := ⟨flushed [] none, 1, 0, .based fun k => visible (flushedLsm k) 1⟩
  have hflushed : ReflTransGen (Step 0) (start 0) ⟨flushed [] none, 0, 0, .started⟩ :=
    run_database (start 0) run_flushed rfl
  have hbased : ReflTransGen (Step 0) (start 0) based :=
    (hflushed.tail (.disable _ rfl rfl)).tail (.createBase _ rfl 1 (by decide) le_rfl)
  have hcollected : ReflTransGen (Step 0) (start 0) { based with db := collected [] none } :=
    hbased.trans (run_database based (run_collected [] none) rfl)
  have run := hcollected.tail (.list _ _ collectedSet rfl stores_collected)
  refine ⟨_, _, run, rfl, rfl, rfl, ?_⟩
  refine (checkpoint_resolves run rfl (fun s hs n f => ?_) 9
    ⟨fun _ => .inl rfl, fun _ => rfl, rfl, fun _ => rfl, rfl, rfl⟩ (k := key) (p := ptr 2) rfl).2.1
  obtain rfl := mem_singleton.mp hs
  exact mem_collectedFiles n f

end TitanGC.Software.Checkpoints
