import TitanGC.Accounting.LevelMerge
import TitanGC.Accounting.LiveData

/-!
# Blob files that nobody deletes

Under `level_merge` a blob file is deleted by the notification that leaves it without
live data, if it is one of a compaction. A file that no table references any more
and that no notification to come is about stays for ever. It does so if the
notification of the flush that wrote it comes after those of the compactions that
dropped all of it, if the write of the manifest fails, or if the file is marked to be
merged in the same call. In every other history of flushes and compactions, all
unreferenced files of the default column family are obsolete in the end.
-/

namespace TitanGC.Accounting.Leaks

open Lib.Runs List Format.Coding Manifest.VersionEdits Manifest.Logging
open SizeCollector Tracking Listener Balance History Preservation RangeDeletion LiveData
open LevelMerge (Call Db)

/-! ## Files that are accounted for -/

def Later (events : List Event) (file : UInt64) : Prop := ∃ e ∈ events, Referenced e.tables file

/-- A job has still to install the file, a table references it, or a notification is
to come. -/
def Expected (l : Lsm) (file : UInt64) : Prop :=
  file ∈ l.finished ∨ Referenced l.tables file ∨ Later l.undelivered file

/-- Every blob file of the default column family is expected or obsolete. -/
def NoneLeaked (s : State) : Prop :=
  ∀ file f, (s.blobs.storage 0).files file = some f → f.state = .obsolete ∨ Expected (s.lsm 0) file

def Quiet (l : Lsm) : Prop := l.finished = [] ∧ l.undelivered = []

/-- The notification leaves the file without live data. -/
def Empties (o : CFOptions) (st : Storage) (file : UInt64) : Event → Prop
  | .flush t => Mentions t.entries file ∧
      ∃ f, st.files file = some f ∧ f.liveDataSize.toNat = referenced t.entries file
  | .compaction status inputs outputs outputLevel =>
    (Call.compaction (Event.jobInfo 0 status inputs outputs outputLevel)).Emptied o st file

/-- The notification deletes the files that it empties. -/
def Deletes (o : CFOptions) (st : Storage) (w : Write) (file : UInt64) : Event → Prop
  | .flush _ => False
  | .compaction status inputs outputs outputLevel => w = .ok ∧
      ¬ (Call.compaction (Event.jobInfo 0 status inputs outputs outputLevel)).Swept o st file

/-- In the default column family, a blob file is installed with a table that references
it, and a notification that empties a file deletes it or is not the last about it. -/
def Reclaims (options : UInt32 → CFOptions) (s : State) : Op → Prop
  | .flush cf table created => cf = 0 → ∀ file ∈ created,
      ((s.blobs.storage 0).files file).isSome → Mentions table.entries file
  | .compact cf _ outputs _ created => cf = 0 → ∀ file ∈ created,
      ((s.blobs.storage 0).files file).isSome → Referenced outputs file
  | .deliver cf i _ w => cf = 0 → ∀ e, (s.lsm 0).undelivered[i]? = some e →
      ∀ file, Empties (options 0) (s.blobs.storage 0) file e →
        Later ((s.lsm 0).undelivered.eraseIdx i) file ∨
          Deletes (options 0) (s.blobs.storage 0) w file e
  | _ => True

variable {s : State}

theorem NoneLeaked.obsolete (h : NoneLeaked s) (hquiet : Quiet (s.lsm 0)) {file : UInt64}
    {f : TrackedFile} (hf : (s.blobs.storage 0).files file = some f)
    (hr : ¬ Referenced (s.lsm 0).tables file) : f.state = .obsolete := by
  rcases h file f hf with hob | hfin | href | ⟨e, he, -⟩
  · exact hob
  · rw [hquiet.1] at hfin
    cases hfin
  · exact absurd href hr
  · rw [hquiet.2] at he
    cases he

/-! ## The invariant -/

/-- A file that waits for the LSM has its own flush or compaction still to come. -/
def Waits (s : State) : Prop :=
  ∀ file f, (s.blobs.storage 0).files file = some f → f.state = .pendingLSM →
    file ∈ (s.lsm 0).finished ∨ ∃ e ∈ (s.lsm 0).undelivered, 0 < e.delta file

structure Tracked (s : State) : Prop where
  inv : Inv (fun _ _ => 0) s
  calls : ∀ cf, (s.lsm cf).calls = []
  waits : Waits s
  none : NoneLeaked s

/-- The two last fields. -/
def Kept (s : State) : Prop := Waits s ∧ NoneLeaked s

/-- An operation keeps them if and only if it reclaims. -/
def KeepsIff (options : UInt32 → CFOptions) (s : State) (op : Op) : Prop :=
  (Reclaims options s op → Waits (exec options s op)) ∧
    (NoneLeaked (exec options s op) ↔ Reclaims options s op)

variable {op : Op}

theorem keepsIff_of {options : UInt32 → CFOptions}
    (hkeeps : Reclaims options s op → Kept (exec options s op))
    (hneeds : NoneLeaked (exec options s op) → Reclaims options s op) : KeepsIff options s op :=
  ⟨fun hreclaims => (hkeeps hreclaims).1, hneeds, fun hreclaims => (hkeeps hreclaims).2⟩

theorem Tracked.frame {s s' : State} (h : Tracked s) (hlsm : s'.lsm 0 = s.lsm 0)
    (hfiles : ∀ file f, (s'.blobs.storage 0).files file = some f →
      (s.blobs.storage 0).files file = some f) : Kept s' := by
  constructor
  · intro file f hf hstate
    rw [hlsm]
    exact h.waits file f (hfiles file f hf) hstate
  · intro file f hf
    rw [hlsm]
    exact h.none file f (hfiles file f hf)

theorem tracked_opened (h : Opened s) (hnone : NoneLeaked s) : Tracked s := by
  refine ⟨inv_opened h, fun cf => (h.quiet cf).2.2, ?_, hnone⟩
  intro file f hf hstate
  obtain ⟨recovered, -, hinit⟩ := h.initialized 0
  obtain ⟨st, hst, hfiles⟩ := initializeGC_files (h.sane 0) (h.small 0) recovered
  rw [hinit] at hst
  cases hst
  rw [hfiles] at hf
  obtain ⟨f₀, -, rfl⟩ := Option.map_eq_some_iff.mp hf
  cases hstate

/-! ## Jobs -/

variable {l : Lsm} {inputs outputs : List Table} {outputLevel : Int}

section

variable (options : UInt32 → CFOptions) {s : State} (h : Tracked s)

include h

/-- A finished file is not known to anybody but its job. -/
theorem finished_untouched {file : UInt64} (hfile : file ∈ (s.lsm 0).finished) :
    Untouched (s.lsm 0) file := (h.inv.untouched 0 file (.inr hfile)).1

theorem finish_keeps (cf : UInt32) (files : List BlobFileMeta) (w : Write) :
    Kept (exec options s (.finish cf files w)) := by
  -- the new files are among the finished ones
  have hnew : ∀ file f, ((s.blobs.logAndApply w (finishEdit cf files)).2.storage 0).files file = some f →
      (s.blobs.storage 0).files file = some f ∨ 0 = cf ∧
        (s.blobs.logAndApply w (finishEdit cf files)).1 = none ∧
        file ∈ files.map (·.fileNumber) := by
    intro file f hf
    refine (logAndApply_added s.blobs w rfl hf).imp_right fun hnew => ?_
    obtain ⟨hcf, hstatus, hmem, hn⟩ := hnew
    obtain ⟨m, hm, rfl⟩ := mem_map.mp hmem
    exact ⟨hcf, hstatus, mem_map.mpr ⟨m, hm, hn⟩⟩
  rw [exec]
  dsimp only
  split
  · by_cases hcf : 0 = cf
    · subst hcf
      constructor
      · intro file f hf hstate
        rw [State.setLsm_self]
        rcases hnew file f hf with hold | ⟨-, -, hmem⟩
        · exact (h.waits file f hold hstate).imp_left (mem_append_left _)
        · exact .inl (mem_append_right _ hmem)
      · intro file f hf
        rw [State.setLsm_self]
        rcases hnew file f hf with hold | ⟨-, -, hmem⟩
        · exact (h.none file f hold).imp_right (Or.imp_left (mem_append_left _))
        · exact .inr (.inl (mem_append_right _ hmem))
    · exact h.frame (State.setLsm_of_ne _ hcf _) fun file f hf =>
        (hnew file f hf).resolve_right fun hnew => hcf hnew.1
  · rename_i hstatus
    exact h.frame rfl fun file f hf => (hnew file f hf).resolve_right fun hnew => hstatus hnew.2.1

variable {created : List UInt64}

section

variable {e : Event} (hfinished : l.finished = (s.lsm 0).finished.filter (· ∉ created))
    (hevents : l.undelivered = (s.lsm 0).undelivered ++ [e])
include hfinished hevents

/-- A job installs its files: what is left of those it has finished, and its tables. -/
theorem installed_keeps
    (htables : ∀ file, Referenced (s.lsm 0).tables file → Referenced l.tables file ∨ Referenced e.tables file)
    (hmention : ∀ file ∈ created, ((s.blobs.storage 0).files file).isSome → 0 < e.delta file) :
    Kept (s.setLsm 0 l) := by
  have hleft : ∀ file ∈ (s.lsm 0).finished, file ∉ created → file ∈ l.finished := by
    intro file hfile hnot
    rw [hfinished]
    exact mem_filter.mpr ⟨hfile, decide_eq_true hnot⟩
  have hlast : e ∈ l.undelivered := by
    rw [hevents]
    exact mem_append_right _ mem_cons_self
  have hold : ∀ e' ∈ (s.lsm 0).undelivered, e' ∈ l.undelivered := by
    intro e' he'
    rw [hevents]
    exact mem_append_left _ he'
  have habout : ∀ file, 0 < e.delta file → Referenced e.tables file := by
    intro file hpos
    by_contra hnot
    rw [delta_eq_zero hnot] at hpos
    exact lt_irrefl 0 hpos
  constructor
  · intro file f hf hstate
    have hsome : ((s.blobs.storage 0).files file).isSome := Option.isSome_of_eq_some hf
    rw [State.setLsm_self]
    rcases h.waits file f hf hstate with hfin | ⟨e', he', hpos⟩
    · by_cases hc : file ∈ created
      · exact .inr ⟨e, hlast, hmention file hc hsome⟩
      · exact .inl (hleft file hfin hc)
    · exact .inr ⟨e', hold e' he', hpos⟩
  · intro file f hf
    have hsome : ((s.blobs.storage 0).files file).isSome := Option.isSome_of_eq_some hf
    rw [State.setLsm_self]
    rcases h.none file f hf with hob | hfin | href | ⟨e', he', hr⟩
    · exact .inl hob
    · by_cases hc : file ∈ created
      · exact .inr (.inr (.inr ⟨e, hlast, habout file (hmention file hc hsome)⟩))
      · exact .inr (.inl (hleft file hfin hc))
    · rcases htables file href with hr | hr
      · exact .inr (.inr (.inl hr))
      · exact .inr (.inr (.inr ⟨e, hlast, hr⟩))
    · exact .inr (.inr (.inr ⟨e', hold e' he', hr⟩))

/-- A file that is installed and not leaked is in a table of its job. -/
theorem mentioned_of_noneLeaked (hnone : NoneLeaked (s.setLsm 0 l)) {file : UInt64}
    (hmem : file ∈ created) (hcreated : file ∈ (s.lsm 0).finished)
    (hsome : ((s.blobs.storage 0).files file).isSome) :
    Referenced l.tables file ∨ Referenced e.tables file := by
  obtain ⟨f, hf⟩ := Option.isSome_iff_exists.mp hsome
  have hstate := h.inv.waiting 0 file f hcreated hf
  have hexpected := hnone file f hf
  rw [State.setLsm_self] at hexpected
  rcases hexpected with hob | hfin | href | ⟨e', he', hr⟩
  · rw [hstate] at hob
    cases hob
  · rw [hfinished] at hfin
    exact absurd hmem (of_decide_eq_true (mem_filter.mp hfin).2)
  · exact .inl href
  · rw [hevents] at he'
    rcases mem_append.mp he' with he' | he'
    · exact absurd hr ((finished_untouched h hcreated).events e' he')
    · rw [mem_singleton.mp he'] at hr
      exact .inr hr

end

theorem flush_keeps_iff {cf : UInt32} {table : Table} (hallowed : Allowed s (.flush cf table created)) :
    KeepsIff options s (.flush cf table created) := by
  obtain ⟨-, hsane, hcreated, -, -⟩ := hallowed
  refine keepsIff_of (fun hreclaims => ?_) fun hnone => ?_
  · by_cases hcf : 0 = cf
    · subst hcf
      refine installed_keeps (e := .flush table) h rfl rfl (fun file hr => .inl ?_) fun file hmem hsome => ?_
      · exact hr.mono (subset_append_left _ _)
      · rw [Event.delta]
        exact_mod_cast referenced_pos hsane.2 (hreclaims rfl file hmem hsome)
    · exact h.frame (State.setLsm_of_ne _ hcf _) fun file f hf => hf
  · intro hcf file hmem hsome
    subst hcf
    have huntouched := finished_untouched h (hcreated file hmem)
    rcases mentioned_of_noneLeaked (e := .flush table) h rfl rfl hnone hmem (hcreated file hmem) hsome
      with hr | hr
    · exact referenced_singleton.mp ((referenced_append.mp hr).resolve_left huntouched.tables)
    · exact referenced_singleton.mp hr

theorem compact_keeps_iff {cf : UInt32}
    (hallowed : Allowed s (.compact cf inputs outputs outputLevel created)) :
    KeepsIff options s (.compact cf inputs outputs outputLevel created) := by
  obtain ⟨-, hsane, hsub, -, hcreated, -⟩ := hallowed
  refine keepsIff_of (fun hreclaims => ?_) fun hnone => ?_
  · by_cases hcf : 0 = cf
    · subst hcf
      refine installed_keeps (e := .compaction none inputs outputs outputLevel) h rfl rfl
        (fun file hr => ?_) fun file hmem hsome => ?_
      · obtain ⟨t, ht, hm⟩ := hr
        by_cases hin : t ∈ inputs
        · exact .inr ⟨t, mem_append_left _ hin, hm⟩
        · exact .inl ⟨t, mem_append_left _ (mem_diff_of_mem ht hin), hm⟩
      · have hpos := refs_pos hsane (hreclaims rfl file hmem hsome)
        have huntouched := finished_untouched h (hcreated file hmem).1
        have hzero : refs inputs file = 0 := by
          have hle := refs_le_of_subperm hsub file
          rw [refs_eq_zero huntouched.tables] at hle
          omega
        rw [Event.delta, hzero]
        omega
    · exact h.frame (State.setLsm_of_ne _ hcf _) fun file f hf => hf
  · intro hcf file hmem hsome
    subst hcf
    have hfin := (hcreated file hmem).1
    have hold := (finished_untouched h hfin).tables
    rcases mentioned_of_noneLeaked (e := .compaction none inputs outputs outputLevel) h rfl rfl hnone hmem
      hfin hsome with hr | hr
    · refine (referenced_append.mp hr).resolve_left fun hr => hold ?_
      exact hr.mono (diff_subset _ _)
    · refine (referenced_append.mp hr).resolve_left fun hr => hold ?_
      exact hr.mono hsub.subset

theorem compactFailed_keeps (cf : UInt32) (status : Status) (inputs outputs : List Table)
    (outputLevel : Int) : Kept (exec options s (.compactFailed cf status inputs outputs outputLevel)) := by
  by_cases hcf : 0 = cf
  · subst hcf
    have hfinished : (s.lsm 0).finished = (s.lsm 0).finished.filter (· ∉ ([] : List UInt64)) := by simp
    exact installed_keeps (e := .compaction (some status) inputs outputs outputLevel) h hfinished rfl
      (fun file hr => .inl hr) (forall_mem_nil _)
  · exact h.frame (State.setLsm_of_ne _ hcf _) fun file f hf => hf

theorem purge_keeps (cf : UInt32) (oldestSequence : Nat) :
    Kept (exec options s (.purge cf oldestSequence)) :=
  h.frame rfl fun _ _ => BlobFiles.purge_files

end

/-! ## Notifications -/

section

variable {o : CFOptions} {s : State} {i : Nat} {e : Event} {file : UInt64} {f : TrackedFile}

theorem later_iff {events : List Event} (hi : events[i]? = some e) :
    Later events file ↔ Referenced e.tables file ∨ Later (events.eraseIdx i) file := by
  obtain ⟨hlt, rfl⟩ := List.getElem?_eq_some_iff.mp hi
  have hmem := fun e' => (getElem_cons_eraseIdx_perm hlt).mem_iff (a := e')
  simp only [Later, ← hmem, mem_cons, or_and_right, exists_or, exists_eq_left]

def delivered (l : Lsm) (i : Nat) : Lsm := { l with undelivered := l.undelivered.eraseIdx i }

theorem deltas_last (hlast : ¬ Later (l.undelivered.eraseIdx i) file) :
    (deltas (delivered l i) file).sum = 0 := by
  refine sum_eq_zero fun d hd => ?_
  obtain ⟨e', he', rfl⟩ := mem_map.mp hd
  exact delta_eq_zero fun hr => hlast ⟨e', he', hr⟩

theorem live_zero (hvalue : value f = 0) : f.liveDataSize = 0 := by
  have hnat : f.liveDataSize.toNat = 0 := by
    rw [value] at hvalue
    split at hvalue <;> omega
  exact UInt64.toNat_inj.mp hnat

variable (h : Tracked s) (hi : (s.lsm 0).undelivered[i]? = some e)

include h

theorem owed_none (file : UInt64) : owed (s.lsm 0) file = 0 := by
  rw [owed, h.calls]
  rfl

include hi

/-- The balance of a file that no other notification is about. -/
theorem balance_last (hf : (s.blobs.storage 0).files file = some f)
    (hlast : ¬ Later ((s.lsm 0).undelivered.eraseIdx i) file) :
    value f + e.delta file = refs (s.lsm 0).tables file := by
  have hbalance := ((h.inv.balanced 0 file f hf).perm (deltas_eraseIdx hi file)).balance
  have hrest := deltas_last hlast
  rw [delivered] at hrest
  rw [sum_cons, owed_none h, hrest] at hbalance
  simpa using hbalance

/-- The increase that a file waits for is this one, if nothing else is left. -/
theorem increase_last (hf : (s.blobs.storage 0).files file = some f) (hstate : f.state = .pendingLSM)
    (hnot : ¬ Expected (delivered (s.lsm 0) i) file) : 0 < e.delta file := by
  rcases h.waits file f hf hstate with hfin | ⟨e', he', hpos⟩
  · exact absurd (.inl hfin) hnot
  · obtain ⟨hlt, rfl⟩ := List.getElem?_eq_some_iff.mp hi
    rcases mem_cons.mp ((getElem_cons_eraseIdx_perm hlt).mem_iff.mpr he') with rfl | hrest
    · exact hpos
    · refine absurd (.inr (.inr ⟨e', hrest, ?_⟩)) hnot
      by_contra hnone
      rw [delta_eq_zero hnone] at hpos
      exact lt_irrefl 0 hpos

/-- The difference of a flush is an increase, so its files have waited. -/
theorem flush_pending {t : Table} (he : e = .flush t) (hm : Mentions t.entries file)
    (hf : (s.blobs.storage 0).files file = some f) : f.state = .pendingLSM := by
  subst he
  have hsane := ((h.inv.lsm 0).events _ (mem_of_getElem? hi)).1
  have hpos := referenced_pos hsane.2 hm
  have hbalanced := (h.inv.balanced 0 file f hf).perm (deltas_eraseIdx hi file)
  by_contra hsettled
  have hle := (hbalanced.settled hsettled).2 _ mem_cons_self
  rw [Event.delta] at hle
  omega

/-- What is known of a file that the notification of a compaction is about. -/
theorem compaction_sound (he : e = .compaction none inputs outputs outputLevel)
    (hf : (s.blobs.storage 0).files file = some f) {delta : Int64}
    (hlookup : (Event.jobInfo 0 none inputs outputs outputLevel).blobFileSizeDiff.lookup file = some delta) :
    delta = Int64.ofInt (e.delta file) ∧ Referenced (inputs ++ outputs) file ∧
      Sound (compactFile o (o.countSortedRun outputLevel) delta f) (refs (s.lsm 0).tables file) 0 0
        (deltas (delivered (s.lsm 0) i) file) := by
  subst he
  have hok := (h.inv.lsm 0).events _ (mem_of_getElem? hi)
  have htotals := hok.totals 0
  have hbalanced := (h.inv.balanced 0 file f hf).perm (deltas_eraseIdx hi file)
  rw [owed_none h] at hbalanced
  have hr : Referenced (inputs ++ outputs) file := by
    by_contra hnot
    rw [(htotals.absent file hnot).1] at hlookup
    cases hlookup
  refine ⟨?_, hr, compactVerdict_sound hok o _ hbalanced hlookup⟩
  rw [htotals.present file hr] at hlookup
  exact (Option.some.inj hlookup).symm

theorem emptied_about (hempties : Empties o (s.blobs.storage 0) file e) : Referenced e.tables file := by
  cases e with
  | flush t => exact referenced_singleton.mpr hempties.1
  | compaction status inputs outputs outputLevel =>
    obtain ⟨delta, f, hlookup, hf, -⟩ := hempties
    cases status with
    | none => exact (compaction_sound (o := o) h hi rfl hf hlookup).2.1
    | some status => cases hlookup

/-- A live file that nothing is left about is left without live data. -/
theorem empties_of_forgotten (hf : (s.blobs.storage 0).files file = some f) (hlive : f.state ≠ .obsolete)
    (habout : Referenced e.tables file) (hnot : ¬ Expected (delivered (s.lsm 0) i) file) :
    Empties o (s.blobs.storage 0) file e := by
  have hlast : ¬ Later ((s.lsm 0).undelivered.eraseIdx i) file := fun hl => hnot (.inr (.inr hl))
  have hzero : refs (s.lsm 0).tables file = 0 := refs_eq_zero fun hr => hnot (.inr (.inl hr))
  have hbalance := balance_last h hi hf hlast
  cases e with
  | flush t =>
    have hm := referenced_singleton.mp habout
    refine ⟨hm, f, hf, ?_⟩
    rw [value, if_pos (flush_pending h hi rfl hm hf), hzero, Event.delta] at hbalance
    omega
  | compaction status inputs outputs outputLevel =>
    cases status with
    | some status => exact absurd habout not_referenced_nil
    | none =>
      have hok := (h.inv.lsm 0).events _ (mem_of_getElem? hi)
      have hlookup := (hok.totals 0).present file habout
      obtain ⟨-, -, hsound⟩ := compaction_sound (o := o) h hi rfl hf hlookup
      refine ⟨_, f, hlookup, hf, ?_, ?_⟩
      · rcases (h.inv.balanced 0 file f hf).states with hs | hs | hs | hs
        · exact .inr (.inl hs)
        · have hpos := increase_last h hi hf hs hnot
          have hbounds := delta_bounds hok file
          exact .inl ⟨hs, Int64.not_le.mp fun hle =>
            absurd ((ofInt_nonpos hbounds.1 hbounds.2).mp hle) (not_le.mpr hpos)⟩
        · exact .inr (.inr hs)
        · exact absurd hs hlive
      · have hvalue := hsound.balanced.balance
        rw [deltas_last hlast, hzero] at hvalue
        simp only [add_zero, Nat.cast_zero] at hvalue
        exact live_zero hvalue

/-- Nothing is left about a file that is emptied, if no other notification is. -/
theorem forgotten_of_empties (hmerge : o.levelMerge = true)
    (hempties : Empties o (s.blobs.storage 0) file e)
    (hlast : ¬ Later ((s.lsm 0).undelivered.eraseIdx i) file) :
    ¬ Expected (delivered (s.lsm 0) i) file := by
  have habout := emptied_about h hi hempties
  have hzero : refs (s.lsm 0).tables file = 0 := by
    cases e with
    | flush t =>
      obtain ⟨hm, f, hf, hlive⟩ := hempties
      have hbalance := balance_last h hi hf hlast
      rw [value, if_pos (flush_pending h hi rfl hm hf), Event.delta] at hbalance
      omega
    | compaction status inputs outputs outputLevel =>
      cases status with
      | some status => exact absurd habout not_referenced_nil
      | none =>
        obtain ⟨delta, f, hlookup, hf, hcounts, hlive⟩ := hempties
        obtain ⟨-, -, hsound⟩ := compaction_sound (o := o) h hi rfl hf hlookup
        have hdelete := (LevelMerge.verdictOf_call hmerge _ delta f).delete.mpr ⟨hcounts, hlive⟩
        obtain ⟨hsettled, hnone⟩ := hsound.deleted hdelete
        exact (hsound.balanced.unreferenced hsettled hnone).1
  intro hexpected
  rcases hexpected with hfin | hr | hlater
  · exact (finished_untouched h hfin).events e (mem_of_getElem? hi) habout
  · have hpos := refs_pos (h.inv.lsm 0).sane hr
    omega
  · exact hlast hlater

end

/-! ## What a notification leaves -/

section

variable {options : UInt32 → CFOptions} (hmerge : (options 0).levelMerge = true) {s : State} {i : Nat}
  {e : Event} (h : Tracked s) (hcf : 0 ∈ s.blobs.ids) (hi : (s.lsm 0).undelivered[i]? = some e)
  (seq : Nat) (w : Write)

/-- What `LevelMerge` says is about the storages and the manifest; the latter does not
matter here. -/
def withoutManifest (s : State) : Db := ⟨s.blobs, 0, []⟩

include hmerge hcf in
theorem notify_deletes {file : UInt64} (hempties : Empties (options 0) (s.blobs.storage 0) file e)
    (hdeletes : Deletes (options 0) (s.blobs.storage 0) w file e) :
    ∃ g, ((notify options s.blobs 0 seq w e).storage 0).files file = some g ∧ g.state = .obsolete := by
  cases e with
  | flush t => exact hdeletes.elim
  | compaction status inputs outputs outputLevel =>
    obtain ⟨rfl, hswept⟩ := hdeletes
    cases status with
    | some status =>
      obtain ⟨delta, f, hlookup, -⟩ := hempties
      cases hlookup
    | none =>
      exact LevelMerge.emptied_obsolete (d := withoutManifest s) hmerge
        (.compaction (Event.jobInfo 0 none inputs outputs outputLevel)) seq rfl hcf rfl hempties hswept

include h hcf hi

/-- Obsolete files stay obsolete, and a file waits only for the increase that has not
come. -/
theorem notify_state {file : UInt64} {g : TrackedFile}
    (hg : ((notify options s.blobs 0 seq w e).storage 0).files file = some g) :
    ∃ f, (s.blobs.storage 0).files file = some f ∧ (f.state = .obsolete → g.state = .obsolete) ∧
      (g.state = .pendingLSM → f.state = .pendingLSM ∧ e.delta file ≤ 0) := by
  have hok := (h.inv.lsm 0).events e (mem_of_getElem? hi)
  cases e with
  | flush t =>
    rw [notify, onFlushCompleted_files hcf hok] at hg
    obtain ⟨f, hf, rfl⟩ := Option.map_eq_some_iff.mp hg
    refine ⟨f, hf, ?_⟩
    by_cases hm : Mentions t.entries file
    · have hpending := flush_pending h hi rfl hm hf
      rw [if_pos hm, flushFile, if_neg (not_not_intro hpending)]
      dsimp only
      rw [TrackedFile.fileStateTransit, if_pos hpending, hpending]
      constructor
      · intro hob
        cases hob
      · intro hnormal
        cases hnormal
    · have hzero : Event.delta file (.flush t) = 0 :=
        delta_eq_zero fun hr => hm (referenced_singleton.mp hr)
      rw [if_neg hm, hzero]
      exact ⟨id, fun hpending => ⟨hpending, le_rfl⟩⟩
  | compaction status inputs outputs outputLevel =>
    cases status with
    | some status =>
      rw [notify_failed] at hg
      exact ⟨g, hg, id, fun hpending => ⟨hpending, le_rfl⟩⟩
    | none =>
      have htotals := hok.totals 0
      obtain ⟨f, hf, ⟨hne, -⟩ | ⟨-, hacc⟩⟩ := onCompactionCompleted_accounts
        (Event.jobInfo 0 none inputs outputs outputLevel) rfl hcf htotals.ordered
        (h.inv.distinct 0) (options 0) seq w hg
      · exact absurd rfl hne
      refine ⟨f, hf, ?_⟩
      cases hlookup : (Event.jobInfo 0 none inputs outputs outputLevel).blobFileSizeDiff.lookup file with
      | none =>
        rw [hacc.of_none hlookup]
        have hnot : ¬ Referenced (inputs ++ outputs) file := fun hr => by
          rw [htotals.present file hr] at hlookup
          cases hlookup
        rw [(htotals.absent file hnot).2]
        exact ⟨id, fun hpending => ⟨hpending, le_rfl⟩⟩
      | some d =>
        obtain ⟨hd, -, -⟩ := compaction_sound (o := options 0) h hi rfl hf hlookup
        have hbounds := delta_bounds hok file
        refine ⟨hacc.obsolete, fun hpending => ?_⟩
        obtain ⟨hstate, hle⟩ := hacc.pending hpending
        have hle' := hle d hlookup
        rw [hd] at hle'
        exact ⟨hstate, (ofInt_nonpos hbounds.1 hbounds.2).mp hle'⟩

include hmerge

theorem notify_stays {file : UInt64} (hempties : Empties (options 0) (s.blobs.storage 0) file e)
    (hnot : ¬ Deletes (options 0) (s.blobs.storage 0) w file e) :
    ∃ g, ((notify options s.blobs 0 seq w e).storage 0).files file = some g ∧ g.state ≠ .obsolete := by
  cases e with
  | flush t =>
    obtain ⟨hm, f, hf, -⟩ := hempties
    have hok := (h.inv.lsm 0).events _ (mem_of_getElem? hi)
    have hpending := flush_pending h hi rfl hm hf
    rw [notify, onFlushCompleted_files hcf hok, hf, Option.map_some, if_pos hm]
    refine ⟨_, rfl, ?_⟩
    rw [flushFile, if_neg (not_not_intro hpending)]
    dsimp only
    rw [TrackedFile.fileStateTransit, if_pos hpending]
    exact FileState.noConfusion
  | compaction status inputs outputs outputLevel =>
    cases status with
    | some status =>
      obtain ⟨delta, f, hlookup, -⟩ := hempties
      cases hlookup
    | none =>
      refine LevelMerge.emptied_stays (d := withoutManifest s) hmerge
        (.compaction (Event.jobInfo 0 none inputs outputs outputLevel)) seq w rfl hcf hempties ?_
      by_cases hw : w = .ok
      · exact .inr (not_not.mp fun hswept => hnot ⟨hw, hswept⟩)
      · exact .inl hw

end

section

variable {options : UInt32 → CFOptions} (hmerge : (options 0).levelMerge = true) {s : State}
  (h : Tracked s) {cf : UInt32} {i seq : Nat} {w : Write}

include hmerge h

theorem deliver_keeps_iff (hallowed : Allowed s (.deliver cf i seq w)) :
    Waits (exec options s (.deliver cf i seq w)) ∧
      (NoneLeaked (exec options s (.deliver cf i seq w)) ↔ Reclaims options s (.deliver cf i seq w)) := by
  have hids : cf ∈ s.blobs.ids := hallowed
  by_cases hcf : 0 = cf
  · subst hcf
    rw [exec]
    cases hi : (s.lsm 0).undelivered[i]? with
    | none =>
      refine ⟨h.waits, fun _ _ e he => ?_, fun _ => h.none⟩
      rw [hi] at he
      cases he
    | some e =>
      have hok := (h.inv.lsm 0).events e (mem_of_getElem? hi)
      have hhandled := notify_handled hids (h.inv.distinct 0) hok options seq w
      refine ⟨fun file g hg hpending => ?_, fun hnone _ e' he' file hempties => ?_, fun hreclaims => ?_⟩
      · rw [State.setLsm_self]
        obtain ⟨f, hf, -, hwaited⟩ := notify_state h hids hi seq w hg
        obtain ⟨hstate, hle⟩ := hwaited hpending
        refine (h.waits file f hf hstate).imp_right fun hevent => ?_
        obtain ⟨e', he', hpos⟩ := hevent
        obtain ⟨hlt, rfl⟩ := List.getElem?_eq_some_iff.mp hi
        rcases mem_cons.mp ((getElem_cons_eraseIdx_perm hlt).mem_iff.mpr he') with rfl | hrest
        · exact absurd hpos (not_lt.mpr hle)
        · exact ⟨e', hrest, hpos⟩
      · obtain rfl : e = e' := Option.some.inj (hi.symm.trans he')
        by_contra hcontra
        obtain ⟨hlast, hnot⟩ := not_or.mp hcontra
        obtain ⟨g, hg, hlive⟩ := notify_stays hmerge h hids hi seq w hempties hnot
        have hexpected := (hnone file g hg).resolve_left hlive
        rw [State.setLsm_self] at hexpected
        exact forgotten_of_empties h hi hmerge hempties hlast hexpected
      · intro file g hg
        rw [State.setLsm_self]
        by_contra hcontra
        obtain ⟨hlive, hnot⟩ := not_or.mp hcontra
        obtain ⟨f, hf, -, hsame⟩ := hhandled.own file g hg
        by_cases habout : Referenced e.tables file
        · obtain ⟨f', hf', hob, -⟩ := notify_state h hids hi seq w hg
          obtain rfl : f = f' := Option.some.inj (hf.symm.trans hf')
          have hempties := empties_of_forgotten (o := options 0) h hi hf (fun h => hlive (hob h)) habout hnot
          rcases hreclaims rfl e hi file hempties with hlater | hdeletes
          · exact hnot (.inr (.inr hlater))
          · obtain ⟨g', hg', hob'⟩ := notify_deletes hmerge hids seq w hempties hdeletes
            obtain rfl : g = g' := Option.some.inj (hg.symm.trans hg')
            exact hlive hob'
        · obtain rfl := hsame habout
          rcases h.none file g hf with hob | hfin | hr | hlater
          · exact hlive hob
          · exact hnot (.inl hfin)
          · exact hnot (.inr (.inl hr))
          · exact hnot (.inr (.inr (((later_iff hi).mp hlater).resolve_left habout)))
  · have hframe : Kept (exec options s (.deliver cf i seq w)) := by
      rw [exec]
      cases hi : (s.lsm cf).undelivered[i]? with
      | none => exact ⟨h.waits, h.none⟩
      | some e =>
        have hok := (h.inv.lsm cf).events e (mem_of_getElem? hi)
        have hhandled := notify_handled hids (h.inv.distinct cf) hok options seq w
        exact h.frame (State.setLsm_of_ne _ hcf _) fun file f hf => hhandled.others 0 hcf file f hf
    exact ⟨hframe.1, fun _ heq => absurd heq.symm hcf, fun _ => hframe.2⟩

end

/-! ## Histories -/

section

variable {options : UInt32 → CFOptions} (hmerge : (options 0).levelMerge = true)

include hmerge

theorem keeps_iff (h : Tracked s) (hallowed : Allowed s op) (hno : NoRange op) :
    KeepsIff options s op := by
  cases op with
  | finish cf files w =>
    exact keepsIff_of (fun _ => finish_keeps options h cf files w) fun _ => trivial
  | flush cf table created => exact flush_keeps_iff options h hallowed
  | compact cf inputs outputs outputLevel created => exact compact_keeps_iff options h hallowed
  | compactFailed cf status inputs outputs outputLevel =>
    exact keepsIff_of (fun _ => compactFailed_keeps options h cf status inputs outputs outputLevel)
      fun _ => trivial
  | deliver cf i seq w =>
    have hkeeps := deliver_keeps_iff hmerge h hallowed
    exact ⟨fun _ => hkeeps.1, hkeeps.2⟩
  | purge cf oldestSequence =>
    exact keepsIff_of (fun _ => purge_keeps options h cf oldestSequence) fun _ => trivial
  | readRange cf view maxLevel ranges includeEnd => exact hno.elim
  | removeRange cf i status deleted => exact hno.elim
  | accountRange cf i seq w => exact hno.elim

theorem tracked_exec (h : Tracked s) (hallowed : Allowed s op) (hno : NoRange op)
    (hreclaims : Reclaims options s op) : Tracked (exec options s op) := by
  obtain ⟨hwaits, hnone⟩ := keeps_iff hmerge h hallowed hno
  refine ⟨inv_exec_noRange h.inv hallowed hno options, fun cf => ?_, hwaits hreclaims, hnone.mpr hreclaims⟩
  rw [calls_exec options hno]
  exact h.calls cf

end

/-- Along every history of flushes and compactions, no blob file of the default column
family is leaked exactly if none is at the start and every operation reclaims; and
then, once all notifications are delivered, every file that no table references is
obsolete. -/
theorem level_merge_leaks_nothing {options : UInt32 → CFOptions} {s₀ : State}
    (hmerge : (options 0).levelMerge = true) (hopened : Opened s₀) {ops : List Op}
    (hrun : Along (exec options) (fun s op => Allowed s op ∧ NoRange op) s₀ ops) :
    (Always (exec options) NoneLeaked s₀ ops ↔
        NoneLeaked s₀ ∧ Along (exec options) (Reclaims options) s₀ ops) ∧
      (NoneLeaked s₀ ∧ Along (exec options) (Reclaims options) s₀ ops →
        Quiet ((ops.foldl (exec options) s₀).lsm 0) →
        ∀ file f, ((ops.foldl (exec options) s₀).blobs.storage 0).files file = some f →
          ¬ Referenced ((ops.foldl (exec options) s₀).lsm 0).tables file → f.state = .obsolete) := by
  have hiff : NoneLeaked s₀ → (Always (exec options) NoneLeaked s₀ ops ↔
      Along (exec options) (Reclaims options) s₀ ops) := fun hstart =>
    always_iff_along_within Tracked
      (fun s op h hallowed hreclaims => tracked_exec hmerge h hallowed.1 hallowed.2 hreclaims)
      (fun s h => h.none)
      (fun s op h hallowed hnone => (keeps_iff hmerge h hallowed.1 hallowed.2).2.mp hnone)
      (tracked_opened hopened hstart) hrun
  refine ⟨⟨fun h => ⟨h.first, (hiff h.first).mp h⟩, fun h => (hiff h.1).mpr h.2⟩,
    fun h hquiet file f hf hr => ?_⟩
  exact ((hiff h.1).mpr h.2).last.obsolete hquiet hf hr

/-! ## A file that is dropped at once -/

theorem empty_noneLeaked : NoneLeaked empty := by
  intro file f hf
  cases hf

def inOrder : List Op := dropped ++ [.deliver 0 0 0 .ok]

theorem inOrder_allowed :
    Along (exec merging) (fun s op => Allowed s op ∧ NoRange op) empty inOrder :=
  ⟨⟨⟨by decide, by decide, by decide⟩, trivial⟩, ⟨flush_allowed (by decide), trivial⟩,
    ⟨compact_allowed (by decide), trivial⟩, ⟨mem_singleton.mpr rfl, trivial⟩,
    ⟨mem_singleton.mpr rfl, trivial⟩, trivial⟩

theorem inOrder_reclaims : Along (exec merging) (Reclaims merging) empty inOrder := by
  refine ⟨trivial, fun _ file hfile _ => ?_, fun _ file hfile => absurd hfile not_mem_nil,
    fun _ e he file hempties => ?_, fun _ e he file hempties => .inr ?_, trivial⟩
  · rw [mem_singleton.mp hfile]
    decide
  · -- the compaction is still to come
    cases he
    refine .inl ⟨_, mem_singleton.mpr rfl, ?_⟩
    exact (referenced_singleton.mpr hempties.1).mono (subset_append_left _ _)
  · cases he
    refine ⟨rfl, fun hswept => ?_⟩
    cases hswept

theorem level_merge_leaks_nothing_inOrder :
    Quiet ((inOrder.foldl (exec merging) empty).lsm 0) ∧
      ∃ f, ((inOrder.foldl (exec merging) empty).blobs.storage 0).files 3 = some f ∧
        f.state = .obsolete :=
  ⟨⟨rfl, rfl⟩, _, rfl, (level_merge_leaks_nothing rfl empty_opened inOrder_allowed).2
    ⟨empty_noneLeaked, inOrder_reclaims⟩ ⟨rfl, rfl⟩ 3 _ rfl not_referenced_nil⟩

def flushLast : List Op :=
  written [indexed 1] ++
  [.compact 0 [table 10 0 1 2 [indexed 1]] [] 1 [], .deliver 0 1 0 .ok, .deliver 0 0 0 .ok]

/-- The compaction has subtracted the file's size before it was added; the flush then
finds nothing left, and does not delete the file. -/
theorem flush_last_leaks :
    Along (exec merging) (fun s op => Allowed s op ∧ NoRange op) empty flushLast ∧
      Quiet ((flushLast.foldl (exec merging) empty).lsm 0) ∧
      ((flushLast.foldl (exec merging) empty).blobs.storage 0).files 3 =
        some ⟨{ fileNumber := 3 }, 0, .normal⟩ ∧
      ¬ Referenced ((flushLast.foldl (exec merging) empty).lsm 0).tables 3 :=
  ⟨⟨⟨⟨by decide, by decide, by decide⟩, trivial⟩, ⟨flush_allowed (by decide), trivial⟩,
    ⟨compact_allowed (by decide), trivial⟩, ⟨mem_singleton.mpr rfl, trivial⟩,
    ⟨mem_singleton.mpr rfl, trivial⟩, trivial⟩, ⟨rfl, rfl⟩, rfl, not_referenced_nil⟩

end TitanGC.Accounting.Leaks
