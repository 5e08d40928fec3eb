import TitanGC.Accounting.RangeDeletion

/-!
# Live data sizes and deleted blob files

In every history of flushes and compactions the live data sizes are, once all
notifications are delivered, what a restart would compute; and a blob file that is
put into a delete edit is referenced by no table. A range deletion deletes only
unreferenced files where it is accurate. It need not be: the tables that it has read
may be compacted before the base database deletes any, and it treats the counter of
a file that waits for the LSM as a size.
-/

namespace TitanGC.Accounting.LiveData

open Lib.Runs Lib.OrderedMap List Format.BlobFormat Manifest.Logging Manifest.Families
open SizeCollector Tracking Listener Balance History Preservation RangeDeletion

/-! ## Restart -/

/-- `InitializeGC` gives every file the bytes by which the tables reference it. -/
theorem initializeGC_files {tables : List Table} (hsane : ∀ t ∈ tables, Sane t)
    (hsmall : ∀ file, refs tables file < 2 ^ 63) (st : Storage) :
    ∃ st', initializeGC tables st = .ok st' ∧ ∀ n, st'.files n = (st.files n).map fun f =>
      { f with
        liveDataSize := if Referenced tables n then UInt64.ofNat (refs tables n) else f.liveDataSize
        state := .normal } := by
  obtain ⟨diff, hrun, -, htotals⟩ := foldl_extract hsane hsmall true (Totals.empty Int64.ofInt)
  refine ⟨_, by rw [initializeGC, hrun, ok_bind]; rfl, fun n => ?_⟩
  have hfiles : (diff.foldl (fun st p =>
      st.modify p.1 fun f => { f with liveDataSize := p.2.toUInt64 }) st).files n =
      (diff.lookup n).elim (st.files n) fun d =>
        (st.files n).map fun f => { f with liveDataSize := d.toUInt64 } :=
    foldl_modify_files (nodup_keys htotals.ordered) (fun d f => { f with liveDataSize := d.toUInt64 }) st n
  rw [Storage.initializeAllFiles]
  dsimp only
  rw [hfiles]
  by_cases hr : Referenced tables n
  · have hword : (Int64.ofInt (refs tables n : ℤ)).toUInt64 = UInt64.ofNat (refs tables n) := by
      rw [Int64.ofInt_eq_ofNat, ← UInt64.toInt64_ofNat', UInt64.toUInt64_toInt64]
    rw [htotals.present n (.inr hr)]
    simp only [zero_add, if_true, Option.elim_some, Option.map_map, hword, if_pos hr]
    rfl
  · rw [(htotals.absent n (by simpa using hr)).1]
    simp only [Option.elim_none, if_neg hr]
    rfl

variable {s : State}

theorem inv_opened (h : Opened s) : Inv (fun _ _ => 0) s := by
  have hempty : ∀ cf file, Referenced (s.lsm cf).tables file ∨ Untouched (s.lsm cf) file := by
    intro cf file
    obtain ⟨-, hevents, hcalls⟩ := h.quiet cf
    by_cases hr : Referenced (s.lsm cf).tables file
    · exact .inl hr
    · refine .inr ⟨hr, fun e he => ?_, fun c hc => ?_⟩
      · rw [hevents] at he
        cases he
      · rw [hcalls] at hc
        cases hc
  refine ⟨fun cf => ?_, fun cf file f hf => ?_, fun cf file hfile => ?_, fun cf file f hfin => ?_,
    fun cf file hfin => ?_, h.stored, h.distinct⟩
  · obtain ⟨-, hevents, hcalls⟩ := h.quiet cf
    refine ⟨h.sane cf, h.small cf, fun e he => ?_, fun c hc => ?_⟩
    · rw [hevents] at he
      cases he
    · rw [hcalls] at hc
      cases hc
  · obtain ⟨-, hevents, hcalls⟩ := h.quiet cf
    obtain ⟨recovered, hrecovered, hinit⟩ := h.initialized cf
    obtain ⟨st, hst, hfiles⟩ := initializeGC_files (h.sane cf) (h.small cf) recovered
    rw [hinit] at hst
    cases hst
    rw [hfiles] at hf
    obtain ⟨f₀, hf₀, rfl⟩ := Option.map_eq_some_iff.mp hf
    have hsmall := h.small cf file
    have hlive : (if Referenced (s.lsm cf).tables file then UInt64.ofNat (refs (s.lsm cf).tables file)
        else f₀.liveDataSize).toNat = refs (s.lsm cf).tables file := by
      by_cases hr : Referenced (s.lsm cf).tables file
      · rw [if_pos hr, UInt64.toNat_ofNat_of_lt' (by norm_num [UInt64.size]; omega)]
      · rw [if_neg hr, (hrecovered file f₀ hf₀).1, refs_eq_zero hr]
        rfl
    have hdeltas : deltas (s.lsm cf) file = [] := by rw [deltas, hevents]; rfl
    have howed : owed (s.lsm cf) file = 0 := by rw [owed, hcalls]; rfl
    rw [hdeltas, howed]
    refine ⟨.inl rfl, ?_, forall_mem_nil _, List.Pairwise.nil,
      fun _ => ⟨?_, forall_mem_nil _⟩, fun hstate => FileState.noConfusion hstate⟩
    · rw [value, if_neg FileState.noConfusion]
      dsimp only
      rw [hlive]
      simp
    · dsimp only
      rw [hlive]
      exact hsmall
  · obtain ⟨hfinished, -, -⟩ := h.quiet cf
    rw [hfinished] at hfile
    refine ⟨(hempty cf file).resolve_left fun hr => ?_, rfl⟩
    exact (hfile.resolve_right not_mem_nil) (h.mentioned cf file hr)
  · rw [(h.quiet cf).1] at hfin
    cases hfin
  · rw [(h.quiet cf).1] at hfin
    cases hfin

/-! ## Histories without range deletions -/

section

variable (options : UInt32 → CFOptions) {s₀ : State} (hopened : Opened s₀) {ops : List Op}
  (hrun : Along (exec options) (fun s op => Allowed s op ∧ NoRange op) s₀ ops)

theorem calls_exec {op : Op} (hno : NoRange op) (cf : UInt32) :
    ((exec options s op).lsm cf).calls = (s.lsm cf).calls := by
  have hset : ∀ (s' : State) (cf' : UInt32) (l : Lsm), l.calls = (s'.lsm cf').calls →
      ((s'.setLsm cf' l).lsm cf).calls = (s'.lsm cf).calls := by
    intro s' cf' l hl
    by_cases hcf : cf = cf'
    · subst hcf
      rw [State.setLsm_self, hl]
    · rw [State.setLsm_of_ne _ hcf]
  cases op with
  | finish cf' files w =>
    rw [exec]
    dsimp only
    split
    · exact hset _ cf' _ rfl
    · rfl
  | flush cf' table created => exact hset s cf' _ rfl
  | compact cf' inputs outputs outputLevel created => exact hset s cf' _ rfl
  | compactFailed cf' status inputs outputs outputLevel => exact hset s cf' _ rfl
  | deliver cf' i seq w =>
    rw [exec]
    cases (s.lsm cf').undelivered[i]? with
    | none => rfl
    | some e => exact hset _ cf' _ rfl
  | purge cf' oldestSequence => rfl
  | readRange cf' view maxLevel ranges includeEnd => exact hno.elim
  | removeRange cf' i status deleted => exact hno.elim
  | accountRange cf' i seq w => exact hno.elim

include hopened hrun

/-- Without range deletions nothing is owed, and nothing is forgotten. -/
theorem inv_history :
    Inv (fun _ _ => 0) (ops.foldl (exec options) s₀) ∧
      ∀ cf, ((ops.foldl (exec options) s₀).lsm cf).calls = [] := by
  refine foldl_invariant (fun s => Inv (fun _ _ => 0) s ∧ ∀ cf, (s.lsm cf).calls = [])
    (fun s op ⟨hinv, hcalls⟩ ⟨hallowed, hno⟩ => ?_)
    ⟨inv_opened hopened, fun cf => (hopened.quiet cf).2.2⟩ hrun
  exact ⟨inv_exec_noRange hinv hallowed hno options,
    fun cf => (calls_exec options hno cf).trans (hcalls cf)⟩

/-- The incremental sizes are those that `InitializeGC` computes. -/
theorem live_data_eq_recomputed {cf : UInt32}
    (hdelivered : ((ops.foldl (exec options) s₀).lsm cf).undelivered = []) {file : UInt64}
    {f : TrackedFile} (hf : ((ops.foldl (exec options) s₀).blobs.storage cf).files file = some f) :
    f.liveDataSize.toNat = refs ((ops.foldl (exec options) s₀).lsm cf).tables file ∧
      ∀ recovered : Storage, recovered.files file = some { file := f.file } →
        ∃ st, initializeGC ((ops.foldl (exec options) s₀).lsm cf).tables recovered = .ok st ∧
          st.files file = some { file := f.file, liveDataSize := f.liveDataSize, state := .normal } := by
  obtain ⟨hinv, hcalls⟩ := inv_history options hopened hrun
  generalize ops.foldl (exec options) s₀ = s at *
  have hbalance := (hinv.balanced cf file f hf).balance
  have hdeltas : deltas (s.lsm cf) file = [] := by rw [deltas, hdelivered]; rfl
  have howed : owed (s.lsm cf) file = 0 := by rw [owed, hcalls]; rfl
  have hlive : f.liveDataSize.toNat = refs (s.lsm cf).tables file := by
    rw [hdeltas, howed, value] at hbalance
    simp only [sum_nil, add_zero, Nat.cast_zero] at hbalance
    split at hbalance
    · omega
    · omega
  refine ⟨hlive, fun recovered hrecovered => ?_⟩
  obtain ⟨st, hst, hfiles⟩ := initializeGC_files (hinv.lsm cf).sane (hinv.lsm cf).small recovered
  refine ⟨st, hst, ?_⟩
  have hsize : (if Referenced (s.lsm cf).tables file then UInt64.ofNat (refs (s.lsm cf).tables file)
      else 0) = f.liveDataSize := by
    by_cases hr : Referenced (s.lsm cf).tables file
    · rw [if_pos hr, ← hlive, UInt64.ofNat_toNat]
    · rw [if_neg hr]
      rw [refs_eq_zero hr] at hlive
      exact UInt64.toNat_inj.mp hlive.symm
  rw [hfiles, hrecovered, Option.map_some, ← hsize]

/-- A blob file that `OnCompactionCompleted` puts into its edit is referenced by no
table of the current version, whatever is still to be delivered. -/
theorem compaction_deletes_unreferenced {cf : UInt32} {i : Nat} {inputs outputs : List Table}
    {outputLevel : Int}
    (hi : ((ops.foldl (exec options) s₀).lsm cf).undelivered[i]? =
      some (.compaction none inputs outputs outputLevel)) (seq : Nat) :
    ∀ x ∈ (compactionPass (options cf) (Event.jobInfo cf none inputs outputs outputLevel) seq
        ((ops.foldl (exec options) s₀).blobs.storage cf)).edit.deletedFiles,
      ¬ Referenced ((ops.foldl (exec options) s₀).lsm cf).tables x.1 := by
  obtain ⟨hinv, -⟩ := inv_history options hopened hrun
  generalize ops.foldl (exec options) s₀ = s at *
  have he := (hinv.lsm cf).events _ (mem_of_getElem? hi)
  have htotals := he.totals cf
  intro x hx hr
  obtain ⟨d, f, hlookup, hf, hdelete⟩ := (accountFiles_pass _ seq htotals.ordered _).deleted x hx
  have hbalanced := (hinv.balanced cf x.1 f hf).perm (deltas_eraseIdx hi x.1)
  have hsound := compactVerdict_sound he (options cf) ((options cf).countSortedRun outputLevel)
    hbalanced hlookup
  obtain ⟨hsettled, hlive⟩ := hsound.deleted hdelete
  have hzero := (hsound.balanced.unreferenced hsettled hlive).1
  have hpos := refs_pos (hinv.lsm cf).sane hr
  omega

end

/-! ## Two tables and a blob file -/

def empty : State := { blobs := { ids := [0], storage := fun _ => {} } }

theorem empty_opened : Opened empty where
  initialized _ := ⟨{}, nofun, rfl⟩
  quiet _ := ⟨rfl, rfl, rfl⟩
  sane _ := nofun
  small _ _ := by
    change 0 < 2 ^ 63
    decide
  stored _ _ := nofun
  mentioned _ _ := fun hr => absurd hr not_referenced_nil
  distinct _ _ _ := nofun

def merging (_ : UInt32) : CFOptions := { levelMerge := true }

def indexed (key : UInt8) : Entry where
  key := [key]
  value := ({ fileNumber := 3, blobHandle := { size := 10 } } : BlobIndex).encodeTo
  type := .blobIndex

def inline (key : UInt8) : Entry := { key := [key], value := [], type := .put }

def table (number : UInt64) (level : Nat) (smallest largest : UInt8) (entries : List Entry) : Table where
  number := number
  level := level
  smallest := [smallest]
  largest := [largest]
  entries := entries

/-- The sizes of all references, to whatever file. -/
def allReferenced (entries : List Entry) : ℕ := ((entries.filterMap Entry.reference).map (·.2.toNat)).sum

theorem referenced_le (entries : List Entry) (file : UInt64) :
    referenced entries file ≤ allReferenced entries := by
  refine sum_le_sum fun r _ => ?_
  split
  · exact le_rfl
  · exact Nat.zero_le _

theorem refs_le (tables : List Table) (file : UInt64) :
    refs tables file ≤ (tables.map (allReferenced ·.entries)).sum :=
  sum_le_sum fun t _ => referenced_le t.entries file

/-- The conditions on a flush, checked for the files that its table mentions. -/
theorem flush_allowed {cf : UInt32} {t : Table} {created : List UInt64}
    (h : cf ∈ s.blobs.ids ∧ Sane t ∧ created.all (· ∈ (s.lsm cf).finished) ∧
      (t.entries.filterMap Entry.reference).all (·.1 ∈ created) ∧
      allReferenced t.entries < 2 ^ 63) :
    Allowed s (.flush cf t created) := by
  obtain ⟨hcf, hsane, hcreated, hown, hsum⟩ := h
  simp only [all_eq_true, decide_eq_true_eq] at hcreated hown
  refine ⟨hcf, hsane, hcreated, fun file hm => ?_, fun file =>
    (referenced_le t.entries file).trans_lt hsum⟩
  obtain ⟨size, hmem⟩ := hm
  exact hown (file, size) hmem

/-- The conditions on a compaction without blob files of its own, checked for the
files that its outputs mention. -/
theorem compact_allowed {cf : UInt32} {inputs outputs : List Table} {outputLevel : Int}
    (h : cf ∈ s.blobs.ids ∧ (∀ t ∈ outputs, Sane t) ∧ inputs.Subperm (s.lsm cf).tables ∧
      (∀ a ∈ inputs ++ outputs, ∀ b ∈ inputs ++ outputs, a.number = b.number → a.entries = b.entries) ∧
      ∀ t ∈ outputs, (t.entries.filterMap Entry.reference).all
        fun r => refs outputs r.1 ≤ refs inputs r.1) :
    Allowed s (.compact cf inputs outputs outputLevel []) := by
  obtain ⟨hcf, hsane, hsub, hnamed, hrefs⟩ := h
  refine ⟨hcf, hsane, hsub, hnamed, nofun, fun file _ => ?_⟩
  by_cases hr : Referenced outputs file
  · obtain ⟨t, ht, size, hmem⟩ := hr
    have hle := hrefs t ht
    simp only [all_eq_true, decide_eq_true_eq] at hle
    exact hle (file, size) hmem
  · rw [refs_eq_zero hr]
    exact Nat.zero_le _

def written (entries : List Entry) : List Op :=
  [.finish 0 [{ fileNumber := 3 }] .ok, .flush 0 (table 10 0 1 2 entries) [3]]

/-- A compaction drops one of two keys, and its notification comes before that of the
flush. -/
def reversed : List Op :=
  written [indexed 1, indexed 2] ++
  [.compact 0 [table 10 0 1 2 [indexed 1, indexed 2]] [table 11 1 1 1 [indexed 1]] 1 [],
   .deliver 0 1 0 .ok, .deliver 0 0 0 .ok]

theorem reversed_allowed :
    Along (exec merging) (fun s op => Allowed s op ∧ NoRange op) empty reversed :=
  ⟨⟨⟨by decide, by decide, by decide⟩, trivial⟩, ⟨flush_allowed (by decide), trivial⟩,
    ⟨compact_allowed (by decide), trivial⟩, ⟨mem_singleton.mpr rfl, trivial⟩,
    ⟨mem_singleton.mpr rfl, trivial⟩, trivial⟩

theorem live_data_eq_recomputed_reversed :
    ∃ f, ((reversed.foldl (exec merging) empty).blobs.storage 0).files 3 = some f ∧
      f.liveDataSize = 10 ∧
      f.liveDataSize.toNat = refs ((reversed.foldl (exec merging) empty).lsm 0).tables 3 :=
  ⟨_, rfl, rfl, (live_data_eq_recomputed merging empty_opened reversed_allowed rfl rfl).1⟩

def dropped : List Op :=
  written [indexed 1] ++ [.compact 0 [table 10 0 1 2 [indexed 1]] [] 1 [], .deliver 0 0 0 .ok]

theorem dropped_allowed : Along (exec merging) (fun s op => Allowed s op ∧ NoRange op) empty dropped :=
  ⟨⟨⟨by decide, by decide, by decide⟩, trivial⟩, ⟨flush_allowed (by decide), trivial⟩,
    ⟨compact_allowed (by decide), trivial⟩, ⟨mem_singleton.mpr rfl, trivial⟩, trivial⟩

theorem compaction_deletes_unreferenced_dropped :
    (3, 7) ∈ (compactionPass (merging 0) (Event.jobInfo 0 none [table 10 0 1 2 [indexed 1]] [] 1) 7
        ((dropped.foldl (exec merging) empty).blobs.storage 0)).edit.deletedFiles ∧
      ¬ Referenced ((dropped.foldl (exec merging) empty).lsm 0).tables 3 :=
  ⟨by decide, compaction_deletes_unreferenced merging empty_opened dropped_allowed (i := 0) rfl 7 (3, 7)
    (by decide)⟩

/-! ## Range deletions -/

/-- A range deletion that is accurate, after a history in which all were, deletes
blob files that no remaining table references. -/
theorem range_deletes_unreferenced (options : UInt32 → CFOptions) {s₀ : State} (hopened : Opened s₀)
    {ops : List Op} (hrun : Along (exec options) (fun s op => Allowed s op ∧ Accurate s op) s₀ ops)
    {cf : UInt32} {i seq : Nat} {w : Write}
    (hallowed : Allowed (ops.foldl (exec options) s₀) (.accountRange cf i seq w))
    (haccurate : Accurate (ops.foldl (exec options) s₀) (.accountRange cf i seq w)) {call : RangeCall}
    (hi : ((ops.foldl (exec options) s₀).lsm cf).calls[i]? = some call) :
    ∀ x ∈ (rangePass (options cf) call.read seq
        ((ops.foldl (exec options) s₀).blobs.storage cf)).edit.deletedFiles,
      ¬ Referenced ((ops.foldl (exec options) s₀).lsm cf).tables x.1 := by
  obtain ⟨slack, hinv⟩ : ∃ slack, Inv slack (ops.foldl (exec options) s₀) := by
    refine foldl_invariant (fun s => ∃ slack, Inv slack s)
      (fun s op ⟨slack, hinv⟩ ⟨hallowed, haccurate⟩ => ?_)
      ⟨_, inv_opened hopened⟩ hrun
    obtain ⟨slack', hinv', -⟩ := inv_exec hinv hallowed haccurate options
    exact ⟨slack', hinv'⟩
  generalize ops.foldl (exec options) s₀ = s at *
  obtain ⟨hsane, hsmall⟩ := (hinv.lsm cf).calls call (mem_of_getElem? hi)
  intro x hx hr
  obtain ⟨d, f, hlookup, hf, hdelete⟩ :=
    (accountFiles_pass _ seq (rangeDiff_totals hsane hsmall).ordered _).deleted x hx
  have hbalanced := hinv.balanced cf x.1 f hf
  rw [owed_eraseIdx hi, hallowed.2 call hi, if_pos rfl, add_comm] at hbalanced
  have hsound := rangeVerdict_sound hsane hsmall (options cf)
    (fun hread => haccurate call hi x.1 f hread hf) hbalanced hlookup
  obtain ⟨hsettled, hlive⟩ := hsound.deleted hdelete
  have hzero := (hsound.balanced.unreferenced hsettled hlive).1
  have hpos := refs_pos (hinv.lsm cf).sane hr
  omega

def inside : VersionView where
  cleanInputs tables start limit :=
    tables.filter fun t => !decide (t.smallest < start.getD []) && !limit.any (· < t.largest)
  beingCompacted _ := false

theorem inside_subset (tables : List Table) (start limit : Option (List UInt8)) :
    inside.cleanInputs tables start limit ⊆ tables := filter_subset_self _

/-- Read the tables that have no key but the first. -/
def readFirst : Op := .readRange 0 inside 1 [⟨some [1], some [1]⟩] true

def deleted : List Op :=
  written [indexed 1] ++
  [.compact 0 [table 10 0 1 2 [indexed 1]] [table 11 1 1 1 [indexed 1]] 1 [],
   .deliver 0 0 0 .ok, .deliver 0 0 0 .ok, readFirst, .removeRange 0 0 none [table 11 1 1 1 [indexed 1]]]

theorem first_call (l : Lsm) (call : RangeCall) (h : l.calls = [call]) {P : RangeCall → Prop} (hP : P call) :
    ∀ call', l.calls[0]? = some call' → P call' := by
  intro call' hcall
  rw [h] at hcall
  cases hcall
  exact hP

theorem deleted_allowed :
    Along (exec merging) (fun s op => Allowed s op ∧ Accurate s op) empty deleted :=
  ⟨⟨⟨by decide, by decide, by decide⟩, trivial⟩, ⟨flush_allowed (by decide), trivial⟩,
    ⟨compact_allowed (by decide), trivial⟩, ⟨mem_singleton.mpr rfl, trivial⟩,
    ⟨mem_singleton.mpr rfl, trivial⟩, ⟨⟨by decide, inside_subset⟩, trivial⟩,
    ⟨⟨by decide, first_call _ ⟨[table 11 1 1 1 [indexed 1]], false⟩ rfl rfl⟩,
      first_call _ ⟨[table 11 1 1 1 [indexed 1]], false⟩ rfl (List.Subperm.refl _)⟩, trivial⟩

theorem range_deletes_unreferenced_deleted :
    (3, 7) ∈ (rangePass (merging 0) [table 11 1 1 1 [indexed 1]] 7
        ((deleted.foldl (exec merging) empty).blobs.storage 0)).edit.deletedFiles ∧
      ¬ Referenced ((deleted.foldl (exec merging) empty).lsm 0).tables 3 := by
  have hallowed : Allowed (deleted.foldl (exec merging) empty) (.accountRange 0 0 7 .ok) :=
    ⟨by decide, first_call _ ⟨[table 11 1 1 1 [indexed 1]], true⟩ rfl rfl⟩
  have haccurate : Accurate (deleted.foldl (exec merging) empty) (.accountRange 0 0 7 .ok) := by
    refine first_call _ ⟨[table 11 1 1 1 [indexed 1]], true⟩ rfl ?_
    intro file f ⟨t, ht, size, hmem⟩ hf
    obtain rfl : file = 3 := by
      cases mem_singleton.mp ht
      exact congrArg Prod.fst (mem_singleton.mp hmem)
    cases hf
    decide
  exact ⟨by decide, range_deletes_unreferenced merging empty_opened deleted_allowed hallowed haccurate rfl
    (3, 7) (by decide)⟩

/-- A range deletion after the run deletes a blob file that a table references. -/
def DeletesReferenced (ops : List Op) : Prop :=
  Along (exec merging) Allowed empty ops ∧
  Allowed (ops.foldl (exec merging) empty) (.accountRange 0 0 7 .ok) ∧
  ∃ call, ((ops.foldl (exec merging) empty).lsm 0).calls[0]? = some call ∧
    (3, 7) ∈ (rangePass (merging 0) call.read 7
      ((ops.foldl (exec merging) empty).blobs.storage 0)).edit.deletedFiles ∧
    Referenced ((ops.foldl (exec merging) empty).lsm 0).tables 3

/-- The notifications of the flush and of a compaction that splits its table are
late, so the blob file waits for the LSM when one of the two tables is deleted. -/
def waitingFile : List Op :=
  written [indexed 1, indexed 2] ++
  [.compact 0 [table 10 0 1 2 [indexed 1, indexed 2]]
     [table 11 1 1 1 [indexed 1], table 12 1 2 2 [indexed 2]] 1 [],
   readFirst, .removeRange 0 0 none [table 11 1 1 1 [indexed 1]]]

/-- The table that was read is compacted into one that is not inside the range, so
the base database deletes nothing. -/
def staleVersion : List Op :=
  written [indexed 1, inline 2] ++
  [.compact 0 [table 10 0 1 2 [indexed 1, inline 2]]
     [table 11 1 1 1 [indexed 1], table 12 1 2 2 [inline 2]] 1 [],
   .deliver 0 0 0 .ok, .deliver 0 0 0 .ok, readFirst,
   .compact 0 [table 11 1 1 1 [indexed 1], table 12 1 2 2 [inline 2]]
     [table 13 2 1 2 [indexed 1, inline 2]] 2 [],
   .deliver 0 0 0 .ok, .removeRange 0 0 none []]

theorem range_deletes_referenced :
    Opened empty ∧ DeletesReferenced waitingFile ∧ DeletesReferenced staleVersion := by
  refine ⟨empty_opened, ⟨?_, ⟨by decide, ?_⟩, _, rfl, by decide, by decide⟩,
    ⟨?_, ⟨by decide, ?_⟩, _, rfl, by decide, by decide⟩⟩
  · exact ⟨⟨by decide, by decide, by decide⟩, flush_allowed (by decide), compact_allowed (by decide),
      ⟨by decide, inside_subset⟩,
      ⟨by decide, first_call _ ⟨[table 11 1 1 1 [indexed 1]], false⟩ rfl rfl⟩, trivial⟩
  · exact first_call _ ⟨[table 11 1 1 1 [indexed 1]], true⟩ rfl rfl
  · exact ⟨⟨by decide, by decide, by decide⟩, flush_allowed (by decide), compact_allowed (by decide),
      mem_singleton.mpr rfl, mem_singleton.mpr rfl, ⟨by decide, inside_subset⟩,
      compact_allowed (by decide), mem_singleton.mpr rfl,
      ⟨by decide, first_call _ ⟨[table 11 1 1 1 [indexed 1]], false⟩ rfl rfl⟩, trivial⟩
  · exact first_call _ ⟨[table 11 1 1 1 [indexed 1]], true⟩ rfl rfl

end TitanGC.Accounting.LiveData
