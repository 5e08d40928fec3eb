import TitanGC.Accounting.History

/-!
# The balance along a history

Flushes, compactions and their notifications keep every blob file balanced. `slack`
is what range deletions have removed without subtracting it; only they change it.
-/

namespace TitanGC.Accounting.Preservation

open Lib.OrderedMap Function
open List hiding after
open Format.Coding Manifest.VersionEdits Manifest.Logging SizeCollector Tracking Listener
open Balance History BlobFiles

/-! ## The invariant -/

def deltas (l : Lsm) (file : UInt64) : List ℤ := l.undelivered.map (Event.delta file)

def owedBy (calls : List RangeCall) (file : UInt64) : ℕ :=
  (calls.map fun c => if c.removed then refs c.read file else 0).sum

def owed (l : Lsm) (file : UInt64) : ℕ := owedBy l.calls file

structure Untouched (l : Lsm) (file : UInt64) : Prop where
  tables : ¬ Referenced l.tables file
  events : ∀ e ∈ l.undelivered, ¬ Referenced e.tables file
  calls : ∀ c ∈ l.calls, ¬ Referenced c.read file

/-- A notification has properties that can be read. -/
def EventOk : Event → Prop
  | .flush t => Sane t ∧ ∀ file, referenced t.entries file < 2 ^ 63
  | .compaction none inputs outputs _ => (∀ t ∈ inputs ++ outputs, Sane t) ∧ Named (inputs ++ outputs) ∧
      ∀ file, refs inputs file < 2 ^ 63 ∧ refs outputs file < 2 ^ 63
  | .compaction (some _) _ _ _ => True

theorem EventOk.totals {inputs outputs : List Table} {outputLevel : Int}
    (h : EventOk (.compaction none inputs outputs outputLevel)) (cf : UInt32) :
    Totals Int64.ofInt (Referenced (inputs ++ outputs))
      (fun file => Event.delta file (.compaction none inputs outputs outputLevel))
      (Event.jobInfo cf none inputs outputs outputLevel).blobFileSizeDiff :=
  blobFileSizeDiff_totals cf outputLevel h.1 h.2.1 (fun file => (h.2.2 file).1) fun file => (h.2.2 file).2

structure LsmOk (l : Lsm) : Prop where
  sane : ∀ t ∈ l.tables, Sane t
  small : ∀ file, refs l.tables file < 2 ^ 63
  events : ∀ e ∈ l.undelivered, EventOk e
  calls : ∀ c ∈ l.calls, (∀ t ∈ c.read, Sane t) ∧ ∀ file, refs c.read file < 2 ^ 63

structure Inv (slack : UInt32 → UInt64 → ℕ) (s : State) : Prop where
  lsm : ∀ cf, LsmOk (s.lsm cf)
  balanced : ∀ cf file f, (s.blobs.storage cf).files file = some f →
    Balanced f (refs (s.lsm cf).tables file) (owed (s.lsm cf) file) (slack cf file)
      (deltas (s.lsm cf) file)
  untouched : ∀ cf file, file ∉ s.used ∨ file ∈ (s.lsm cf).finished →
    Untouched (s.lsm cf) file ∧ slack cf file = 0
  waiting : ∀ cf file f, file ∈ (s.lsm cf).finished → (s.blobs.storage cf).files file = some f →
    f.state = .pendingLSM
  known : ∀ cf, ∀ file ∈ (s.lsm cf).finished, file ∈ s.used
  stored : ∀ cf file, ((s.blobs.storage cf).files file).isSome → file ∈ s.used
  distinct : ∀ cf cf' file, ((s.blobs.storage cf).files file).isSome →
    ((s.blobs.storage cf').files file).isSome → cf = cf'

structure Ok (used : List UInt64) (slack : UInt64 → ℕ) (st : Storage) (l : Lsm) : Prop extends LsmOk l where
  balanced : ∀ file f, st.files file = some f →
    Balanced f (refs l.tables file) (owed l file) (slack file) (deltas l file)
  untouched : ∀ file, file ∉ used ∨ file ∈ l.finished → Untouched l file ∧ slack file = 0
  waiting : ∀ file f, file ∈ l.finished → st.files file = some f → f.state = .pendingLSM
  known : ∀ file ∈ l.finished, file ∈ used
  stored : ∀ file, (st.files file).isSome → file ∈ used

variable {l : Lsm} {file : UInt64} {slack slack' : UInt32 → UInt64 → ℕ} {s s' : State} {cf : UInt32}

theorem Inv.ok (h : Inv slack s) (cf : UInt32) : Ok s.used (slack cf) (s.blobs.storage cf) (s.lsm cf) :=
  ⟨h.lsm cf, h.balanced cf, h.untouched cf, h.waiting cf, h.known cf, h.stored cf⟩

/-- A column family is as before when files go and others get new numbers. -/
theorem Ok.mono {used used' : List UInt64} {slack : UInt64 → ℕ} {st st' : Storage} (h : Ok used slack st l)
    (hused : ∀ file ∈ used, file ∈ used')
    (hfiles : ∀ file f, st'.files file = some f → st.files file = some f) : Ok used' slack st' l :=
  { h with
    balanced := fun file f hf => h.balanced file f (hfiles file f hf)
    untouched := fun file hfile => h.untouched file (hfile.imp_left (mt (hused file)))
    waiting := fun file f hfin hf => h.waiting file f hfin (hfiles file f hf)
    known := fun file hfin => hused file (h.known file hfin)
    stored := fun file hfile => by
      obtain ⟨f, hf⟩ := Option.isSome_iff_exists.mp hfile
      exact hused file (h.stored file (Option.isSome_of_eq_some (hfiles file f hf))) }

/-- An operation on one column family. -/
theorem Inv.of_family (h : Inv slack s) (cf : UInt32) (hlsm : s'.lsm = update s.lsm cf l)
    (hused : ∀ file ∈ s.used, file ∈ s'.used)
    (hother : ∀ cf', cf' ≠ cf → slack' cf' = slack cf' ∧
      ∀ file f, (s'.blobs.storage cf').files file = some f → (s.blobs.storage cf').files file = some f)
    (hok : Ok s'.used (slack' cf) (s'.blobs.storage cf) l)
    (hnew : ∀ file g, (s'.blobs.storage cf).files file = some g →
      (∃ f, (s.blobs.storage cf).files file = some f) ∨ file ∉ s.used) : Inv slack' s' := by
  have hall : ∀ cf', Ok s'.used (slack' cf') (s'.blobs.storage cf') (s'.lsm cf') := by
    intro cf'
    by_cases hcf : cf' = cf
    · subst hcf
      rw [hlsm, update_self]
      exact hok
    · rw [hlsm, update_of_ne hcf, (hother cf' hcf).1]
      exact (h.ok cf').mono hused (hother cf' hcf).2
  refine ⟨fun cf => (hall cf).toLsmOk, fun cf => (hall cf).balanced, fun cf => (hall cf).untouched,
    fun cf => (hall cf).waiting, fun cf => (hall cf).known, fun cf => (hall cf).stored,
    distinct_of_family h.distinct h.stored cf (fun cf' hcf file hfile => ?_) fun file hfile => ?_⟩
  · obtain ⟨f, hf⟩ := Option.isSome_iff_exists.mp hfile
    exact Option.isSome_of_eq_some ((hother cf' hcf).2 file f hf)
  · obtain ⟨g, hg⟩ := Option.isSome_iff_exists.mp hfile
    exact (hnew file g hg).imp_left Option.isSome_iff_exists.mpr

/-- Files may go, and others get new numbers. -/
theorem Inv.mono (h : Inv slack s) (hlsm : s'.lsm = s.lsm) (hused : ∀ file ∈ s.used, file ∈ s'.used)
    (hfiles : ∀ cf file f, (s'.blobs.storage cf).files file = some f →
      (s.blobs.storage cf).files file = some f) : Inv slack s' := by
  have hsame := update_eq_self 0 s.lsm
  exact h.of_family 0 (hlsm.trans hsame.symm) hused (fun cf _ => ⟨rfl, hfiles cf⟩)
    ((h.ok 0).mono hused (hfiles 0)) fun file g hg => .inl ⟨g, hfiles 0 file g hg⟩

/-- The operation changes no storage. -/
theorem Inv.setLsm (h : Inv slack s) (hother : ∀ cf', cf' ≠ cf → slack' cf' = slack cf')
    (hok : Ok s.used (slack' cf) (s.blobs.storage cf) l) : Inv slack' (s.setLsm cf l) :=
  h.of_family cf rfl (fun _ hfile => hfile) (fun cf' hcf => ⟨hother cf' hcf, fun _ _ hf => hf⟩) hok
    fun _ g hg => .inl ⟨g, hg⟩

/-! ## Facts about the parts -/

theorem owed_eq_zero (h : ∀ c ∈ l.calls, ¬ Referenced c.read file) : owed l file = 0 := by
  rw [owed, owedBy, sum_eq_zero_iff]
  intro n hn
  obtain ⟨c, hc, rfl⟩ := mem_map.mp hn
  rw [refs_eq_zero (h c hc), ite_self]

theorem delta_eq_zero {e : Event} (h : ¬ Referenced e.tables file) : e.delta file = 0 := by
  cases e with
  | flush t =>
    have hzero := refs_eq_zero h
    simpa [refs, Event.tables, Event.delta] using hzero
  | compaction status inputs outputs outputLevel =>
    cases status with
    | some s => rfl
    | none =>
      have hin : refs inputs file = 0 :=
        refs_eq_zero fun hr => h (referenced_append.mpr (.inl hr))
      have hout : refs outputs file = 0 :=
        refs_eq_zero fun hr => h (referenced_append.mpr (.inr hr))
      rw [Event.delta, hin, hout]
      rfl

theorem delta_bounds {e : Event} (he : EventOk e) (file : UInt64) :
    -2 ^ 63 < e.delta file ∧ e.delta file < 2 ^ 63 := by
  cases e with
  | flush t =>
    have hsmall := he.2 file
    rw [Event.delta]
    omega
  | compaction status inputs outputs outputLevel =>
    cases status with
    | some s =>
      rw [Event.delta]
      decide
    | none =>
      have hsmall := he.2.2 file
      rw [Event.delta]
      omega

/-- All differences about a file that nothing is about are zero. -/
theorem Untouched.deltas (h : Untouched l file) : ∀ d ∈ deltas l file, d = 0 :=
  forall_mem_map.mpr fun e he => delta_eq_zero (h.events e he)

/-- A new file waits, and nothing is about it. -/
theorem balanced_new (h : Untouched l file) (file' : BlobFileMeta) :
    Balanced { file := file', liveDataSize := 0, state := .pendingLSM } (refs l.tables file) (owed l file) 0
      (deltas l file) := by
  have hzero := h.deltas
  have hsum : (deltas l file).sum = 0 := sum_eq_zero hzero
  refine ⟨.inr (.inl rfl), ?_, fun d hd => ?_, ?_, fun hnot => absurd rfl hnot, fun hob => by cases hob⟩
  · rw [hsum, refs_eq_zero h.tables, owed_eq_zero h.calls]
    rfl
  · rw [hzero d hd]
    decide
  · refine pairwise_iff_forall_sublist.mpr fun {a b} hsub hab => ?_
    rw [hzero a (hsub.subset mem_cons_self)] at hab
    exact absurd hab.1 (lt_irrefl 0)

/-- An event is installed: what is referenced changes by its difference. -/
theorem balanced_install {f : TrackedFile} {refs refs' owed slack : ℕ} {ds : List ℤ} {d : ℤ}
    (h : Balanced f refs owed slack ds) (hrefs : (refs' : ℤ) = refs + d)
    (hbound : -2 ^ 63 < d ∧ d < 2 ^ 63)
    (hd : d ≤ 0 ∨ f.state = .pendingLSM ∧ ∀ e ∈ ds, e ≤ 0) :
    Balanced f refs' owed slack (ds ++ [d]) := by
  have hbalance := h.balance
  refine ⟨h.states, ?_, fun e he => ?_, ?_, fun hf => ⟨(h.settled hf).1, fun e he => ?_⟩, h.gone⟩
  · rw [sum_append, sum_singleton]
    omega
  · rcases mem_append.mp he with he | he
    · exact h.bounded e he
    · rw [mem_singleton.mp he]
      exact hbound
  · refine pairwise_append.mpr ⟨h.oneIncrease, pairwise_singleton _ _, fun a ha b hb hab => ?_⟩
    rw [mem_singleton.mp hb] at hab
    rcases hd with hd | ⟨-, hds⟩
    · omega
    · have hle := hds a ha
      omega
  · rcases mem_append.mp he with he | he
    · exact (h.settled hf).2 e he
    · rw [mem_singleton.mp he]
      rcases hd with hd | ⟨hpending, -⟩
      · exact hd
      · exact absurd hpending hf

/-! ## Flushes and compactions -/

/-- What a compaction does to the tables: it takes some of them, its own files are new, and it
references no more of any other file. -/
structure Compacts (tables inputs outputs : List Table) (created : List UInt64) : Prop where
  sub : inputs.Subperm tables
  named : Named (inputs ++ outputs)
  sane : ∀ t ∈ tables, Sane t
  saneOutputs : ∀ t ∈ outputs, Sane t
  small : ∀ file, refs tables file < 2 ^ 63
  own : ∀ file ∈ created, ¬ Referenced tables file ∧ refs outputs file < 2 ^ 63
  others : ∀ file, file ∉ created → refs outputs file ≤ refs inputs file

variable (outputLevel : Int)

namespace Compacts

variable {tables inputs outputs : List Table} {created : List UInt64} {file : UInt64}
  (h : Compacts tables inputs outputs created)

include h

theorem eventOk : EventOk (.compaction none inputs outputs outputLevel) := by
  have hle := refs_le_of_subperm h.sub
  refine ⟨fun t ht => ?_, h.named, fun file => ⟨(hle file).trans_lt (h.small file), ?_⟩⟩
  · exact (mem_append.mp ht).elim (fun ht => h.sane t (h.sub.subset ht)) (h.saneOutputs t)
  · by_cases hfile : file ∈ created
    · exact (h.own file hfile).2
    · exact (h.others file hfile).trans_lt ((hle file).trans_lt (h.small file))

theorem refs_after (file : UInt64) :
    (refs (tables.diff inputs ++ outputs) file : ℤ) =
      refs tables file + Event.delta file (.compaction none inputs outputs outputLevel) := by
  have hstay := refs_diff h.sub file
  rw [refs_append, Event.delta]
  push_cast
  omega

theorem sane_after : ∀ t ∈ tables.diff inputs ++ outputs, Sane t := fun t ht =>
  (mem_append.mp ht).elim (fun ht => h.sane t (diff_subset _ _ ht)) (h.saneOutputs t)

theorem small_after (file : UInt64) : refs (tables.diff inputs ++ outputs) file < 2 ^ 63 := by
  have hstay := refs_diff h.sub file
  have hsmall := h.small file
  rw [refs_append]
  by_cases hfile : file ∈ created
  · obtain ⟨hnew, hbound⟩ := h.own file hfile
    have hzero := refs_eq_zero hnew
    omega
  · have hbound := h.others file hfile
    omega

theorem created_of_pos (hd : 0 < Event.delta file (.compaction none inputs outputs outputLevel)) :
    file ∈ created := by
  by_contra hnot
  have hbound := h.others file hnot
  rw [Event.delta] at hd
  omega

theorem not_referenced (hnot : file ∉ created) (hnone : ¬ Referenced tables file) :
    ¬ Referenced (inputs ++ outputs) file ∧ ¬ Referenced (tables.diff inputs ++ outputs) file := by
  have hout : ¬ Referenced outputs file := by
    intro hr
    have hpos := refs_pos h.saneOutputs hr
    have hbound := h.others file hnot
    have hle := refs_le_of_subperm h.sub file
    rw [refs_eq_zero hnone] at hle
    omega
  rw [History.referenced_append, History.referenced_append]
  exact ⟨fun hr => hr.elim (fun hr => hnone (hr.mono h.sub.subset)) hout,
    fun hr => hr.elim (fun hr => hnone (hr.mono (diff_subset _ _))) hout⟩

end Compacts

variable {n : UInt64} {rest : List ℤ} {f g : TrackedFile}

section

theorem addBlobFile_files (st : Storage) (f : TrackedFile) (n : UInt64) :
    (st.addBlobFile f).files n =
      if n = f.file.fileNumber then some ((st.files n).getD f) else st.files n := by
  by_cases h : n = f.file.fileNumber
  · subst h
    rw [if_pos rfl]
    exact update_self _ _ _
  · rw [if_neg h]
    exact update_of_ne h _ _

/-- Files that an edit adds. -/
theorem apply_added {st : Storage} {e : Edit} (hdeleted : e.deletedFiles = []) {g : TrackedFile}
    (h : (st.apply e).files n = some g) :
    st.files n = some g ∨ g ∈ e.addedFiles ∧ g.file.fileNumber = n := by
  rw [Storage.apply, hdeleted] at h
  dsimp only [foldl_nil, any_nil] at h
  simp only [Bool.false_eq_true, if_false] at h
  generalize e.addedFiles = added at h ⊢
  induction added generalizing st with
  | nil => exact .inl h
  | cons f added ih =>
    rw [foldl_cons] at h
    rcases ih h with hst | ⟨hmem, hn⟩
    · rw [addBlobFile_files] at hst
      split at hst
      · rename_i hn
        cases hfile : st.files n with
        | none =>
          rw [hfile] at hst
          cases hst
          exact .inr ⟨mem_cons_self, hn.symm⟩
        | some f' =>
          rw [hfile] at hst
          exact .inl hst
      · exact .inl hst
    · exact .inr ⟨mem_cons_of_mem f hmem, hn⟩

variable {e : Event} {created : List UInt64} {inputs outputs : List Table}
  {outputLevel : Int} {verdict : Int64 → TrackedFile → Verdict} {b : BlobFiles}

/-- Files that an edit adds to a storage are new and as the edit has them. -/
theorem logAndApply_added (b : BlobFiles) (w : Write) {e : Edit} (hdeleted : e.deletedFiles = [])
    {g : TrackedFile} (hg : ((b.logAndApply w e).2.storage cf).files n = some g) :
    (b.storage cf).files n = some g ∨
      cf = e.columnFamilyId ∧ (b.logAndApply w e).1 = none ∧ g ∈ e.addedFiles ∧ g.file.fileNumber = n := by
  rw [BlobFiles.logAndApply] at hg ⊢
  cases hstatus : (b.openSet.logAndApply w e.toVersionEdit).1 with
  | some status =>
    rw [hstatus] at hg
    exact .inl hg
  | none =>
    rw [hstatus] at hg
    dsimp only at hg ⊢
    by_cases hcf : cf = e.columnFamilyId
    · subst hcf
      rw [setStorage_self] at hg
      exact (apply_added hdeleted hg).imp_right fun hnew => ⟨rfl, rfl, hnew⟩
    · rw [setStorage_of_ne _ hcf] at hg
      exact .inl hg

section

variable (h : Inv slack s)
include h

theorem inv_finish {files : List BlobFileMeta} {w : Write}
    (hnew : ∀ f ∈ files, f.fileNumber ∉ s.used) (options : UInt32 → CFOptions) :
    Inv slack (exec options s (.finish cf files w)) := by
  -- what the storages have afterwards
  have hfiles : ∀ cf' n g, ((s.blobs.logAndApply w (finishEdit cf files)).2.storage cf').files n = some g →
      (s.blobs.storage cf').files n = some g ∨ cf' = cf ∧
        (s.blobs.logAndApply w (finishEdit cf files)).1 = none ∧
        n ∈ files.map (·.fileNumber) ∧ ∃ f, g = { file := f, liveDataSize := 0, state := .pendingLSM } := by
    intro cf' n g hg
    refine (logAndApply_added s.blobs w rfl hg).imp_right fun hnew => ?_
    obtain ⟨hcf, hstatus, hmem, rfl⟩ := hnew
    obtain ⟨f, hf, rfl⟩ := mem_map.mp hmem
    exact ⟨hcf, hstatus, mem_map_of_mem hf, f, rfl⟩
  have hmono : ∀ file ∈ s.used, file ∈ s.used ++ files.map (·.fileNumber) :=
    fun file hfile => mem_append_left _ hfile
  have hfresh : ∀ n ∈ files.map (·.fileNumber), n ∉ s.used := forall_mem_map.mpr hnew
  have hok := h.ok cf
  rw [exec]
  dsimp only
  split
  · have huntouched : ∀ file, file ∉ s.used ++ files.map (·.fileNumber) ∨
        file ∈ (s.lsm cf).finished ++ files.map (·.fileNumber) → file ∉ s.used ∨
          file ∈ (s.lsm cf).finished := by
      intro file hfile
      rcases hfile with hfile | hfile
      · exact .inl fun hmem => hfile (hmono file hmem)
      · exact (mem_append.mp hfile).symm.imp_left (hfresh file)
    refine h.of_family cf rfl hmono (fun cf' hcf => ⟨rfl, fun n g hg =>
      (hfiles cf' n g hg).resolve_right fun hnew => hcf hnew.1⟩)
      ⟨⟨hok.sane, hok.small, hok.events, hok.calls⟩, fun n g hg => ?_, fun file hfile => ?_,
        fun n g hfin hg => ?_, fun file hfin => ?_, fun n hn => ?_⟩
      fun n g hg => (hfiles cf n g hg).imp (fun hold => ⟨g, hold⟩) fun hnew => hfresh n hnew.2.2.1
    · rcases hfiles cf n g hg with hold | ⟨-, -, hn, f, rfl⟩
      · exact hok.balanced n g hold
      · obtain ⟨hu, hslack⟩ := hok.untouched n (.inl (hfresh n hn))
        rw [hslack]
        exact balanced_new hu f
    · obtain ⟨hu, hslack⟩ := hok.untouched file (huntouched file hfile)
      exact ⟨⟨hu.tables, hu.events, hu.calls⟩, hslack⟩
    · rcases hfiles cf n g hg with hold | ⟨-, -, -, f, rfl⟩
      · refine hok.waiting n g ((mem_append.mp hfin).resolve_right fun hn => hfresh n hn ?_) hold
        exact hok.stored n (Option.isSome_of_eq_some hold)
      · rfl
    · exact (mem_append.mp hfin).elim (fun hfin => hmono file (hok.known file hfin))
        (mem_append_right _)
    · obtain ⟨g, hg⟩ := Option.isSome_iff_exists.mp hn
      rcases hfiles cf n g hg with hold | ⟨-, -, hn, -⟩
      · exact hmono n (hok.stored n (Option.isSome_of_eq_some hold))
      · exact mem_append_right _ hn
  · rename_i hstatus
    exact h.mono rfl hmono fun cf' n g hg => (hfiles cf' n g hg).resolve_right fun hnew => hstatus hnew.2.1

/-- A job is installed, and its notification is to come. -/
theorem inv_install {tables : List Table} {finished : List UInt64} (he : EventOk e)
    (hrefs : ∀ file, (refs tables file : ℤ) = refs (s.lsm cf).tables file + e.delta file)
    (hsane : ∀ t ∈ tables, Sane t) (hsmall : ∀ file, refs tables file < 2 ^ 63)
    (hcreated : ∀ file ∈ created, file ∈ (s.lsm cf).finished)
    (hfinished : ∀ file ∈ finished, file ∈ (s.lsm cf).finished ∧ file ∉ created)
    (hinc : ∀ file, 0 < e.delta file → file ∈ created)
    (hnew : ∀ file, file ∉ created → Untouched (s.lsm cf) file →
      ¬ Referenced e.tables file ∧ ¬ Referenced tables file) :
    Inv slack (s.setLsm cf { s.lsm cf with
      tables := tables, finished := finished, undelivered := (s.lsm cf).undelivered ++ [e] }) := by
  refine h.setLsm (fun _ _ => rfl) { h.ok cf with
    sane := hsane
    small := hsmall
    events := forall_mem_append.mpr ⟨(h.lsm cf).events, forall_mem_singleton.mpr he⟩
    balanced := fun file f hf => ?_
    untouched := fun file hfile => ?_
    waiting := fun file f hfin hf => h.waiting cf file f (hfinished file hfin).1 hf
    known := fun file hfin => h.known cf file (hfinished file hfin).1 }
  · have hdeltas : deltas { s.lsm cf with
        tables := tables, finished := finished, undelivered := (s.lsm cf).undelivered ++ [e] } file =
        deltas (s.lsm cf) file ++ [e.delta file] := by simp [deltas]
    rw [hdeltas]
    refine balanced_install (h.balanced cf file f hf) (hrefs file) (delta_bounds he file) ?_
    by_cases hd : 0 < e.delta file
    · have hfin := hcreated file (hinc file hd)
      refine .inr ⟨h.waiting cf file f hfin hf, fun d hmem => ?_⟩
      rw [(h.untouched cf file (.inr hfin)).1.deltas d hmem]
    · exact .inl (not_lt.mp hd)
  · have hold : (file ∉ s.used ∨ file ∈ (s.lsm cf).finished) ∧ file ∉ created := by
      rcases hfile with hfile | hfile
      · exact ⟨.inl hfile, fun hmem => hfile (h.known cf file (hcreated file hmem))⟩
      · exact ⟨.inr (hfinished file hfile).1, (hfinished file hfile).2⟩
    obtain ⟨hu, hslack⟩ := h.untouched cf file hold.1
    obtain ⟨hevent, htables⟩ := hnew file hold.2 hu
    exact ⟨⟨htables, forall_mem_append.mpr ⟨hu.events, forall_mem_singleton.mpr hevent⟩, hu.calls⟩,
      hslack⟩

theorem inv_flush {table : Table} (hallowed : Allowed s (.flush cf table created))
    (options : UInt32 → CFOptions) : Inv slack (exec options s (.flush cf table created)) := by
  obtain ⟨-, hsane, hcreated, hown, hsmall⟩ := hallowed
  have hrefs : ∀ file, refs ((s.lsm cf).tables ++ [table]) file =
      refs (s.lsm cf).tables file + referenced table.entries file := fun file => by
    rw [refs_append]
    simp [refs]
  have hmention : ∀ file, 0 < referenced table.entries file → file ∈ created := fun file hpos =>
    hown file (mentions_of_referenced hpos)
  refine inv_install h ⟨hsane, hsmall⟩ (fun file => ?_)
    (forall_mem_append.mpr ⟨(h.lsm cf).sane, forall_mem_singleton.mpr hsane⟩) (fun file => ?_) hcreated
    (fun file hfile => ?_) (fun file hd => ?_) (fun file hnot hu => ?_)
  · rw [hrefs, Event.delta]
    push_cast
    ring
  · rw [hrefs]
    by_cases hpos : 0 < referenced table.entries file
    · have hu := (h.untouched cf file (.inr (hcreated file (hmention file hpos)))).1
      rw [refs_eq_zero hu.tables, zero_add]
      exact hsmall file
    · have hold := (h.lsm cf).small file
      omega
  · simpa using hfile
  · rw [Event.delta] at hd
    exact hmention file (by exact_mod_cast hd)
  · have htable : ¬ Mentions table.entries file := fun hm => hnot (hown file hm)
    have hnone : ¬ Referenced [table] file := fun hr => htable (referenced_singleton.mp hr)
    exact ⟨hnone, fun hr => (referenced_append.mp hr).elim hu.tables hnone⟩

theorem inv_compact (hallowed : Allowed s (.compact cf inputs outputs outputLevel created))
    (options : UInt32 → CFOptions) :
    Inv slack (exec options s (.compact cf inputs outputs outputLevel created)) := by
  obtain ⟨-, hsane, hsub, hnamed, hcreated, hother⟩ := hallowed
  have hc : Compacts (s.lsm cf).tables inputs outputs created :=
    ⟨hsub, hnamed, (h.lsm cf).sane, hsane, (h.lsm cf).small, fun file hfile =>
      ⟨(h.untouched cf file (.inr (hcreated file hfile).1)).1.tables, (hcreated file hfile).2⟩, hother⟩
  refine inv_install h (hc.eventOk outputLevel) (hc.refs_after outputLevel) hc.sane_after hc.small_after
    (fun file hfile => (hcreated file hfile).1) (fun file hfile => ?_)
      (fun file hd => hc.created_of_pos outputLevel hd)
    fun file hnot hu => hc.not_referenced hnot hu.tables
  simpa using hfile

theorem inv_compactFailed (cf : UInt32) (status : Status) (inputs outputs : List Table)
    (outputLevel : Int) (options : UInt32 → CFOptions) :
    Inv slack (exec options s (.compactFailed cf status inputs outputs outputLevel)) := by
  refine inv_install h trivial (fun file => ?_) (h.lsm cf).sane (h.lsm cf).small
    (fun file (hfile : file ∈ ([] : List UInt64)) => by cases hfile)
    (fun file hfile => ⟨hfile, not_mem_nil⟩)
    (fun file hd => ?_) (fun file _ hu => ⟨?_, hu.tables⟩)
  · rw [Event.delta, add_zero]
  · exact absurd hd (lt_irrefl 0)
  · exact not_referenced_nil

theorem inv_purge (cf : UInt32) (oldestSequence : Nat) (options : UInt32 → CFOptions) :
    Inv slack (exec options s (.purge cf oldestSequence)) :=
  h.mono rfl (fun _ hfile => hfile) fun _ _ _ hf => purge_files hf

/-! ## Notifications -/

/-- What a handler of one column family leaves: files of other column families, and
files that it is not about, are as before. -/
structure Handled (b b' : BlobFiles) (cf : UInt32) (about : UInt64 → Prop)
    (step : UInt64 → TrackedFile → TrackedFile → Prop) : Prop where
  own : ∀ file g, (b'.storage cf).files file = some g → ∃ f, (b.storage cf).files file = some f ∧
    step file f g ∧ (¬ about file → g = f)
  others : ∀ cf', cf' ≠ cf → ∀ file g, (b'.storage cf').files file = some g →
    (b.storage cf').files file = some g

/-- A handler, and what the column family is after it. -/
theorem Inv.of_handled {b : BlobFiles} {about : UInt64 → Prop}
    {step : UInt64 → TrackedFile → TrackedFile → Prop} (hhandled : Handled s.blobs b cf about step)
    {l : Lsm} (hfinished : l.finished = (s.lsm cf).finished) (hlsm : LsmOk l)
    (hbalanced : ∀ file f g, (s.blobs.storage cf).files file = some f → step file f g →
      Balanced g (refs l.tables file) (owed l file) (slack cf file) (deltas l file))
    (huntouched : ∀ file, Untouched (s.lsm cf) file → Untouched l file ∧ ¬ about file) :
    Inv slack ({ s with blobs := b }.setLsm cf l) := by
  have hok := h.ok cf
  refine h.of_family cf rfl (fun file hfile => hfile) (fun cf' hne => ⟨rfl, hhandled.others cf' hne⟩)
    ⟨hlsm, fun file g hg => ?_, fun file hfile => ?_, fun file g hfin hg => ?_, hfinished ▸ hok.known,
      fun file hfile => ?_⟩ fun file g hg => .inl ((hhandled.own file g hg).imp fun f hf => hf.1)
  · obtain ⟨f, hf, hstep, -⟩ := hhandled.own file g hg
    exact hbalanced file f g hf hstep
  · rw [hfinished] at hfile
    exact (hok.untouched file hfile).imp_left fun hu => (huntouched file hu).1
  · rw [hfinished] at hfin
    obtain ⟨f, hf, -, hnot⟩ := hhandled.own file g hg
    rw [hnot (huntouched file (hok.untouched file (.inr hfin)).1).2]
    exact hok.waiting file f hfin hf
  · obtain ⟨g, hg⟩ := Option.isSome_iff_exists.mp hfile
    obtain ⟨f, hf, -⟩ := hhandled.own file g hg
    exact hok.stored file (Option.isSome_of_eq_some hf)

end

/-- The difference of an event goes from those to come into the counter. -/
def Delivers (e : Event) (file : UInt64) (f g : TrackedFile) : Prop :=
  ∀ refs owed slack rest, Balanced f refs owed slack (e.delta file :: rest) →
    Balanced g refs owed slack rest

/-- A pass whose verdicts are sound, with its edit and its marking. -/
theorem balanced_verdict {diff : List (UInt64 × Int64)} {f : TrackedFile} {refs owed slack : ℕ}
    (hskip : diff.lookup n = none → Balanced f refs owed slack rest)
    (hsound : ∀ d, diff.lookup n = some d → Sound (verdict d f) refs owed slack rest)
    {g : TrackedFile}
    (hg : g = after verdict diff n f ∨ ∃ d, diff.lookup n = some d ∧ (verdict d f).delete = true ∧
      g = { (verdict d f).file with state := .obsolete }) : Balanced g refs owed slack rest := by
  rcases hg with rfl | ⟨d, hd, hdelete, rfl⟩
  · rw [after]
    cases hlookup : diff.lookup n with
    | none => exact hskip hlookup
    | some d => exact (hsound d hlookup).balanced
  · obtain ⟨hsettled, hlive⟩ := (hsound d hd).deleted hdelete
    exact (hsound d hd).balanced.restate hsettled (.inr (.inr ⟨rfl, hlive⟩))

theorem after_of_none {diff : List (UInt64 × Int64)} (h : diff.lookup n = none) (f : TrackedFile) :
    after verdict diff n f = f := by
  rw [after, h]
  rfl

/-- A flush notification counts the files of its table, and no other. -/
theorem onFlushCompleted_files (hcf : cf ∈ b.ids) {t : Table} (he : EventOk (.flush t)) (n : UInt64) :
    ((onFlushCompleted b ⟨cf, t.userCollectedProperties⟩).storage cf).files n =
      ((b.storage cf).files n).map fun f => if Mentions t.entries n then
        (flushFile (Int64.ofInt (referenced t.entries n)) f).file else f := by
  obtain ⟨hsane, hsmall⟩ := he
  obtain ⟨diff, hextract, htotals⟩ := extract_totals hsane.1 (fun file => (hsmall file).trans (by norm_num))
    (Totals.empty Int64.ofInt) true
  have hblobs : onFlushCompleted b ⟨cf, t.userCollectedProperties⟩ =
      b.setStorage cf (accountFiles flushFile 0 diff (b.storage cf)).storage := by
    rw [onFlushCompleted]
    dsimp only
    rw [hextract, if_neg (not_not_intro hcf)]
    rfl
  rw [hblobs, setStorage_self, (accountFiles_pass flushFile 0 htotals.ordered _).files]
  refine congrArg (fun g => ((b.storage cf).files n).map g) (funext fun f => ?_)
  by_cases hm : Mentions t.entries n
  · rw [if_pos hm, after, htotals.present n (.inr hm)]
    simp only [zero_add, if_true, Option.elim_some]
  · rw [if_neg hm, after_of_none (htotals.absent n (by simpa using hm)).1]

theorem onFlushCompleted_handled (hcf : cf ∈ b.ids) {t : Table} (he : EventOk (.flush t)) :
    Handled b (onFlushCompleted b ⟨cf, t.userCollectedProperties⟩) cf (Mentions t.entries)
      (Delivers (.flush t)) := by
  constructor
  · intro file g hg
    rw [onFlushCompleted_files hcf he] at hg
    obtain ⟨f, hf, rfl⟩ := Option.map_eq_some_iff.mp hg
    refine ⟨f, hf, ?_, fun hnot => if_neg hnot⟩
    intro refs owed slack rest hbalanced
    by_cases hm : Mentions t.entries file
    · have hpos := referenced_pos he.1.2 hm
      rw [if_pos hm]
      exact flushFile_balanced hbalanced (by exact_mod_cast hpos)
    · have hzero : Event.delta file (.flush t) = 0 := delta_eq_zero fun hr =>
        hm (referenced_singleton.mp hr)
      rw [if_neg hm]
      exact (hzero ▸ hbalanced).skip
  · intro cf' hne file g hg
    rw [onFlushCompleted] at hg
    dsimp only at hg
    rwa [if_neg (not_not_intro hcf), setStorage_of_ne b hne] at hg

/-- The verdict of a compaction. -/
theorem compactVerdict_sound (he : EventOk (.compaction none inputs outputs outputLevel))
    (o : CFOptions) (run : Bool) {file : UInt64} {f : TrackedFile} {refs owed slack : ℕ}
    (h : Balanced f refs owed slack (Event.delta file (.compaction none inputs outputs outputLevel) :: rest))
    {d : Int64}
    (hd : (Event.jobInfo cf none inputs outputs outputLevel).blobFileSizeDiff.lookup file = some d) :
    Sound (compactFile o run d f) refs owed slack rest := by
  obtain ⟨hsane, hnamed, hsmall⟩ := he
  have htotals := blobFileSizeDiff_totals cf outputLevel hsane hnamed (fun file => (hsmall file).1)
    (fun file => (hsmall file).2)
  by_cases hr : Referenced (inputs ++ outputs) file
  · rw [htotals.present file hr] at hd
    cases hd
    exact compactFile_sound o run h
  · rw [(htotals.absent file hr).1] at hd
    cases hd

/-- What a notification of a compaction makes of a file: it gets its verdict, is
deleted if that says so, and is marked if it is a candidate. -/
def Accounts (verdict : Int64 → TrackedFile → Verdict) (diff : List (UInt64 × Int64)) (n : UInt64)
    (f g : TrackedFile) : Prop :=
  ∃ f₁, (f₁ = after verdict diff n f ∨ ∃ d, diff.lookup n = some d ∧ (verdict d f).delete = true ∧
      f₁ = { (verdict d f).file with state := .obsolete }) ∧
    (g = f₁ ∨ ∃ d, diff.lookup n = some d ∧ (verdict d f).candidate = true ∧ g =
      { f₁ with state := .toMerge })

theorem onCompactionCompleted_accounts (info : CompactionJobInfo) (hstatus : info.status = none)
    (hcf : info.cfId ∈ b.ids) (hordered : Ordered info.blobFileSizeDiff)
    (hdistinct : ∀ cf' n, ((b.storage info.cfId).files n).isSome → ((b.storage cf').files n).isSome →
      info.cfId = cf') (o : CFOptions) (seq : Nat) (w : Write) {cf' : UInt32} {g : TrackedFile}
    (hg : ((onCompactionCompleted b o info seq w).storage cf').files n = some g) :
    ∃ f, (b.storage cf').files n = some f ∧ (cf' ≠ info.cfId ∧ g = f ∨ cf' = info.cfId ∧
      Accounts (compactFile o (o.countSortedRun info.outputLevel)) info.blobFileSizeDiff n f g) := by
  have hpass := accountFiles_pass (compactFile o (o.countSortedRun info.outputLevel)) seq hordered
    (b.storage info.cfId)
  rw [onCompactionCompleted, hstatus, if_neg (by simp), if_neg (not_not_intro hcf)] at hg
  dsimp only [compactionPass] at hg
  generalize accountFiles (compactFile o (o.countSortedRun info.outputLevel)) seq info.blobFileSizeDiff
    (b.storage info.cfId) = pass at hpass hg
  split at hg
  · by_cases hcf' : cf' = info.cfId
    · subst hcf'
      rw [setStorage_self] at hg
      obtain ⟨f₁, hf₁, hmark⟩ := markFileIfNeedMerge_in _ _ _ n g hg
      obtain ⟨f, hf, ⟨hne, -⟩ | ⟨-, hverdict⟩⟩ := logPass_files hpass hdistinct w hf₁
      · exact absurd rfl hne
      refine ⟨f, hf, .inr ⟨rfl, f₁, hverdict, hmark.imp_right fun hmarked => ?_⟩⟩
      obtain ⟨d, f', hlookup, hf', hcandidate⟩ := hpass.candidates n hmarked.1
      rw [hf] at hf'
      cases hf'
      exact ⟨d, hlookup, hcandidate, hmarked.2⟩
    · rw [setStorage_of_ne _ hcf'] at hg
      obtain ⟨f, hf, ⟨-, rfl⟩ | ⟨heq, -⟩⟩ := logPass_files hpass hdistinct w hg
      · exact ⟨g, hf, .inl ⟨hcf', rfl⟩⟩
      · exact absurd heq hcf'
  · by_cases hcf' : cf' = info.cfId
    · subst hcf'
      rw [setStorage_self, hpass.files] at hg
      obtain ⟨f, hf, rfl⟩ := Option.map_eq_some_iff.mp hg
      exact ⟨f, hf, .inr ⟨rfl, _, .inl rfl, .inl rfl⟩⟩
    · rw [setStorage_of_ne b hcf'] at hg
      exact ⟨g, hg, .inl ⟨hcf', rfl⟩⟩

/-- A file that the differences do not have stays. -/
theorem Accounts.of_none {diff : List (UInt64 × Int64)} (h : Accounts verdict diff n f g)
    (hnone : diff.lookup n = none) : g = f := by
  obtain ⟨f₁, hf₁, hg⟩ := h
  rw [hnone] at hf₁ hg
  rcases hf₁ with rfl | ⟨d, hd, -⟩
  · rcases hg with rfl | ⟨d, hd, -⟩
    · exact after_of_none hnone f
    · cases hd
  · cases hd

theorem Accounts.balanced {diff : List (UInt64 × Int64)} {refs owed slack : ℕ}
    (h : Accounts verdict diff n f g)
    (hskip : diff.lookup n = none → Balanced f refs owed slack rest)
    (hsound : ∀ d, diff.lookup n = some d → Sound (verdict d f) refs owed slack rest) :
    Balanced g refs owed slack rest := by
  obtain ⟨f₁, hverdict, hg⟩ := h
  have hf₁ := balanced_verdict hskip hsound hverdict
  rcases hg with rfl | ⟨d, hlookup, hcandidate, rfl⟩
  · exact hf₁
  · refine hf₁.restate ?_ (.inr (.inl rfl))
    rcases hverdict with rfl | ⟨d', -, -, rfl⟩
    · rw [after, hlookup]
      exact (hsound d hlookup).candidate hcandidate
    · intro hnever
      cases hnever

/-- A file that waits after the verdict of a compaction has waited before it. -/
theorem compactFile_pending {o : CFOptions} {run : Bool} {d : Int64} {f : TrackedFile}
    (hpending : (compactFile o run d f).file.state = .pendingLSM) : f.state = .pendingLSM ∧ d ≤ 0 := by
  rw [compactFile] at hpending
  split at hpending
  · rename_i hob
    rw [beq_iff_eq.mp hob] at hpending
    cases hpending
  · split at hpending
    · rename_i hstate
      split at hpending
      · rename_i hd
        exact ⟨hstate, hd⟩
      · have hnormal : FileState.normal = .pendingLSM := hpending
        cases hnormal
    · rename_i hstate
      have hupdated := (updateLiveDataSize_file f d).2
      have hneed := (needMerge_file (f.updateLiveDataSize d).2).2.2
      exfalso
      split at hpending
      · dsimp only at hpending
        split at hpending
        · split at hpending
          · exact hstate (hupdated ▸ hpending)
          · split at hpending
            · rw [hneed] at hpending
              cases hpending
            · exact hstate (hupdated ▸ hpending)
        · exact hstate (hupdated ▸ hpending)
      · exact hstate hpending

section

variable {o : CFOptions} {run : Bool} {diff : List (UInt64 × Int64)} {n : UInt64} {f g : TrackedFile}

variable (h : Accounts (compactFile o run) diff n f g)

include h

/-- A file whose verdict is to leave it is not marked either. -/
theorem Accounts.same (hsame : ∀ d, compactFile o run d f = { file := f }) : g = f := by
  obtain ⟨f₁, hverdict, hmark⟩ := h
  have hf₁ : f₁ = f := by
    rcases hverdict with rfl | ⟨d, -, hdelete, -⟩
    · rw [after]
      cases diff.lookup n with
      | none => rfl
      | some d => rw [Option.elim_some, hsame]
    · rw [hsame] at hdelete
      cases hdelete
  rcases hmark with rfl | ⟨d, -, hcandidate, -⟩
  · exact hf₁
  · rw [hsame] at hcandidate
    cases hcandidate

theorem Accounts.obsolete (hob : f.state = .obsolete) : g.state = .obsolete := by
  have hflag : f.isObsolete = true := beq_iff_eq.mpr hob
  have hsame : g = f := h.same fun d => by rw [compactFile, if_pos hflag]
  rw [hsame]
  exact hob

theorem Accounts.pending (hpending : g.state = .pendingLSM) :
    f.state = .pendingLSM ∧ ∀ d, diff.lookup n = some d → d ≤ 0 := by
  obtain ⟨f₁, hverdict, hmark⟩ := h
  rcases hmark with rfl | ⟨d, -, -, rfl⟩
  · rcases hverdict with rfl | ⟨d, -, -, rfl⟩
    · rw [after] at hpending
      cases hlookup : diff.lookup n with
      | none =>
        rw [hlookup] at hpending
        exact ⟨hpending, fun d hd => by cases hd⟩
      | some d =>
        rw [hlookup] at hpending
        obtain ⟨hstate, hle⟩ := compactFile_pending hpending
        exact ⟨hstate, fun d' hd' => Option.some.inj hd' ▸ hle⟩
    · cases hpending
  · cases hpending

end

theorem onCompactionCompleted_handled (hcf : cf ∈ b.ids)
    (hdistinct : ∀ cf' n, ((b.storage cf).files n).isSome → ((b.storage cf').files n).isSome → cf = cf')
    (he : EventOk (.compaction none inputs outputs outputLevel)) (o : CFOptions) (seq : Nat) (w : Write) :
    Handled b (onCompactionCompleted b o (Event.jobInfo cf none inputs outputs outputLevel) seq w) cf
      (Referenced (inputs ++ outputs)) (Delivers (.compaction none inputs outputs outputLevel)) := by
  have htotals := he.totals cf
  constructor
  · intro file g hg
    obtain ⟨f, hf, ⟨hne, -⟩ | ⟨-, hacc⟩⟩ := onCompactionCompleted_accounts
      (Event.jobInfo cf none inputs outputs outputLevel) rfl hcf htotals.ordered hdistinct o seq w hg
    · exact absurd rfl hne
    refine ⟨f, hf, fun refs owed slack rest hbalanced => ?_, fun hnot => ?_⟩
    · refine hacc.balanced (fun hlookup => ?_) fun d hlookup => compactVerdict_sound he o _ hbalanced hlookup
      by_cases hr : Referenced (inputs ++ outputs) file
      · rw [htotals.present file hr] at hlookup
        cases hlookup
      · exact ((htotals.absent file hr).2 ▸ hbalanced).skip
    · exact hacc.of_none (htotals.absent file hnot).1
  · intro cf' hne file g hg
    obtain ⟨f, hf, ⟨-, rfl⟩ | ⟨heq, -⟩⟩ := onCompactionCompleted_accounts
      (Event.jobInfo cf none inputs outputs outputLevel) rfl hcf htotals.ordered hdistinct o seq w hg
    · exact hf
    · exact absurd heq hne

/-- The notification of a compaction that failed. -/
theorem notify_failed {options : UInt32 → CFOptions} {seq : Nat} {w : Write} {status : Status} :
    notify options b cf seq w (.compaction (some status) inputs outputs outputLevel) = b := by
  rw [notify, onCompactionCompleted]
  exact if_pos rfl

theorem notify_handled (hcf : cf ∈ b.ids)
    (hdistinct : ∀ cf' n, ((b.storage cf).files n).isSome → ((b.storage cf').files n).isSome → cf = cf')
    (he : EventOk e) (options : UInt32 → CFOptions) (seq : Nat) (w : Write) :
    Handled b (notify options b cf seq w e) cf (Referenced e.tables) (Delivers e) := by
  cases e with
  | flush t =>
    have h := onFlushCompleted_handled hcf he
    refine ⟨fun file g hg => ?_, h.others⟩
    obtain ⟨f, hf, hstep, hnot⟩ := h.own file g hg
    exact ⟨f, hf, hstep, fun hr => hnot fun hm => hr ⟨t, mem_singleton.mpr rfl, hm⟩⟩
  | compaction status inputs outputs outputLevel =>
    cases status with
    | none => exact onCompactionCompleted_handled hcf hdistinct he (options cf) seq w
    | some status =>
      rw [notify_failed]
      exact ⟨fun file g hg => ⟨g, hg, fun refs owed slack rest hb => hb.skip, fun _ => rfl⟩,
        fun cf' _ file g hg => hg⟩

/-- The deltas to come after one is delivered. -/
theorem deltas_eraseIdx {l : Lsm} {i : Nat} (hi : l.undelivered[i]? = some e) (file : UInt64) :
    (deltas l file).Perm (e.delta file ::
      deltas { l with undelivered := l.undelivered.eraseIdx i } file) := by
  obtain ⟨hlt, rfl⟩ := List.getElem?_eq_some_iff.mp hi
  exact ((getElem_cons_eraseIdx_perm hlt).map (Event.delta file)).symm

theorem inv_deliver (h : Inv slack s) (hcf : cf ∈ s.blobs.ids) (i seq : Nat) (w : Write)
    (options : UInt32 → CFOptions) : Inv slack (exec options s (.deliver cf i seq w)) := by
  rw [exec]
  cases hi : (s.lsm cf).undelivered[i]? with
  | none => exact h
  | some e =>
    have he := (h.lsm cf).events e (mem_of_getElem? hi)
    have hrest : ∀ e' ∈ (s.lsm cf).undelivered.eraseIdx i, e' ∈ (s.lsm cf).undelivered :=
      fun e' he' => mem_of_mem_eraseIdx he'
    refine h.of_handled (notify_handled hcf (h.distinct cf) he options seq w) rfl
      { h.lsm cf with events := fun e' he' => (h.lsm cf).events e' (hrest e' he') }
        (fun file f g hf hstep => ?_)
      fun file hu => ⟨⟨hu.tables, fun e' he' => hu.events e' (hrest e' he'), hu.calls⟩,
        hu.events e (mem_of_getElem? hi)⟩
    exact hstep _ _ _ _ ((h.balanced cf file f hf).perm (deltas_eraseIdx hi file))

end

end TitanGC.Accounting.Preservation
