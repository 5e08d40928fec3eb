import TitanGC.Accounting.Preservation

/-!
# Range deletions

A range deletion reads the properties of tables, has the base database delete
tables, and subtracts what it has read. It keeps the balance where it subtracts no
more than it has removed, from files that are settled; this is not checked.
-/

namespace TitanGC.Accounting.RangeDeletion

open Lib.OrderedMap List Format.Coding Manifest.Logging SizeCollector Tracking Listener
open Balance History Preservation

section

variable {slack : UInt32 → UInt64 → ℕ} {s : State}

structure TablesOf (version props : List Table) : Prop where
  nodup : (props.map (·.number)).Nodup
  mem : ∀ t ∈ props, t ∈ version

/-- The tables that are read are tables of the version, each once. -/
theorem tablesInRanges_of {view : VersionView} {version : List Table}
    (hview : ∀ tables start limit, view.cleanInputs tables start limit ⊆ tables) (maxLevel : Nat)
    (ranges : List RangePtr) (includeEnd : Bool) :
    TablesOf version (tablesInRanges view version maxLevel ranges includeEnd) := by
  refine List.foldlRecOn _ _ ⟨nodup_nil, nofun⟩ fun props hprops range _ => ?_
  refine List.foldlRecOn _ _ hprops fun props hprops level _ => ?_
  refine List.foldlRecOn _ _ hprops fun props hprops t ht => ?_
  split
  · exact hprops
  · split
    · exact hprops
    · split
      · exact hprops
      · rename_i hany
        have hnew : t.number ∉ props.map (·.number) := by
          intro hmem
          obtain ⟨t', ht', heq⟩ := mem_map.mp hmem
          exact hany (any_eq_true.mpr ⟨t', ht', beq_iff_eq.mpr heq⟩)
        refine ⟨?_, fun t' ht' => ?_⟩
        · rw [map_append, map_singleton]
          exact nodup_append.mpr ⟨hprops.nodup, nodup_singleton _, fun a ha b hb heq =>
            hnew (mem_singleton.mp hb ▸ heq ▸ ha)⟩
        · rcases mem_append.mp ht' with ht' | ht'
          · exact hprops.mem t' ht'
          · rw [mem_singleton.mp ht']
            exact mem_of_mem_filter (hview _ _ _ ht)

theorem TablesOf.subperm {version props : List Table} (h : TablesOf version props) : props.Subperm version :=
  (List.Nodup.of_map _ h.nodup).subperm fun t ht => h.mem t ht

theorem owedBy_perm {calls calls' : List RangeCall} (h : calls.Perm calls') (file : UInt64) :
    owedBy calls file = owedBy calls' file := (h.map _).sum_eq

theorem owedBy_cons (c : RangeCall) (calls : List RangeCall) (file : UInt64) :
    owedBy (c :: calls) file = (if c.removed then refs c.read file else 0) + owedBy calls file := by
  rw [owedBy, map_cons, sum_cons, ← owedBy]

variable {i : Nat} {cf : UInt32} {read : List Table}

theorem calls_eraseIdx {l : Lsm} {call : RangeCall} (hi : l.calls[i]? = some call) :
    l.calls.Perm (call :: l.calls.eraseIdx i) := by
  obtain ⟨hlt, rfl⟩ := List.getElem?_eq_some_iff.mp hi
  exact (getElem_cons_eraseIdx_perm hlt).symm

/-- A call that has removed nothing is owed nothing. -/
theorem owed_eraseIdx {l : Lsm} {call : RangeCall} (hi : l.calls[i]? = some call) (file : UInt64) :
    owed l file = (if call.removed then refs call.read file else 0) + owedBy (l.calls.eraseIdx i) file := by
  rw [owed, owedBy_perm (calls_eraseIdx hi), owedBy_cons]

theorem inv_readRange (h : Inv slack s) {view : VersionView} {maxLevel : Nat} {ranges : List RangePtr}
    {includeEnd : Bool} (hview : ∀ tables start limit, view.cleanInputs tables start limit ⊆ tables)
    (options : UInt32 → CFOptions) :
    Inv slack (exec options s (.readRange cf view maxLevel ranges includeEnd)) := by
  have hsub : (tablesInRanges view (s.lsm cf).tables maxLevel ranges includeEnd).Subperm
      (s.lsm cf).tables := (tablesInRanges_of hview maxLevel ranges includeEnd).subperm
  rw [exec]
  generalize tablesInRanges view (s.lsm cf).tables maxLevel ranges includeEnd = read at hsub ⊢
  have howed : ∀ file, owedBy ((s.lsm cf).calls ++ [{ read := read }]) file = owed (s.lsm cf) file := by
    intro file
    simp [owed, owedBy]
  refine h.setLsm (fun _ _ => rfl) { h.ok cf with
    calls := forall_mem_append.mpr ⟨(h.lsm cf).calls, forall_mem_singleton.mpr ?_⟩
    balanced := fun file f hf => ?_
    untouched := fun file hfile => ?_ }
  · exact ⟨fun t ht => (h.lsm cf).sane t (hsub.subset ht), fun file =>
      (refs_le_of_subperm hsub file).trans_lt ((h.lsm cf).small file)⟩
  · have hbalanced := h.balanced cf file f hf
    rw [← howed file] at hbalanced
    exact hbalanced
  · obtain ⟨hu, hslack⟩ := h.untouched cf file hfile
    refine ⟨⟨hu.tables, hu.events, forall_mem_append.mpr ⟨hu.calls, forall_mem_singleton.mpr ?_⟩⟩,
      hslack⟩
    exact fun hr => hu.tables (hr.mono hsub.subset)

/-- What a range deletion has read is subtracted from a settled file. -/
def Subtracts (read : List Table) (file : UInt64) (f g : TrackedFile) : Prop :=
  ∀ referenced owed slack rest, (Referenced read file → f.state ≠ .pendingLSM) →
    Balanced f referenced (owed + refs read file) slack rest → Balanced g referenced owed slack rest

theorem rangeDiff_totals (hsane : ∀ t ∈ read, Sane t) (hsmall : ∀ file, refs read file < 2 ^ 63) :
    Totals Int64.ofInt (Referenced read) (fun file => -(refs read file : ℤ)) (rangeDiff read) := by
  obtain ⟨diff, -, hrun, htotals⟩ := foldl_extract hsane hsmall false (Totals.empty Int64.ofInt)
  rw [rangeDiff, hrun]
  refine htotals.congr (fun file => ?_) (fun file => ?_)
  · simp
  · simp

/-- The verdict of a range deletion. -/
theorem rangeVerdict_sound (hsane : ∀ t ∈ read, Sane t) (hsmall : ∀ file, refs read file < 2 ^ 63)
    (o : CFOptions) {file : UInt64} {f : TrackedFile} {referenced owed slack : ℕ} {rest : List ℤ}
    (hsettled : Referenced read file → f.state ≠ .pendingLSM)
    (h : Balanced f referenced (owed + refs read file) slack rest) {d : Int64}
    (hd : (rangeDiff read).lookup file = some d) : Sound (rangeFile o d f) referenced owed slack rest := by
  have htotals := rangeDiff_totals hsane hsmall
  by_cases hr : Referenced read file
  · rw [htotals.present file hr] at hd
    cases hd
    exact rangeFile_sound o h (hsettled hr)
  · rw [(htotals.absent file hr).1] at hd
    cases hd

theorem accountRanges_handled {b : BlobFiles} (hcf : cf ∈ b.ids)
    (hdistinct : ∀ cf' n, ((b.storage cf).files n).isSome → ((b.storage cf').files n).isSome → cf = cf')
    (hsane : ∀ t ∈ read, Sane t) (hsmall : ∀ file, refs read file < 2 ^ 63) (o : CFOptions) (seq : Nat)
    (w : Write) : Handled b (accountRanges b o cf read seq w) cf (Referenced read) (Subtracts read) := by
  have htotals := rangeDiff_totals hsane hsmall
  have hpass := accountFiles_pass (rangeFile o) seq htotals.ordered (b.storage cf)
  have hskip : ∀ {file f referenced owed slack rest},
      Balanced f referenced (owed + refs read file) slack rest → (rangeDiff read).lookup file = none →
      Balanced f referenced owed slack rest := by
    intro file f referenced owed slack rest hbalanced hlookup
    by_cases hr : Referenced read file
    · rw [htotals.present file hr] at hlookup
      cases hlookup
    · rwa [refs_eq_zero hr, add_zero] at hbalanced
  rw [accountRanges, if_neg (not_not_intro hcf), rangePass]
  generalize accountFiles (rangeFile o) seq (rangeDiff read) (b.storage cf) = pass at hpass ⊢
  dsimp only
  split
  · constructor
    · intro file g hg
      obtain ⟨f, hf, ⟨hne, -⟩ | ⟨-, hverdict⟩⟩ := logPass_files hpass hdistinct w hg
      · exact absurd rfl hne
      refine ⟨f, hf, fun referenced owed slack rest hsettled hbalanced => ?_, fun hnot => ?_⟩
      · exact balanced_verdict (hskip hbalanced)
          (fun d hd => rangeVerdict_sound hsane hsmall o hsettled hbalanced hd) hverdict
      · have hnone := (htotals.absent file hnot).1
        rcases hverdict with rfl | ⟨d, hlookup, -⟩
        · exact after_of_none hnone f
        · rw [hnone] at hlookup
          cases hlookup
    · intro cf' hne file g hg
      obtain ⟨f, hf, ⟨-, rfl⟩ | ⟨heq, -⟩⟩ := logPass_files hpass hdistinct w hg
      · exact hf
      · exact absurd heq hne
  · constructor
    · intro file g hg
      rw [BlobFiles.setStorage_self, hpass.files] at hg
      obtain ⟨f, hf, rfl⟩ := Option.map_eq_some_iff.mp hg
      refine ⟨f, hf, fun referenced owed slack rest hsettled hbalanced => ?_,
        fun hnot => after_of_none (htotals.absent file hnot).1 f⟩
      exact balanced_verdict (hskip hbalanced)
        (fun d hd => rangeVerdict_sound hsane hsmall o hsettled hbalanced hd) (.inl rfl)
    · intro cf' hne file g hg
      rwa [BlobFiles.setStorage_of_ne b hne] at hg

/-- A range deletion subtracts no more than what it removes, and from settled files. -/
def Accurate (s : State) : Op → Prop
  | .removeRange cf i none deleted => ∀ call, (s.lsm cf).calls[i]? = some call → call.read.Subperm deleted
  | .accountRange cf i _ _ => ∀ call, (s.lsm cf).calls[i]? = some call →
      ∀ file f, Referenced call.read file → (s.blobs.storage cf).files file = some f →
        f.state ≠ .pendingLSM
  | _ => True

/-- The tables go; what was read of them is owed, the rest is never subtracted. -/
theorem inv_removeRange (h : Inv slack s) {status : Option Status} {deleted : List Table}
    (hallowed : Allowed s (.removeRange cf i status deleted))
    (haccurate : Accurate s (.removeRange cf i status deleted)) (options : UInt32 → CFOptions) :
    ∃ slack', Inv slack' (exec options s (.removeRange cf i status deleted)) := by
  obtain ⟨hsub, hfirst⟩ := hallowed
  rw [exec]
  cases hi : (s.lsm cf).calls[i]? with
  | none => exact ⟨slack, h⟩
  | some call =>
    have hcall := (h.lsm cf).calls call (mem_of_getElem? hi)
    have hrest : ∀ c ∈ (s.lsm cf).calls.eraseIdx i, c ∈ (s.lsm cf).calls :=
      fun c hc => mem_of_mem_eraseIdx hc
    have howed : ∀ file, owed (s.lsm cf) file = owedBy ((s.lsm cf).calls.eraseIdx i) file := by
      intro file
      rw [owed_eraseIdx hi, hfirst call hi]
      exact zero_add _
    cases status with
    | some status =>
      refine ⟨slack, h.setLsm (fun _ _ => rfl) { h.ok cf with
        calls := fun c hc => (h.lsm cf).calls c (hrest c hc)
        balanced := fun file f hf => ?_
        untouched := fun file hfile => ?_ }⟩
      · have hbalanced := h.balanced cf file f hf
        rw [howed file] at hbalanced
        exact hbalanced
      · obtain ⟨hu, hslack⟩ := h.untouched cf file hfile
        exact ⟨⟨hu.tables, hu.events, fun c hc => hu.calls c (hrest c hc)⟩, hslack⟩
    | none =>
      have hread := haccurate call hi
      obtain ⟨hlt, -⟩ := List.getElem?_eq_some_iff.mp hi
      have hset := set_perm_cons_eraseIdx hlt { call with removed := true }
      have hmem : ∀ c ∈ (s.lsm cf).calls.set i { call with removed := true },
          c.read = call.read ∨ c ∈ (s.lsm cf).calls := by
        intro c hc
        rcases mem_cons.mp (hset.mem_iff.mp hc) with rfl | hc
        · exact .inl rfl
        · exact .inr (hrest c hc)
      refine ⟨fun cf' file => slack cf' file + if cf' = cf then refs deleted file - refs call.read file
        else 0, h.setLsm (fun cf' hne => ?_) { h.ok cf with
          sane := fun t ht => (h.lsm cf).sane t (diff_subset _ _ ht)
          small := fun file => ?_
          calls := fun c hc => ?_
          balanced := fun file f hf => ?_
          untouched := fun file hfile => ?_ }⟩
      · funext file
        rw [if_neg hne, add_zero]
      · have hdiff := refs_diff hsub file
        have hsmall := (h.lsm cf).small file
        dsimp only
        omega
      · rcases hmem c hc with heq | hc
        · rw [heq]
          exact hcall
        · exact (h.lsm cf).calls c hc
      · have hbalanced := h.balanced cf file f hf
        have hbalance := hbalanced.balance
        have hdiff := refs_diff hsub file
        have hle := refs_le_of_subperm hread file
        have hnew : owed { s.lsm cf with
            tables := (s.lsm cf).tables.diff deleted
            calls := (s.lsm cf).calls.set i { call with removed := true } } file =
            refs call.read file + owed (s.lsm cf) file := by
          rw [howed, owed, owedBy_perm hset, owedBy_cons]
          rfl
        rw [hnew, if_pos rfl]
        refine { hbalanced with balance := hbalance.trans ?_ }
        dsimp only
        push_cast [hle]
        omega
      · obtain ⟨hu, hslack⟩ := h.untouched cf file hfile
        have hgone : refs deleted file = 0 :=
          refs_eq_zero fun hr => hu.tables (hr.mono hsub.subset)
        refine ⟨⟨fun hr => hu.tables (hr.mono (diff_subset _ _)), hu.events,
          fun c hc => ?_⟩, ?_⟩
        · rcases hmem c hc with heq | hc
          · rw [heq]
            exact hu.calls call (mem_of_getElem? hi)
          · exact hu.calls c hc
        · rw [hslack, if_pos rfl, hgone, Nat.zero_sub]

theorem inv_accountRange (h : Inv slack s) {seq : Nat} {w : Write}
    (hallowed : Allowed s (.accountRange cf i seq w)) (haccurate : Accurate s (.accountRange cf i seq w))
    (options : UInt32 → CFOptions) : Inv slack (exec options s (.accountRange cf i seq w)) := by
  obtain ⟨hcf, hremoved⟩ := hallowed
  rw [exec]
  cases hi : (s.lsm cf).calls[i]? with
  | none => exact h
  | some call =>
    have hcall := (h.lsm cf).calls call (mem_of_getElem? hi)
    have hrest : ∀ c ∈ (s.lsm cf).calls.eraseIdx i, c ∈ (s.lsm cf).calls :=
      fun c hc => mem_of_mem_eraseIdx hc
    have howed : ∀ file, owed (s.lsm cf) file =
        owedBy ((s.lsm cf).calls.eraseIdx i) file + refs call.read file := by
      intro file
      rw [owed_eraseIdx hi, hremoved call hi, add_comm]
      rfl
    refine h.of_handled (accountRanges_handled hcf (h.distinct cf) hcall.1 hcall.2 (options cf) seq w) rfl
      { h.lsm cf with calls := fun c hc => (h.lsm cf).calls c (hrest c hc) } (fun file f g hf hstep => ?_)
      fun file hu => ⟨⟨hu.tables, hu.events, fun c hc => hu.calls c (hrest c hc)⟩,
        hu.calls call (mem_of_getElem? hi)⟩
    have hbalanced := h.balanced cf file f hf
    rw [howed file] at hbalanced
    exact hstep _ _ _ _ (fun hr => haccurate call hi file f hr hf) hbalanced

end

/-! ## Runs -/

def NoRange : Op → Prop
  | .readRange _ _ _ _ _ | .removeRange _ _ _ _ | .accountRange _ _ _ _ => False
  | _ => True

variable {slack : UInt32 → UInt64 → ℕ}

theorem inv_exec {s : State} (h : Inv slack s) {op : Op} (hallowed : Allowed s op)
    (haccurate : Accurate s op) (options : UInt32 → CFOptions) :
    ∃ slack', Inv slack' (exec options s op) ∧ (NoRange op → slack' = slack) := by
  cases op with
  | finish cf files w => exact ⟨slack, inv_finish h hallowed.2.2 options, fun _ => rfl⟩
  | flush cf table created => exact ⟨slack, inv_flush h hallowed options, fun _ => rfl⟩
  | compact cf inputs outputs outputLevel created =>
    exact ⟨slack, inv_compact h hallowed options, fun _ => rfl⟩
  | compactFailed cf status inputs outputs outputLevel =>
    exact ⟨slack, inv_compactFailed h cf status inputs outputs outputLevel options, fun _ => rfl⟩
  | deliver cf i seq w => exact ⟨slack, inv_deliver h hallowed i seq w options, fun _ => rfl⟩
  | purge cf oldestSequence => exact ⟨slack, inv_purge h cf oldestSequence options, fun _ => rfl⟩
  | readRange cf view maxLevel ranges includeEnd =>
    exact ⟨slack, inv_readRange h hallowed.2 options, fun _ => rfl⟩
  | removeRange cf i status deleted =>
    obtain ⟨slack', h'⟩ := inv_removeRange h hallowed haccurate options
    exact ⟨slack', h', fun hno => hno.elim⟩
  | accountRange cf i seq w => exact ⟨slack, inv_accountRange h hallowed haccurate options, fun _ => rfl⟩

theorem inv_exec_noRange {s : State} (h : Inv slack s) {op : Op} (hallowed : Allowed s op)
    (hno : NoRange op) (options : UInt32 → CFOptions) : Inv slack (exec options s op) := by
  have haccurate : Accurate s op := by
    cases op with
    | removeRange cf i status deleted => exact hno.elim
    | accountRange cf i seq w => exact hno.elim
    | _ => trivial
  obtain ⟨slack', hinv, hsame⟩ := inv_exec h hallowed haccurate options
  rwa [hsame hno] at hinv

end TitanGC.Accounting.RangeDeletion
