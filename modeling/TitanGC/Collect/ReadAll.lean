import TitanGC.Collect.FaultyInputs

/-!
# Whether a successful run has read its inputs

A run that returns OK has seen every entry the merge iterator yields. That is every
record of the inputs only if no input fails: an iterator that fails is dropped from the
heap, and with a bitmap the files after one that cannot be opened are left out.
-/

namespace TitanGC.Collect.ReadAll

open Lib.ByteCoding Lib.Draining List Format.Coding Format.BlobFile Format.InternalKey
open Storage.Iterator Storage.Writer Run FaultyInputs

/-! ## One iteration -/

/-- What one iteration does to the status and the entries seen. -/
def Flow.Sees (x : Entry) (st : GcState) : Flow → Prop
  | .go st' => st'.status = none ∧ st'.read = st.read ++ [x]
  | .stop st' => st'.status ≠ none

variable (o : GcOptions) (env : GcEnv) {st st' : GcState} {out : OutputFile}

theorem ensureOutput_ok (h : ensureOutput o env st = .ok (st', out)) :
    st'.status = st.status ∧ st'.read = st.read := by
  unfold ensureOutput at h
  split at h
  · cases h
    exact ⟨rfl, rfl⟩
  · dsimp only at h
    split at h
    · cases h
    · cases h
      split <;> exact ⟨rfl, rfl⟩

theorem ensureOutput_error (h : ensureOutput o env st = .error st') : st'.status ≠ none := by
  unfold ensureOutput at h
  split at h
  · cases h
  · dsimp only at h
    split at h
    · cases h
      exact Option.some_ne_none _
    · cases h

variable {st₀ : GcState}

theorem writeEntry_sees (x y : Entry) (hread : st.read = st₀.read ++ [y]) :
    Flow.Sees y st₀ (writeEntry o st out x) := by
  unfold writeEntry
  dsimp only
  split
  · rename_i hsome
    exact Option.isSome_iff_ne_none.mp hsome
  · rename_i hnone
    exact ⟨Option.not_isSome_iff_eq_none.mp hnone, hread⟩

variable (x : Entry)

theorem rewriteEntry_sees (hstatus : st.status = none) (hread : st.read = st₀.read ++ [x]) :
    Flow.Sees x st₀ (rewriteEntry o env st x) := by
  unfold rewriteEntry
  split
  · exact ⟨hstatus, hread⟩
  · split
    · rename_i st' hensure
      exact ensureOutput_error o env hensure
    · rename_i st' out hensure
      obtain ⟨-, hread'⟩ := ensureOutput_ok o env hensure
      exact writeEntry_sees o x x (hread'.trans hread)

/-- An iteration sees its entry, and goes on with an OK status or stops with a failure. -/
theorem body_sees (hstatus : st.status = none) : Flow.Sees x st (body o env st x) := by
  obtain ⟨key, fresh, ⟨-, ⟨e, hbody, -⟩ | hbody⟩ | ⟨-, hbody⟩⟩ := body_cases o env st x <;> rw [hbody]
  · exact Option.some_ne_none _
  · exact ⟨hstatus, rfl⟩
  · exact rewriteEntry_sees o env x hstatus rfl

/-! ## The loop -/

variable {it : BlobFileIterator}

section

variable {compare : Bytes → Bytes → Ordering} (ienv : Env)
  (heap : PriorityQueue BlobFileIterator (KeyAfter compare))

/-- The current iterator and those in the heap are valid. -/
structure Settled (mi : BlobFileMergeIterator) : Prop where
  current : ∀ it, mi.current = some it → it.isValid = true
  minHeap : ∀ it ∈ mi.minHeap, it.isValid = true

variable {ienv heap} in
theorem settled_pop {queue rest : List BlobFileIterator} (hqueue : ∀ x ∈ queue, x.isValid = true)
    (hpop : heap.pop queue = some (it, rest)) :
    it.isValid = true ∧ ∀ x ∈ rest, x.isValid = true := by
  cases queue with
  | nil => rw [heap.pop_nil] at hpop; cases hpop
  | cons x xs =>
    obtain ⟨y, ys, heq, hperm, -⟩ := heap.pop_cons x xs
    rw [heq] at hpop
    cases hpop
    have hall : ∀ z ∈ it :: rest, z.isValid = true := fun z hz => hqueue z (hperm.mem_iff.mpr hz)
    exact ⟨hall it mem_cons_self, fun z hz => hall z (mem_cons_of_mem _ hz)⟩

theorem push_valid {queue : List BlobFileIterator} (hqueue : ∀ x ∈ queue, x.isValid = true) :
    ∀ x ∈ BlobFileMergeIterator.push it queue, x.isValid = true := by
  unfold BlobFileMergeIterator.push
  split
  · rename_i hvalid
    exact forall_mem_cons.mpr ⟨hvalid, hqueue⟩
  · exact hqueue

theorem settled_seekToFirst (its : List BlobFileIterator) :
    Settled (BlobFileMergeIterator.seekToFirst ienv heap { blobFileIterators := its }) := by
  have hqueue : ∀ x ∈ (its.map (·.seekToFirst ienv)).foldr BlobFileMergeIterator.push [],
      x.isValid = true := by
    induction its with
    | nil => exact forall_mem_nil _
    | cons it its ih => exact push_valid ih
  unfold BlobFileMergeIterator.seekToFirst
  dsimp only
  split
  · exact ⟨nofun, forall_mem_nil _⟩
  · rename_i it rest hpop
    obtain ⟨hit, hrest⟩ := settled_pop hqueue hpop
    exact ⟨fun x hx => by cases hx; exact hit, hrest⟩

theorem settled_next {mi : BlobFileMergeIterator} (h : Settled mi) : Settled (mi.next ienv heap) := by
  unfold BlobFileMergeIterator.next
  split
  · exact h
  · split
    · exact ⟨nofun, forall_mem_nil _⟩
    · rename_i it rest hpop
      obtain ⟨hit, hrest⟩ := settled_pop (push_valid h.minHeap) hpop
      exact ⟨fun x hx => by cases hx; exact hit, hrest⟩

theorem next_status (mi : BlobFileMergeIterator) : (mi.next ienv heap).status = mi.status := by
  unfold BlobFileMergeIterator.next
  split
  · rfl
  · split <;> rfl

/-- The iterators of the heap being valid, only the merge itself can have failed. -/
theorem Settled.getStatus_eq {mi : BlobFileMergeIterator} (h : Settled mi) :
    mi.getStatus = mi.status := by
  unfold BlobFileMergeIterator.getStatus
  cases hcurrent : mi.current with
  | none => rfl
  | some it =>
    have hvalid := h.current it hcurrent
    rw [BlobFileIterator.isValid, Bool.and_eq_true, Option.isNone_iff_eq_none] at hvalid
    rw [Option.bind_some, hvalid.2, Option.none_or]

/-- With enough fuel the loop returns. It has seen everything, or has stopped with a
failure. -/
theorem loop_drains {mi : BlobFileMergeIterator} {l : List Entry} (st : GcState) {fuel : Nat}
    (hyields : (BlobFileMergeIterator.source ienv heap).Yields mi l) (hsettled : Settled mi)
    (hstatus : st.status = none) (hfuel : l.length < fuel) :
    ∃ mi' st', loop ienv heap o env fuel mi st = some (mi', st') ∧ mi'.getStatus = mi.status ∧
      (st'.status = none → st'.read = st.read ++ l) := by
  induction hyields generalizing st fuel with
  | @done mi hitem =>
    cases fuel with
    | zero => exact absurd hfuel (Nat.not_lt_zero _)
    | succ fuel =>
      change mi.item ienv = none at hitem
      exact ⟨mi, st, by rw [loop, hitem], hsettled.getStatus_eq, fun _ => (append_nil _).symm⟩
  | @more mi x l hitem _ ih =>
    cases fuel with
    | zero => exact absurd hfuel (Nat.not_lt_zero _)
    | succ fuel =>
      change mi.item ienv = some x at hitem
      have hsees := body_sees o env x hstatus
      rw [loop, hitem]
      dsimp only
      cases hbody : body o env st x with
      | stop st' =>
        rw [hbody] at hsees
        exact ⟨mi, st', rfl, hsettled.getStatus_eq, fun h => absurd h hsees⟩
      | go st' =>
        rw [hbody] at hsees
        obtain ⟨hstatus', hread⟩ := hsees
        rw [length_cons] at hfuel
        obtain ⟨mi', st'', hloop, hget, hall⟩ :=
          ih st' (settled_next ienv heap hsettled) hstatus' (Nat.lt_of_succ_lt_succ hfuel)
        refine ⟨mi', st'', hloop, hget.trans (next_status ienv heap mi), fun h => ?_⟩
        rw [hall h, hread, append_assoc, singleton_append]

end

/-! ## Runs in which nothing else fails -/

def quiet : GcEnv where
  newFile _ := .ok 0
  outcome _ _ := none
  shutingDown _ := false
  discardEntry _ _ _ := .ok true

/-- The contexts that wait in the current builder have keys that parse. -/
def Parsable (st : GcState) : Prop :=
  ∀ out, st.current = some out → ∀ ctx ∈ out.builder.cachedContexts,
    ∃ k, parseInternalKey ctx.key = .ok k

theorem batchWriteNewIndices_status {contexts : List BlobRecordContext}
    (h : ∀ ctx ∈ contexts, ∃ k, parseInternalKey ctx.key = .ok k) :
    (batchWriteNewIndices contexts).1 = none := by
  induction contexts with
  | nil => rfl
  | cons ctx contexts ih =>
    obtain ⟨⟨k, hk⟩, hrest⟩ := forall_mem_cons.mp h
    rw [batchWriteNewIndices, hk]
    exact ih hrest

theorem ensureOutput_quiet (h : Parsable st) :
    ∃ st' out, ensureOutput o quiet st = .ok (st', out) ∧
      ∀ ctx ∈ out.builder.cachedContexts, ∃ k, parseInternalKey ctx.key = .ok k := by
  unfold ensureOutput
  split
  · rename_i out hcurrent _
    exact ⟨st, out, rfl, h out hcurrent⟩
  · refine ⟨_, _, rfl, fun ctx hctx => ?_⟩
    change ctx ∈ (BlobFileBuilder.new o.builder { outcome := fun _ => none }
      kVersion2).cachedContexts at hctx
    rw [BlobFileBuilder.new_cachedContexts] at hctx
    exact absurd hctx not_mem_nil

theorem writeEntry_quiet
    (h : ∀ ctx ∈ out.builder.cachedContexts, ∃ k, parseInternalKey ctx.key = .ok k) :
    ∃ st', writeEntry o st out x = .go st' ∧ Parsable st' := by
  have hkey : ParsedInternalKey.Valid ⟨x.record.key, 1, kTypeValue⟩ :=
    ⟨show 1 ≤ kMaxSequenceNumber by decide, show isExtendedValueType kTypeValue = true by decide⟩
  -- every context at hand, the new one included, has a key that parses
  have hall : ∀ ctx₀ : BlobRecordContext, ctx₀.key = appendInternalKey ⟨x.record.key, 1, kTypeValue⟩ →
      ∀ ctx ∈ (out.builder.add o.builder x.record ctx₀).2 ++
        (out.builder.add o.builder x.record ctx₀).1.cachedContexts,
      ∃ k, parseInternalKey ctx.key = .ok k := by
    intro ctx₀ hkey₀ ctx hctx
    have hmem := BlobFileBuilder.add_keys o.builder _ _ _ (mem_map_of_mem hctx)
    obtain ⟨ctx', hctx', heq⟩ := mem_map.mp hmem
    rw [← heq]
    cases mem_append.mp hctx' with
    | inl hcached => exact h ctx' hcached
    | inr hnew =>
      rw [mem_singleton.mp hnew, hkey₀]
      exact ⟨_, parseInternalKey_appendInternalKey hkey⟩
  have hstatus := fun ctx₀ hkey₀ =>
    batchWriteNewIndices_status fun ctx hctx => hall ctx₀ hkey₀ ctx (mem_append_left _ hctx)
  unfold writeEntry
  dsimp only
  rw [hstatus _ rfl]
  refine ⟨_, rfl, fun out' hout ctx hctx => ?_⟩
  cases hout
  exact hall _ rfl ctx (mem_append_right _ hctx)

theorem rewriteEntry_quiet (h : Parsable st) :
    ∃ st', rewriteEntry o quiet st x = .go st' ∧ Parsable st' := by
  unfold rewriteEntry
  split
  · exact ⟨_, rfl, h⟩
  · obtain ⟨st', out, hensure, hout⟩ := ensureOutput_quiet o h
    rw [hensure]
    exact writeEntry_quiet o x hout

theorem body_quiet (h : Parsable st) : ∃ st', body o quiet st x = .go st' ∧ Parsable st' := by
  obtain ⟨key, fresh, ⟨-, ⟨e, -, hdown | herror⟩ | hbody⟩ | ⟨-, hbody⟩⟩ := body_cases o quiet st x
  · cases hdown
  · unfold discardable at herror
    split at herror <;> cases herror
  · exact ⟨_, hbody, h⟩
  · rw [hbody]
    exact rewriteEntry_quiet o x h

theorem loop_quiet {compare : Bytes → Bytes → Ordering} (ienv : Env)
    (heap : PriorityQueue BlobFileIterator (KeyAfter compare)) {fuel : Nat} {mi mi' : BlobFileMergeIterator}
    (st : GcState) (hparse : Parsable st) (hstatus : st.status = none)
    (hloop : loop ienv heap o quiet fuel mi st = some (mi', st')) : st'.status = none := by
  induction fuel generalizing mi st with
  | zero => cases hloop
  | succ fuel ih =>
    rw [loop] at hloop
    cases hitem : mi.item ienv with
    | none =>
      rw [hitem] at hloop
      cases hloop
      exact hstatus
    | some x =>
      obtain ⟨st₁, hbody, hparse₁⟩ := body_quiet o x hparse
      rw [hitem] at hloop
      dsimp only at hloop
      have hsees := body_sees o quiet x hstatus
      rw [hbody] at hloop hsees
      exact ih st₁ hparse₁ hsees.1 hloop

/-! ## Whole runs -/

variable (inputs : List (Input ienv))

section

variable {compare : Bytes → Bytes → Ordering} {ienv : Env}
  (heap : PriorityQueue BlobFileIterator (KeyAfter compare))

def BuildFails (useBitmap storageFound : Bool) (inputs : List (Input ienv)) : Prop :=
  if useBitmap then
    storageFound = false ∨ (∃ p ∈ opened inputs, p.1.file.present = false) ∨
      (opened inputs = [] ∧ unopened inputs ≠ [])
  else unopened inputs ≠ []

/-- No file that is opened shows a first record. -/
def NothingRead (inputs : List (Input ienv)) : Prop :=
  ∀ p ∈ opened inputs, ¬ p.1.ReadsFirst

/-- Every file that has records is opened and read without a failure. -/
def ReadsAll (inputs : List (Input ienv)) : Prop :=
  (∀ p ∈ opened inputs, p.1.contents.records = [] ∨ p.1.ReadsCompletely) ∧
    ∀ i ∈ unopened inputs, i.contents.records = []

/-- Building the iterator reports a failure, or the opened inputs are merged. -/
theorem buildIterator_spec (useBitmap storageFound : Bool) (inputs : List (Input ienv)) :
    (BuildFails useBitmap storageFound inputs →
      ∃ e, buildIterator useBitmap storageFound (inputs.map Input.file) = .error e) ∧
    (¬ BuildFails useBitmap storageFound inputs →
      buildIterator useBitmap storageFound (inputs.map Input.file) =
        .ok { blobFileIterators := (opened inputs).map fun p => p.1.file.iterator p.2 }) := by
  obtain ⟨hlist, hstatus⟩ := openFiles_eq inputs
  unfold BuildFails buildIterator
  generalize openFiles (inputs.map Input.file) = result at hlist hstatus ⊢
  obtain ⟨list, s⟩ := result
  dsimp only at hlist hstatus ⊢
  have hits : list.map (fun p => p.1.iterator p.2) =
      (opened inputs).map fun p => p.1.file.iterator p.2 := by
    rw [hlist, map_map]
    rfl
  have hpresent : (∃ p ∈ opened inputs, p.1.file.present = false) ↔
      list.any (!·.1.present) = true := by
    rw [hlist, any_map, any_eq_true]
    simp only [Function.comp_apply, Bool.not_eq_true']
  have hnil : opened inputs = [] ↔ list = [] := by rw [hlist, map_eq_nil_iff]
  rw [hits, hpresent, hnil, Ne, ← hstatus]
  cases useBitmap with
  | false => cases s <;> simp
  | true =>
    cases storageFound with
    | false => simp
    | true => cases list.any (!·.1.present) <;> cases list <;> cases s <;> simp

/-- Lists that are no longer than others, one by one, and as long in all, are each as
long. -/
theorem length_eq_of_flatMap {ι α β : Type} {f : ι → List α} {g : ι → List β} (is : List ι)
    (hle : ∀ i ∈ is, (f i).length ≤ (g i).length) :
    (is.flatMap f).length ≤ (is.flatMap g).length ∧
    ((is.flatMap g).length ≤ (is.flatMap f).length → ∀ i ∈ is, (f i).length = (g i).length) := by
  induction is with
  | nil => exact ⟨le_rfl, fun _ i hi => absurd hi not_mem_nil⟩
  | cons i is ih =>
    obtain ⟨hhead, htail⟩ := forall_mem_cons.mp hle
    obtain ⟨hsum, hall⟩ := ih htail
    simp only [flatMap_cons, length_append]
    refine ⟨by omega, fun hge => forall_mem_cons.mpr ⟨by omega, hall (by omega)⟩⟩

/-- The opened inputs yield every record of the inputs exactly if all are read. -/
theorem subperm_yielded_iff :
    (inputs.flatMap Input.entries).Subperm (yielded inputs) ↔ ReadsAll inputs := by
  have hsplit : inputs.flatMap Input.entries =
      (opened inputs).flatMap (fun p => p.1.entries) ++ (unopened inputs).flatMap Input.entries := by
    conv_lhs => rw [← opened_append_unopened inputs]
    rw [flatMap_append, flatMap_map]
  have hlengths := length_eq_of_flatMap (opened inputs)
    (f := fun p => p.1.yields p.2) (g := fun p => p.1.entries) fun p _ => p.1.yields_length_le p.2
  rw [hsplit, yielded]
  constructor
  · intro hsub
    have hlen := hsub.length_le
    rw [length_append] at hlen
    obtain ⟨hsum, hall⟩ := hlengths
    refine ⟨fun p hp => (p.1.yields_eq_iff (opened_of_mem hp)).mp (hall (by omega) p hp),
      fun i hi => ?_⟩
    have hnil : (unopened inputs).flatMap Input.entries = [] :=
      length_eq_zero_iff.mp (by omega)
    rw [← length_eq_zero_iff, ← Input.entries_length,
      flatMap_eq_nil_iff.mp hnil i hi, length_nil]
  · rintro ⟨hopened, hrest⟩
    have hnil : (unopened inputs).flatMap Input.entries = [] := by
      rw [flatMap_eq_nil_iff]
      intro i hi
      rw [← length_eq_zero_iff, Input.entries_length, hrest i hi, length_nil]
    have hsame : (opened inputs).flatMap (fun p => p.1.entries) =
        (opened inputs).flatMap fun p => p.1.yields p.2 := by
      refine flatMap_congr fun p hp => ?_
      exact (p.1.entries_of_length_eq
        ((p.1.yields_eq_iff (opened_of_mem hp)).mpr (hopened p hp))).symm
    rw [hnil, append_nil, hsame]

theorem yielded_eq_nil_iff : yielded inputs = [] ↔ NothingRead inputs := by
  rw [yielded, flatMap_eq_nil_iff, NothingRead]
  refine forall₂_congr fun p hp => ?_
  rw [← p.1.yields_ne_nil_iff (opened_of_mem hp), not_not]

theorem finishRun_status (mi : BlobFileMergeIterator) (st : GcState) :
    (finishRun mi st).status = mi.getStatus.or st.status ∧ (finishRun mi st).read = st.read := by
  unfold finishRun
  split
  · rename_i hmi hst
    rw [hmi]
    split <;> exact ⟨rfl, rfl⟩
  · rename_i hmi
    rw [hmi]
    exact ⟨rfl, rfl⟩
  · rename_i hmi _
    rw [hmi]
    exact ⟨rfl, rfl⟩

variable (storageFound : Bool) (inputs : List (Input ienv))

/-- A run whose iterator is built returns. Unless its loop has failed, it has seen all that
the opened inputs yield, and it fails if that is nothing. -/
theorem doRunGC_returns (h : ¬ BuildFails o.useBitmap storageFound inputs) :
    ∃ fuel₀, ∀ fuel ≥ fuel₀, ∃ mi₀ mi st, loop ienv heap o env fuel mi₀ {} = some (mi, st) ∧
      doRunGC ienv heap o env storageFound (inputs.map Input.file) fuel = some (finishRun mi st) ∧
      ((finishRun mi st).status = none ↔ yielded inputs ≠ [] ∧ st.status = none) ∧
      (st.status = none → (finishRun mi st).read.Perm (yielded inputs)) := by
  obtain ⟨l, hperm, hyields, hmerge⟩ := merge_yields heap inputs
  have hnil : l = [] ↔ yielded inputs = [] := by
    rw [← length_eq_zero_iff, hperm.length_eq, length_eq_zero_iff]
  refine ⟨l.length + 1, fun fuel hfuel => ?_⟩
  obtain ⟨mi, st, hloop, hget, hread⟩ :=
    loop_drains o env ienv heap {} hyields (settled_seekToFirst ienv heap _)
      rfl (Nat.lt_of_succ_le hfuel)
  obtain ⟨hstatus, hread'⟩ := finishRun_status mi st
  refine ⟨_, mi, st, hloop, ?_, ?_, fun hst => ?_⟩
  · rw [doRunGC, (buildIterator_spec ..).2 h]
    dsimp only
    rw [hloop]
  · rw [hstatus, Option.or_eq_none_iff, hget, hmerge, Ne, ← hnil]
    split <;> simp_all
  · rw [hread', hread hst]
    exact hperm

/-- In the quiet environment such a run returns OK, unless nothing can be read. -/
theorem doRunGC_quiet (h : ¬ BuildFails o.useBitmap storageFound inputs)
    (hne : yielded inputs ≠ []) :
    ∃ fuel₀, ∀ fuel ≥ fuel₀, ∃ st,
      doRunGC ienv heap o quiet storageFound (inputs.map Input.file) fuel = some st ∧
      st.status = none ∧ st.read.Perm (yielded inputs) := by
  obtain ⟨n, hn⟩ := doRunGC_returns o quiet heap storageFound inputs h
  refine ⟨n, fun fuel hfuel => ?_⟩
  obtain ⟨mi₀, mi, st, hloop, hrun, hstatus, hread⟩ := hn fuel hfuel
  have hst := loop_quiet o ienv heap {} nofun rfl hloop
  exact ⟨_, hrun, hstatus.mpr ⟨hne, hst⟩, hread hst⟩

/-- For every pattern of failures of the input files: in every environment a run returns,
and if it returns OK it has seen every record of every input, exactly if building the
iterator reports a failure, or no opened file shows a first record, or every file with
records is opened and read without a failure. -/
theorem doRunGC_reads_all_iff :
    (∀ env, ∃ fuel₀, ∀ fuel ≥ fuel₀, ∃ st,
      doRunGC ienv heap o env storageFound (inputs.map Input.file) fuel = some st ∧
      (st.status = none → (inputs.flatMap Input.entries).Subperm st.read)) ↔
    BuildFails o.useBitmap storageFound inputs ∨ NothingRead inputs ∨ ReadsAll inputs := by
  rw [← yielded_eq_nil_iff, ← subperm_yielded_iff]
  by_cases hbuild : BuildFails o.useBitmap storageFound inputs
  · refine ⟨fun _ => .inl hbuild, fun _ env => ⟨0, fun fuel _ => ?_⟩⟩
    obtain ⟨e, he⟩ := (buildIterator_spec ..).1 hbuild
    exact ⟨{ status := some e }, by rw [doRunGC, he], nofun⟩
  · constructor
    · intro hall
      by_cases hnil : yielded inputs = []
      · exact .inr (.inl hnil)
      · obtain ⟨n₁, h₁⟩ := hall quiet
        obtain ⟨n₂, h₂⟩ := doRunGC_quiet o heap storageFound inputs hbuild hnil
        obtain ⟨st, hrun, hsub⟩ := h₁ (n₁ + n₂) (by omega)
        obtain ⟨st', hrun', hok, hperm⟩ := h₂ (n₁ + n₂) (by omega)
        rw [hrun] at hrun'
        cases hrun'
        exact .inr (.inr (hperm.subperm_left.mp (hsub hok)))
    · intro hcases env
      obtain ⟨n, hn⟩ := doRunGC_returns o env heap storageFound inputs hbuild
      refine ⟨n, fun fuel hfuel => ?_⟩
      obtain ⟨mi₀, mi, st, -, hrun, hstatus, hperm⟩ := hn fuel hfuel
      refine ⟨_, hrun, fun hok => ?_⟩
      obtain ⟨hne, hst⟩ := hstatus.mp hok
      obtain hfails | hnil | hsub := hcases
      · exact absurd hfails hbuild
      · exact absurd hnil hne
      · exact (hperm hst).subperm_left.mpr hsub

end

/-! ## A file whose second record cannot be read -/

section

open Storage.Builder Storage.IntactFiles

def bytewise (a b : Bytes) : Ordering := if a ≤ b then (if a = b then .eq else .lt) else .gt

def bytewiseHeap : PriorityQueue BlobFileIterator (KeyAfter bytewise) :=
  (PriorityQueue.sorting (fun a b => decide (a.curBlobRecord.key ≤ b.curBlobRecord.key))
    (fun a b c hab hbc => decide_eq_true
      (List.le_trans (of_decide_eq_true hab) (of_decide_eq_true hbc)))
    (fun a b => by
      rw [Bool.or_eq_true, decide_eq_true_iff, decide_eq_true_iff]
      exact List.le_total _ _)).congr fun a b hafter => by
    refine decide_eq_false fun hle => ?_
    rw [KeyAfter, bytewise, if_pos hle] at hafter
    split at hafter <;> cases hafter

def plainEnv : Env where
  compression _ := .none
  initUncompressionDict _ _ := .ok []
  beyond _ := 0
  uninitialized := false

/-- Two records of a file of version 1; the second stands at offset 21. -/
def twoRecordFile : GcFile where
  file := ⟨kVersion1, [⟨[1], [2]⟩, ⟨[3], [4, 5]⟩], kVersion1_valid⟩
  bitmap := ⟨3, [0], rfl⟩
  covers := Nat.le_succ _
  fileNumber := 7

theorem twoRecordFile_fits : Fits twoRecordFile.file where
  records := by
    intro r hr
    simp only [twoRecordFile, mem_cons, not_mem_nil, or_false] at hr
    obtain rfl | rfl := hr <;> exact ⟨by decide, by decide⟩
  stored := by
    intro r hr
    simp only [twoRecordFile, mem_cons, not_mem_nil, or_false] at hr
    obtain rfl | rfl := hr <;> decide
  size := by
    rw [PlainFile.image_length]
    decide

/-- The header of the second record cannot be read. -/
def secondFails (offset n : Nat) : Option Status :=
  if offset = 21 ∧ n = kRecordHeaderSize then some ⟨.ioError, "read"⟩ else none

def brokenInput : Input plainEnv := plainInput plainEnv twoRecordFile twoRecordFile_fits secondFails

def plainOptions (useBitmap : Bool) : GcOptions where
  useBitmap := useBitmap
  fallback := false
  blobFileTargetSize := 2 ^ 28
  builder :=
    { compression := fun _ => .none
      maxDictBytes := 0
      zstdMaxTrainBytes := 0
      zstdTooOld := false
      trainDictionary := fun _ _ => []
      metaIndexBlock := fun _ => []
      compare := bytewise }

theorem brokenInput_init : ∃ it, (brokenInput.file.iterator
      (failing secondFails (.ofBytes twoRecordFile.file.image))).doInit plainEnv = (true, it) ∧
    it.file = failing secondFails (.ofBytes twoRecordFile.file.image) ∧
    it.uncompressionDict = [] ∧ it.endOfBlobRecord = 35 := by
  have hheader : failing secondFails (.ofBytes twoRecordFile.file.image) 0 12 =
      .ok ((twoRecordFile.file.image.drop 0).take 12) := rfl
  have hfooter : failing secondFails (.ofBytes twoRecordFile.file.image)
      (twoRecordFile.file.header.size + (entries twoRecordFile.file.records).length)
      kBlobFooterSize = .ok ({} : BlobFileFooter).encodeTo := by
    rw [failing, show secondFails (twoRecordFile.file.header.size +
      (entries twoRecordFile.file.records).length) kBlobFooterSize = none from by decide]
    exact ofBytes_footer _
  exact ⟨_, doInit_of_reads plainEnv twoRecordFile_fits hheader rfl hfooter, rfl, rfl, by decide⟩

theorem brokenInput_readsFirst : brokenInput.ReadsFirst := by
  obtain ⟨it, hinit, hfile, hdict, hend⟩ := brokenInput_init
  have hsame : Same { openFile twoRecordFile with
      file := failing secondFails (openFile twoRecordFile).file
      fileNumber := it.fileNumber, bitmap := it.bitmap, fileEntries := it.fileEntries
      endOfBlobRecord := it.endOfBlobRecord } it := ⟨hfile, rfl, rfl, rfl, rfl, hdict⟩
  have hstart : brokenInput.contents.start = 8 := rfl
  refine ⟨_, it, rfl, hinit, cons_ne_nil _ _, by rw [hstart, hend]; decide,
    (⟨[1], [2]⟩, (plainEntry ⟨[1], [2]⟩).length), ?_⟩
  rw [hsame.readRecord_eq]
  refine (readRecord_failing_of_none plainEnv { openFile twoRecordFile with
    fileNumber := it.fileNumber, bitmap := it.bitmap, fileEntries := it.fileEntries
    endOfBlobRecord := it.endOfBlobRecord } rfl fun n => rfl).trans ?_
  rw [show brokenInput.contents.start = twoRecordFile.file.header.size + (entries []).length from rfl]
  exact readRecord_entry plainEnv twoRecordFile_fits rfl
    (show twoRecordFile.file.records = [] ++ ⟨[1], [2]⟩ :: [⟨[3], [4, 5]⟩] from rfl)

theorem brokenInput_not_complete : ¬ brokenInput.ReadsCompletely := by
  rintro ⟨reader, it, hopen, hinit, hreads⟩
  cases hopen
  obtain ⟨it', hinit', hfile, -, -⟩ := brokenInput_init
  rw [hinit] at hinit'
  cases hinit'
  obtain ⟨-, x, hx⟩ := hreads 21 (by decide)
  rw [BlobFileIterator.readRecord, hfile] at hx
  cases hx

/-- The run on this file returns OK and has not read the second record. -/
theorem doRunGC_brokenInput (useBitmap : Bool) :
    ∃ fuel st, doRunGC plainEnv bytewiseHeap (plainOptions useBitmap) quiet true
      [brokenInput.file] fuel = some st ∧ st.status = none ∧ ¬ brokenInput.entries.Subperm st.read := by
  have hbuild : ¬ BuildFails useBitmap true [brokenInput] := by
    cases useBitmap <;> simp [BuildFails, opened, unopened, brokenInput, plainInput, plainFile]
  have hopened : (brokenInput, failing secondFails (.ofBytes twoRecordFile.file.image)) ∈
      opened [brokenInput] := mem_singleton.mpr rfl
  have hne : yielded [brokenInput] ≠ [] := by
    rw [Ne, yielded_eq_nil_iff]
    intro hnothing
    exact hnothing _ hopened brokenInput_readsFirst
  obtain ⟨n, hn⟩ := doRunGC_quiet (plainOptions useBitmap) bytewiseHeap true [brokenInput] hbuild hne
  obtain ⟨st, hrun, hok, hread⟩ := hn n le_rfl
  refine ⟨n, st, hrun, hok, fun hsub => ?_⟩
  have hall : [brokenInput].flatMap Input.entries = brokenInput.entries := flatMap_singleton ..
  have hreads := (subperm_yielded_iff [brokenInput]).mp
    (hread.subperm_left.mp (by rwa [hall]))
  cases hreads.1 _ hopened with
  | inl hnil => exact absurd hnil (cons_ne_nil _ _)
  | inr hcomplete => exact brokenInput_not_complete hcomplete

/-- So it is without the bitmap and with it. -/
theorem doRunGC_misses_second_record :
    (∃ fuel st, doRunGC plainEnv bytewiseHeap (plainOptions false) quiet true
      [brokenInput.file] fuel = some st ∧ st.status = none ∧
      ¬ brokenInput.entries.Subperm st.read) ∧
    ∃ fuel st, doRunGC plainEnv bytewiseHeap (plainOptions true) quiet true
      [brokenInput.file] fuel = some st ∧ st.status = none ∧
      ¬ brokenInput.entries.Subperm st.read :=
  ⟨doRunGC_brokenInput false, doRunGC_brokenInput true⟩

end

end TitanGC.Collect.ReadAll
