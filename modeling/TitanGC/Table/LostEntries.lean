import TitanGC.Table.TitanTableBuilder

/-!
# Entries that a build loses

A builder whose `status_` is bad drops every further entry, and `Finish` overwrites that
status. What cannot be lost is a failure of the base table, or of a blob file builder
that is kept: these are seen by `status()` at the end.
-/

namespace TitanGC.Table.LostEntries

open Lib.ByteCoding List Format.Coding Format.BlobFormat Format.BlobFile Format.InternalKey
open Storage.Writer Table.Builder TitanTableBuilder BlobFileBuilder

def ident (key : Bytes) : Option (Bytes × Nat) :=
  match parseInternalKey key with
  | .ok k => some (k.userKey, k.sequence)
  | .error _ => none

variable {k : ParsedInternalKey}

theorem ident_append (hk : k.Valid) :
    ident (appendInternalKey k) = some (k.userKey, k.sequence) := by
  rw [ident, parseInternalKey_appendInternalKey hk]

variable {key : Bytes} {t t' : TitanTableBuilder} {owed : List BlobRecordContext}
  {done : List (Option (Bytes × Nat))} {ikey : ParsedInternalKey}

/-- A key keeps its identity under another type. -/
theorem ident_retype (hparse : parseInternalKey key = .ok k) {type : UInt8}
    (htype : isExtendedValueType type = true) :
    ident (appendInternalKey { k with type }) = ident key := by
  obtain ⟨-, hvalid⟩ := appendInternalKey_of_parse hparse
  have hretyped : ParsedInternalKey.Valid { k with type } := ⟨hvalid.sequence, htype⟩
  rw [ident_append hretyped, ident, hparse]

def inBase (t : TitanTableBuilder) : List (Option (Bytes × Nat)) :=
  t.base.entries.map fun e => ident e.1

def waiting (t : TitanTableBuilder) : List BlobRecordContext :=
  match t.blobBuilder with
  | none => []
  | some b => b.cachedContexts

/-- A failure that the status of `Finish` will show. -/
def Dead (t : TitanTableBuilder) : Prop :=
  t.base.status ≠ none ∨ ∃ b, t.blobBuilder = some b ∧ b.status ≠ none

/-- A builder without a failure, that has or will have given these entries to the base
table, once the contexts at hand have gone there too. -/
structure Alive (t : TitanTableBuilder) (owed : List BlobRecordContext)
    (done : List (Option (Bytes × Nat))) : Prop where
  status : t.status = none
  base : t.base.status = none
  builder : ∀ b, t.blobBuilder = some b → b.status = none
  parses : ∀ ctx ∈ waiting t, ∃ k, parseInternalKey ctx.key = .ok k
  unbuffered : ∀ b, t.blobBuilder = some b → b.builderState = .unbuffered → b.cachedContexts = []
  present : done.Subperm (inBase t ++ (waiting t ++ owed).map fun ctx => ident ctx.key)

theorem Alive.ok (h : Alive t owed done) : t.ok = true := by
  rw [TitanTableBuilder.ok, getStatus, h.status, h.base]
  cases hb : t.blobBuilder with
  | none => rfl
  | some b => simp [h.builder b hb]

theorem Dead.not_ok (h : Dead t) : t.ok = false := by
  rw [TitanTableBuilder.ok, getStatus, Option.isNone_eq_false_iff,
    Option.isSome_iff_ne_none]
  cases h with
  | inl hbase =>
    simp only [ne_eq, Option.or_eq_none_iff, not_and]
    intro hstatus
    exact absurd hstatus.2 hbase
  | inr hbuilder =>
    obtain ⟨b, hb, hstatus⟩ := hbuilder
    simp only [hb, Option.bind_some, ne_eq, Option.or_eq_none_iff, not_and]
    exact fun _ => hstatus

/-! ## The base table -/

/-- What goes to the base table is in it, unless that has failed. -/
theorem add_base (b : BaseTable) (key value : Bytes) (hstatus : b.status = none) :
    (b.add key value).entries = b.entries ++ [(key, value)] := by
  rw [BaseTable.add, hstatus]
  rfl

theorem add_base_failed {b : BaseTable} (h : b.status ≠ none) (key value : Bytes) :
    b.add key value = b := by
  rw [BaseTable.add, if_pos (Option.isSome_iff_ne_none.mpr h)]

/-- A context goes to the base table under its identity. -/
theorem addBlobResultsToBase_spec (t : TitanTableBuilder) (ctxs : List BlobRecordContext)
    (hparse : ∀ ctx ∈ ctxs, ∃ k, parseInternalKey ctx.key = .ok k) (hstatus : t.status = none) :
    (t.addBlobResultsToBase ctxs).status = none ∧
    (t.addBlobResultsToBase ctxs).blobBuilder = t.blobBuilder ∧
    (t.addBlobResultsToBase ctxs).blobHandle = t.blobHandle ∧
    (t.addBlobResultsToBase ctxs).finishedBlobs = t.finishedBlobs ∧
    (t.addBlobResultsToBase ctxs).newFiles = t.newFiles ∧
    ((t.addBlobResultsToBase ctxs).base.status = none → t.base.status = none ∧
      inBase (t.addBlobResultsToBase ctxs) = inBase t ++ ctxs.map fun ctx => ident ctx.key) := by
  induction ctxs generalizing t with
  | nil =>
    refine ⟨hstatus, rfl, rfl, rfl, rfl, fun h => ⟨h, ?_⟩⟩
    exact (append_nil _).symm
  | cons ctx ctxs ih =>
    obtain ⟨⟨k, hk⟩, hrest⟩ := forall_mem_cons.mp hparse
    -- either form of the entry has the identity of the context
    have hentry : ∃ key value, ident key = ident ctx.key ∧
        t.addBlobResultsToBase (ctx :: ctxs) =
          (addBaseDirect { t with status := none } key
            value).addBlobResultsToBase ctxs := by
      rw [addBlobResultsToBase, hk]
      cases hvalue : ctx.hasValue with
      | true => exact ⟨ctx.key, ctx.value, rfl, rfl⟩
      | false =>
        exact ⟨appendInternalKey { k with type := kTypeBlobIndex }, ctx.newBlobIndex.encodeTo,
          ident_retype hk (by decide), rfl⟩
    obtain ⟨key, value, hident, heq⟩ := hentry
    obtain ⟨hstatus', hbuilder, hhandle, hfinished, hfiles, hbase⟩ :=
      ih (addBaseDirect { t with status := none } key value) hrest rfl
    rw [heq]
    refine ⟨hstatus', hbuilder, hhandle, hfinished, hfiles, fun h => ?_⟩
    obtain ⟨hadded, hentries⟩ := hbase h
    have hbefore : t.base.status = none := by
      by_contra hfailed
      rw [addBaseDirect, add_base_failed hfailed] at hadded
      exact hfailed hadded
    refine ⟨hbefore, ?_⟩
    rw [hentries, inBase, addBaseDirect]
    dsimp only
    rw [add_base _ _ _ hbefore, map_append, map_cons, map_nil, hident,
      append_assoc]
    rfl

/-! ## The blob file builder -/

variable {b : BlobFileBuilder}

theorem not_ok (h : b.status ≠ none) : b.ok = false :=
  Option.isNone_eq_false_iff.mpr (Option.isSome_iff_ne_none.mpr h)

variable (o : TableOptions) (env : TableEnv)

/-- `Finish` hands out all that waits, unless the builder has failed. -/
theorem finish_keys (hstatus : b.status = none)
    (hunbuffered : b.builderState = .unbuffered → b.cachedContexts = []) :
    (b.finish o.builder).2.map BlobRecordContext.key = b.cachedContexts.map BlobRecordContext.key := by
  have hok : b.ok = true := Option.isNone_iff_eq_none.mpr hstatus
  rw [BlobFileBuilder.finish, if_pos hok]
  cases hstate : b.builderState with
  | unbuffered =>
    rw [hunbuffered hstate]
    dsimp only
    split <;> rfl
  | buffered =>
    have hkeys := flushContexts_keys o.builder { b with
      compressionDict := o.builder.trainDictionary b.sampleRecords o.builder.maxDictBytes }
      b.sampleRecords b.cachedContexts
    dsimp only
    split <;> exact hkeys

variable {xs ys : List BlobRecordContext}

theorem map_ident (h : xs.map BlobRecordContext.key = ys.map BlobRecordContext.key) :
    xs.map (fun ctx => ident ctx.key) = ys.map fun ctx => ident ctx.key := by
  have hcomp := congrArg (List.map ident) h
  rwa [map_map, map_map] at hcomp

theorem parses_of_keys (h : xs.map BlobRecordContext.key = ys.map BlobRecordContext.key)
    (hparse : ∀ ctx ∈ ys, ∃ k, parseInternalKey ctx.key = .ok k) :
    ∀ ctx ∈ xs, ∃ k, parseInternalKey ctx.key = .ok k := by
  intro ctx hctx
  have hmem : ctx.key ∈ ys.map BlobRecordContext.key := h ▸ mem_map_of_mem hctx
  obtain ⟨ctx', hctx', heq⟩ := mem_map.mp hmem
  rw [← heq]
  exact hparse ctx' hctx'

/-- Finishing a blob file gives all that waits to the base table, or ends in a failure
that stays. -/
theorem finishBlobFile_spec (h : Alive t owed done) (hfinish : t.finishBlobFile o env = some t') :
    Dead t' ∨ (Alive t' owed done ∧ t'.blobBuilder = none) := by
  unfold finishBlobFile at hfinish
  cases hb : t.blobBuilder with
  | none =>
    rw [hb] at hfinish
    cases hfinish
    exact .inr ⟨h, hb⟩
  | some b =>
    rw [hb] at hfinish
    dsimp only at hfinish
    have hwaiting : waiting t = b.cachedContexts := by rw [waiting, hb]
    have hkeys := finish_keys o (h.builder b hb) (h.unbuffered b hb)
    have hparse := parses_of_keys hkeys (hwaiting ▸ h.parses)
    have hspec := addBlobResultsToBase_spec
      { t with blobBuilder := some (b.finish o.builder).1 } (b.finish o.builder).2 hparse h.status
    generalize addBlobResultsToBase
      { t with blobBuilder := some (b.finish o.builder).1 } (b.finish o.builder).2 = t₁
      at hfinish hspec
    obtain ⟨hstatus, hbuilder, -, -, -, hbase⟩ := hspec
    have hget : t₁.getStatus = t₁.base.status.or (b.finish o.builder).1.status := by
      rw [getStatus, hstatus, hbuilder]
      rfl
    split at hfinish
    · cases hfinish
    · split at hfinish
      · rename_i number _ hok
        rw [Bool.and_eq_true, TitanTableBuilder.ok, hget, Option.isNone_iff_eq_none,
          Option.isNone_iff_eq_none, Option.or_eq_none_iff] at hok
        cases hfinish
        obtain ⟨-, hentries⟩ := hbase hok.2.1
        refine .inr ⟨⟨hstatus, hok.2.1, nofun, ?_, nofun, ?_⟩, rfl⟩
        · intro ctx hctx
          exact absurd hctx not_mem_nil
        · have hpresent := h.present
          rw [hwaiting, map_append, ← map_ident hkeys, ← append_assoc] at hpresent
          show done.Subperm (inBase t₁ ++ List.map _ ([] ++ owed))
          rw [nil_append, hentries]
          exact hpresent
      · rename_i number _ hnot
        cases hfinish
        left
        rw [Bool.and_eq_true, TitanTableBuilder.ok, hget, Option.isNone_iff_eq_none,
          Option.isNone_iff_eq_none, Option.or_eq_none_iff] at hnot
        by_cases hbs : (b.finish o.builder).1.status = none
        · -- only the base table can have failed
          exact .inl fun hbase' => hnot ⟨hbs, hbase', hbs⟩
        · exact .inr ⟨_, hbuilder, hbs⟩

/-! ## One entry -/

theorem addBaseDirect_dead (h : Dead t) (key value : Bytes) : Dead (t.addBaseDirect key value) := by
  refine h.imp_left fun hbase => ?_
  rw [addBaseDirect, add_base_failed hbase]
  exact hbase

theorem addBase_dead (h : Dead t) (key : Bytes) (ikey : ParsedInternalKey) (value : Bytes) :
    Dead (t.addBase key ikey value) := by
  unfold addBase
  have hdirect := addBaseDirect_dead h key value
  cases hb : t.blobBuilder with
  | none => exact hdirect
  | some b =>
    dsimp only
    split
    · exact hdirect
    · cases h with
      | inl hbase => exact .inl hbase
      | inr hbuilder =>
        obtain ⟨b', hb', hstatus⟩ := hbuilder
        rw [hb] at hb'
        cases hb'
        exact .inr ⟨_, rfl, hstatus⟩

/-- An entry that goes straight to the base table. -/
theorem addBaseDirect_spec (h : Alive t [] done) (key value : Bytes) :
    Dead (t.addBaseDirect key value) ∨
      Alive (t.addBaseDirect key value) [] (done ++ [ident key]) := by
  by_cases hbase : (t.base.add key value).status = none
  · right
    refine ⟨h.status, hbase, h.builder, h.parses, h.unbuffered, ?_⟩
    have hentries : inBase (t.addBaseDirect key value) = inBase t ++ [ident key] := by
      rw [inBase, addBaseDirect]
      dsimp only
      rw [add_base _ _ _ h.base, map_append]
      rfl
    have hsame : waiting (t.addBaseDirect key value) = waiting t := rfl
    rw [hentries, hsame, append_assoc]
    refine (List.Perm.append_left _ perm_append_comm).subperm_left.mpr ?_
    rw [← append_assoc]
    exact h.present.append (List.Subperm.refl _)
  · exact .inl (.inl hbase)

theorem addBase_spec (h : Alive t [] done) (hparse : parseInternalKey key = .ok ikey) (value : Bytes) :
    Dead (t.addBase key ikey value) ∨ Alive (t.addBase key ikey value) [] (done ++ [ident key]) := by
  unfold addBase
  cases hb : t.blobBuilder with
  | none => exact addBaseDirect_spec h key value
  | some b =>
    dsimp only
    split
    · exact addBaseDirect_spec h key value
    · rename_i hstate
      have hkey := (appendInternalKey_of_parse hparse).1
      have hwaiting : waiting t = b.cachedContexts := by rw [waiting, hb]
      right
      refine ⟨h.status, h.base, ?_, ?_, ?_, ?_⟩
      · intro b' hb'
        cases hb'
        exact h.builder b hb
      · intro ctx hctx
        cases mem_append.mp hctx with
        | inl hold => exact h.parses ctx (hwaiting ▸ hold)
        | inr hnew =>
          rw [mem_singleton.mp hnew, newCachedRecordContext]
          exact ⟨ikey, hkey ▸ hparse⟩
      · intro b' hb' hunbuffered
        cases hb'
        exact absurd hunbuffered hstate
      · have hpresent := h.present
        rw [hwaiting, append_nil] at hpresent
        show (done ++ [ident key]).Subperm (inBase t ++ (b.cachedContexts ++ [_] ++ []).map _)
        rw [append_nil, map_append, map_singleton, newCachedRecordContext, hkey,
          ← append_assoc]
        exact hpresent.append (List.Subperm.refl _)

theorem addBlobResultsToBase_dead (h : Dead t) (ctxs : List BlobRecordContext) :
    Dead (t.addBlobResultsToBase ctxs) := by
  induction ctxs generalizing t with
  | nil => exact h
  | cons ctx ctxs ih =>
    rw [addBlobResultsToBase]
    cases parseInternalKey ctx.key with
    | error e => exact h
    | ok k =>
      have hdirect := addBaseDirect_dead (t := { t with status := none }) h
      dsimp only
      split <;> exact ih (hdirect _ _)

/-- The contexts at hand go to the base table. -/
theorem addBlobResultsToBase_alive (h : Alive t owed done)
    (hparse : ∀ ctx ∈ owed, ∃ k, parseInternalKey ctx.key = .ok k) :
    Dead (t.addBlobResultsToBase owed) ∨ Alive (t.addBlobResultsToBase owed) [] done := by
  obtain ⟨hstatus, hbuilder, -, -, -, hbase⟩ := addBlobResultsToBase_spec t owed hparse h.status
  by_cases hok : (t.addBlobResultsToBase owed).base.status = none
  · right
    obtain ⟨-, hentries⟩ := hbase hok
    have hwaiting : waiting (t.addBlobResultsToBase owed) = waiting t := by
      rw [waiting, waiting, hbuilder]
    refine ⟨hstatus, hok, by rw [hbuilder]; exact h.builder, by rw [hwaiting]; exact h.parses,
      by rw [hbuilder]; exact h.unbuffered, ?_⟩
    rw [hentries, hwaiting, append_nil, append_assoc]
    have hpresent := h.present
    rw [map_append] at hpresent
    exact (List.Perm.append_left _ perm_append_comm).subperm_left.mp hpresent
  · exact .inl (.inl hok)

/-- A builder that has failed is kept when its file is finished. -/
theorem finishBlobFile_dead (h : Dead t) (hfinish : t.finishBlobFile o env = some t') : Dead t' := by
  unfold finishBlobFile at hfinish
  cases hb : t.blobBuilder with
  | none =>
    rw [hb] at hfinish
    cases hfinish
    exact h
  | some b =>
    rw [hb] at hfinish
    dsimp only at hfinish
    have hdead : Dead { t with blobBuilder := some (b.finish o.builder).1 } := by
      cases h with
      | inl hbase => exact .inl hbase
      | inr hbuilder =>
        obtain ⟨b', hb', hstatus⟩ := hbuilder
        rw [hb] at hb'
        cases hb'
        refine .inr ⟨_, rfl, ?_⟩
        rw [BlobFileBuilder.finish, not_ok hstatus]
        exact hstatus
    have hadded := addBlobResultsToBase_dead hdead (b.finish o.builder).2
    split at hfinish
    · cases hfinish
    · split at hfinish
      · rename_i hok
        rw [Bool.and_eq_true, hadded.not_ok] at hok
        exact absurd hok.2 Bool.false_ne_true
      · cases hfinish
        exact hadded

/-- The contexts at hand go to the base table, unless there is a failure already. -/
theorem addBlobResultsToBase_keeps (hparse : ∀ ctx ∈ owed, ∃ k, parseInternalKey ctx.key = .ok k)
    (h : Dead t ∨ Alive t owed done) :
    Dead (t.addBlobResultsToBase owed) ∨ Alive (t.addBlobResultsToBase owed) [] done :=
  h.elim (fun hdead => .inl (addBlobResultsToBase_dead hdead owed))
    fun halive => addBlobResultsToBase_alive halive hparse

theorem finishBlobFile_keeps (h : Dead t ∨ Alive t owed done) (hfinish : t.finishBlobFile o env = some t') :
    Dead t' ∨ (Alive t' owed done ∧ t'.blobBuilder = none) :=
  h.elim (fun hdead => .inl (finishBlobFile_dead o env hdead hfinish))
    fun halive => finishBlobFile_spec o env halive hfinish

/-- The builder takes a record, and hands out contexts. -/
theorem add_builder {b b' : BlobFileBuilder} {ctx : BlobRecordContext} {value : Bytes} (h : Alive t [] done)
    (hb : t.blobBuilder = some b) (hvalid : ikey.Valid) (hkey : ctx.key = appendInternalKey ikey)
    (hadd : b.add o.builder ⟨ikey.userKey, value⟩ ctx = (b', owed)) :
    (∀ c ∈ owed, ∃ k, parseInternalKey c.key = .ok k) ∧
      (Dead { t with blobBuilder := some b' } ∨
        Alive { t with blobBuilder := some b' } owed (done ++ [some (ikey.userKey, ikey.sequence)])) := by
  have hwaiting : waiting t = b.cachedContexts := by rw [waiting, hb]
  have hperm := add_keys_perm o.builder (Option.isNone_iff_eq_none.mpr (h.builder b hb))
    ⟨ikey.userKey, value⟩ ctx
  have hunbuffered := add_unbuffered o.builder (h.unbuffered b hb) ⟨ikey.userKey, value⟩ ctx
  rw [hadd] at hperm hunbuffered
  have hparse : ∀ c ∈ owed ++ b'.cachedContexts, ∃ k, parseInternalKey c.key = .ok k := by
    intro c hc
    obtain ⟨c', hc', heq⟩ := mem_map.mp (hperm.mem_iff.mp (mem_map_of_mem hc))
    rw [← heq]
    cases mem_append.mp hc' with
    | inl hold => exact h.parses c' (hwaiting ▸ hold)
    | inr hnew =>
      rw [mem_singleton.mp hnew, hkey]
      exact ⟨ikey, parseInternalKey_appendInternalKey hvalid⟩
  obtain ⟨hout, hcached⟩ := forall_mem_append.mp hparse
  by_cases hstatus : b'.status = none
  swap
  · exact ⟨hout, .inl (.inr ⟨b', rfl, hstatus⟩)⟩
  refine ⟨hout, .inr ⟨h.status, h.base, ?_, hcached, ?_, ?_⟩⟩
  · intro c hc
    cases hc
    exact hstatus
  · intro c hc
    cases hc
    exact hunbuffered
  · have hidents := ((perm_append_comm.map _).trans hperm).map ident
    rw [map_map, map_map] at hidents
    have hpresent := h.present
    rw [hwaiting, append_nil] at hpresent
    refine (List.Perm.append_left _ hidents).subperm_left.mpr ?_
    rw [map_append, map_singleton, Function.comp_apply, hkey, ident_append hvalid,
      ← append_assoc]
    exact hpresent.append (List.Subperm.refl _)

/-- A record goes to the blob file. -/
theorem writeBlob_spec {number : UInt64}
    (h : b.status = none → Alive { t with blobHandle := some number, blobBuilder := some b } [] done)
    (hvalid : ikey.Valid) (value : Bytes) (hwrite : t.writeBlob o env number b ikey value = some t') :
    Dead t' ∨ Alive t' [] (done ++ [some (ikey.userKey, ikey.sequence)]) := by
  unfold writeBlob at hwrite
  dsimp only at hwrite
  generalize hctx : ({ key := appendInternalKey ikey, newBlobIndex := { fileNumber := number } } :
    BlobRecordContext) = ctx at hwrite
  have hkey : ctx.key = appendInternalKey ikey := by rw [← hctx]
  rcases hadd : b.add o.builder ⟨ikey.userKey, value⟩ ctx with ⟨b', owed⟩
  rw [hadd] at hwrite
  have hwritten : (∀ c ∈ owed, ∃ k, parseInternalKey c.key = .ok k) ∧
      (Dead { t with blobHandle := some number, blobBuilder := some b' } ∨
        Alive { t with blobHandle := some number, blobBuilder := some b' } owed
          (done ++ [some (ikey.userKey, ikey.sequence)])) := by
    by_cases hfailed : b.status = none
    · exact add_builder o (h hfailed) rfl hvalid hkey hadd
    · -- a builder that has failed takes nothing
      rw [add_failed _ (not_ok hfailed)] at hadd
      cases hadd
      exact ⟨forall_mem_nil _, .inl (.inr ⟨b, rfl, hfailed⟩)⟩
  split at hwrite
  · cases hfinish : finishBlobFile o env
        { t with blobHandle := some number, blobBuilder := some b' } with
    | none => rw [hfinish] at hwrite; cases hwrite
    | some t₁ =>
      rw [hfinish] at hwrite
      cases hwrite
      exact addBlobResultsToBase_keeps hwritten.1
        ((finishBlobFile_keeps o env hwritten.2 hfinish).imp_right And.left)
  · cases hwrite
    exact addBlobResultsToBase_keeps hwritten.1 hwritten.2

/-! ## The condition on a step -/

/-- The step decodes the value as a blob index. -/
def ReadsIndex (ikey : ParsedInternalKey) : Prop :=
  ikey.type = kTypeBlobIndex ∧ (o.blobRunMode = .fallback ∨
    (o.levelMerge = true ∧ o.mergeLevel ≤ o.targetLevel ∧ o.blobRunMode = .normal))

/-- The step writes a record to a blob file. -/
def WritesBlob (ikey : ParsedInternalKey) (value : Bytes) : Prop :=
  (ikey.type = kTypeValue ∧ o.blobRunMode = .normal ∧ o.minBlobSize ≤ value.length) ∨
  (ikey.type = kTypeBlobIndex ∧ o.levelMerge = true ∧ o.mergeLevel ≤ o.targetLevel ∧
    o.blobRunMode = .normal ∧ ∃ index rest record, BlobIndex.decodeFrom value = .ok (index, rest) ∧
      shouldMerge o (env.findFile index.fileNumber) = true ∧
      env.getBlobRecord index = .ok record)

/-- The key parses, a blob index that is looked at decodes, and `NewFile` does not fail
when the step needs a new blob file. -/
structure StepSucceeds (t : TitanTableBuilder) (key value : Bytes) : Prop where
  parses : ∃ k, parseInternalKey key = .ok k
  decodes : ∀ k, parseInternalKey key = .ok k → ReadsIndex o k →
    ∃ x, BlobIndex.decodeFrom value = .ok x
  newFile : ∀ k, parseInternalKey key = .ok k → WritesBlob o env k value → t.blobBuilder = none →
    ∃ number, env.newFile t.newFiles = .ok number

theorem addBlob_spec (h : Alive t [] done)
    (hnew : t.blobBuilder = none → ∃ n, env.newFile t.newFiles = .ok n) (hvalid : ikey.Valid)
    (value : Bytes) (hadd : t.addBlob o env ikey value = some t') :
    Dead t' ∨ Alive t' [] (done ++ [some (ikey.userKey, ikey.sequence)]) := by
  unfold addBlob at hadd
  rw [h.ok] at hadd
  simp only [Bool.not_true, Bool.false_eq_true, ↓reduceIte] at hadd
  cases hb : t.blobBuilder with
  | some b =>
    rw [hb] at hadd
    cases hhandle : t.blobHandle with
    | none => rw [hhandle] at hadd; cases hadd
    | some number =>
      rw [hhandle] at hadd
      refine writeBlob_spec o env (fun _ => ?_) hvalid value hadd
      rw [← hb, ← hhandle]
      exact h
  | none =>
    obtain ⟨number, hnumber⟩ := hnew hb
    rw [hb] at hadd
    simp only [hnumber] at hadd
    refine writeBlob_spec o env (fun hstatus => ?_) hvalid value hadd
    have hcached := BlobFileBuilder.new_cachedContexts o.builder { outcome := env.outcome number } kVersion2
    have hpresent := h.present
    have hwaiting : waiting t = [] := by rw [waiting, hb]
    rw [hwaiting] at hpresent
    refine ⟨rfl, h.base, fun b hb' => by cases hb'; exact hstatus, ?_,
      fun b hb' _ => by cases hb'; exact hcached, ?_⟩
    · intro ctx hctx
      change ctx ∈ (BlobFileBuilder.new o.builder { outcome := env.outcome number }
        kVersion2).cachedContexts at hctx
      rw [hcached] at hctx
      exact absurd hctx not_mem_nil
    · show done.Subperm (inBase t ++ List.map _ ((BlobFileBuilder.new o.builder
        { outcome := env.outcome number } kVersion2).cachedContexts ++ []))
      rw [hcached]
      exact hpresent

/-- An entry added under the condition is kept, or the failure stays. -/
theorem add_spec (h : Alive t [] done) {value : Bytes} (hstep : StepSucceeds o env t key value)
    (hadd : t.add o env key value = some t') : Dead t' ∨ Alive t' [] (done ++ [ident key]) := by
  obtain ⟨k, hk⟩ := hstep.parses
  obtain ⟨hkey, hvalid⟩ := appendInternalKey_of_parse hk
  have hident : ident key = some (k.userKey, k.sequence) := by rw [ident, hk]
  have halive : Alive { t with status := none } [] done :=
    ⟨rfl, h.base, h.builder, h.parses, h.unbuffered, h.present⟩
  unfold TitanTableBuilder.add at hadd
  rw [h.ok, hk] at hadd
  simp only [Bool.not_true, Bool.false_eq_true, ↓reduceIte] at hadd
  split at hadd
  · rename_i hmode
    obtain ⟨⟨index, rest⟩, hx⟩ := hstep.decodes k hk ⟨hmode.1, .inl hmode.2⟩
    unfold addFallback at hadd
    simp only [hx] at hadd
    split at hadd
    · cases hadd
      rw [← ident_retype hk (show isExtendedValueType kTypeValue = true by decide)]
      exact addBaseDirect_spec halive _ _
    · cases hadd
      exact addBaseDirect_spec halive key value
  · split at hadd
    · rename_i hmode
      split at hadd
      · cases hadd
        exact addBase_spec halive hk value
      · rename_i hsize
        rw [hident]
        exact addBlob_spec o env halive
          (hstep.newFile k hk (.inl ⟨hmode.1, hmode.2, Nat.le_of_not_lt hsize⟩)) hvalid value hadd
    · split at hadd
      · rename_i hmode
        obtain ⟨htype, hmerge, hlevel, hnormal⟩ := hmode
        obtain ⟨⟨index, rest⟩, hx⟩ := hstep.decodes k hk ⟨htype, .inr ⟨hmerge, hlevel, hnormal⟩⟩
        unfold addMerging at hadd
        simp only [hx] at hadd
        split at hadd
        · rename_i hshould
          split at hadd
          · rename_i record hrecord
            cases hblob : addBlob o env { t with status := none } k
                record.value with
            | none => rw [hblob] at hadd; cases hadd
            | some t₁ =>
              rw [hblob] at hadd
              dsimp only at hadd
              have hcases := addBlob_spec o env halive (hstep.newFile k hk (.inr ⟨htype, hmerge,
                hlevel, hnormal, index, rest, record, hx, hshould, hrecord⟩)) hvalid _ hblob
              rw [← hident] at hcases
              cases hcases with
              | inl hdead =>
                rw [hdead.not_ok] at hadd
                cases hadd
                exact .inl (addBase_dead hdead key k value)
              | inr hdone =>
                rw [hdone.ok] at hadd
                cases hadd
                exact .inr hdone
          · cases hadd
            exact addBase_spec halive hk value
        · cases hadd
          exact addBase_spec halive hk value
      · cases hadd
        exact addBase_spec halive hk value

/-! ## Whole builds -/

/-- Every step of the run that the builder takes succeeds in this sense. A builder that
is not OK looks at nothing. -/
def RunSucceeds : TitanTableBuilder → List (Bytes × Bytes) → Prop
  | _, [] => True
  | t, (key, value) :: rest =>
    (t.ok = true → StepSucceeds o env t key value) ∧
      ∀ t', t.add o env key value = some t' → RunSucceeds t' rest

theorem add_dead (h : Dead t) {value : Bytes} (hadd : t.add o env key value = some t') : Dead t' := by
  rw [TitanTableBuilder.add, h.not_ok] at hadd
  cases hadd
  exact h

theorem addAll_dead (h : Dead t) {entries : List (Bytes × Bytes)} (hadd : t.addAll o env entries = some t') :
    Dead t' := by
  induction entries generalizing t with
  | nil => cases hadd; exact h
  | cons e rest ih =>
    obtain ⟨key, value⟩ := e
    rw [TitanTableBuilder.addAll] at hadd
    cases hstep : t.add o env key value with
    | none => rw [hstep] at hadd; cases hadd
    | some t₁ =>
      rw [hstep] at hadd
      exact ih (add_dead o env h hstep) hadd

theorem addAll_spec (h : Alive t [] done) {entries : List (Bytes × Bytes)}
    (hrun : RunSucceeds o env t entries) (hadd : t.addAll o env entries = some t') :
    Dead t' ∨ Alive t' [] (done ++ entries.map fun e => ident e.1) := by
  induction entries generalizing t done with
  | nil =>
    cases hadd
    rw [map_nil, append_nil]
    exact .inr h
  | cons e rest ih =>
    obtain ⟨key, value⟩ := e
    obtain ⟨hstep, hrest⟩ := hrun
    rw [TitanTableBuilder.addAll] at hadd
    cases hadd₁ : t.add o env key value with
    | none => rw [hadd₁] at hadd; cases hadd
    | some t₁ =>
      rw [hadd₁] at hadd
      cases add_spec o env h (hstep h.ok) hadd₁ with
      | inl hdead => exact .inl (addAll_dead o env hdead hadd)
      | inr hdone =>
        have hall := ih hdone (hrest t₁ hadd₁) hadd
        rw [map_cons, ← singleton_append, ← append_assoc]
        exact hall

/-- In every build of whose steps none fails to parse its key, to decode a blob index it
looks at or to make a blob file it needs: if `Finish` returns OK, every entry is in the
base table, whatever appends, file finishes, deletions and base table writes fail. -/
theorem build_ok_keeps_entries {baseOutcome : Nat → Option Status} {entries : List (Bytes × Bytes)}
    (hrun : RunSucceeds o env { base := { outcome := baseOutcome } } entries)
    {t : TitanTableBuilder}
    (hbuild : TitanTableBuilder.build o env baseOutcome entries = some t)
    (hok : t.getStatus = none) :
    (entries.map fun e => ident e.1).Subperm (t.base.entries.map fun e => ident e.1) := by
  have hstart : Alive { base := { outcome := baseOutcome } } [] [] :=
    ⟨rfl, rfl, nofun, forall_mem_nil _, nofun, nil_subperm⟩
  rw [TitanTableBuilder.build] at hbuild
  cases hadd : TitanTableBuilder.addAll o env { base := { outcome := baseOutcome } } entries with
  | none => rw [hadd] at hbuild; cases hbuild
  | some t₁ =>
    rw [hadd] at hbuild
    dsimp only at hbuild
    rw [TitanTableBuilder.finish] at hbuild
    cases hfinish : t₁.finishBlobFile o env with
    | none => rw [hfinish] at hbuild; cases hbuild
    | some t₂ =>
      rw [hfinish] at hbuild
      cases hbuild
      have hspec := finishBlobFile_keeps o env (addAll_spec o env hstart hrun hadd) hfinish
      rw [getStatus, Option.or_eq_none_iff, Option.or_eq_none_iff] at hok
      cases hspec with
      | inl hdead =>
        -- the failure is still there
        cases hdead with
        | inl hbase =>
          refine absurd hok.1.2 ?_
          rw [BaseTable.finish, if_pos (Option.isSome_iff_ne_none.mpr hbase)]
          exact hbase
        | inr hbuilder =>
          obtain ⟨b, hb, hstatus⟩ := hbuilder
          have hbad := hok.2
          rw [hb] at hbad
          exact absurd hbad hstatus
      | inr hdone =>
        obtain ⟨halive, hnone⟩ := hdone
        have hpresent := halive.present
        rw [waiting, hnone, nil_append, nil_append, map_nil, append_nil] at hpresent
        have hentries : t₂.base.finish.entries = t₂.base.entries := by
          rw [BaseTable.finish]
          split <;> rfl
        rw [hentries]
        exact hpresent

def noNewFile : TableEnv where
  newFile _ := .error ⟨.ioError, "new file"⟩
  outcome _ _ := none
  getBlobRecord _ := .error ⟨.notFound, ""⟩
  findFile _ := none
  deleteFile _ := none
  batchFinishFiles _ := none

/-- Values of four bytes and more go to blob files. -/
def flushOptions : TableOptions where
  blobRunMode := .normal
  levelMerge := false
  minBlobSize := 4
  blobFileTargetSize := 2 ^ 28
  targetLevel := 0
  mergeLevel := 5
  builder :=
    { compression := fun _ => .none
      maxDictBytes := 0
      zstdMaxTrainBytes := 0
      zstdTooOld := false
      trainDictionary := fun _ _ => []
      metaIndexBlock := fun _ => []
      compare := fun _ _ => .lt }

def firstKey : Bytes := appendInternalKey ⟨[1], 1, kTypeValue⟩

def secondKey : Bytes := appendInternalKey ⟨[2], 2, kTypeValue⟩

/-- Blob file 9 can be made. -/
def newFileNine : TableEnv := { noNewFile with newFile := fun _ => .ok 9 }

/-- Two large values: both go to the blob file, and their indexes to the base table. -/
theorem build_ok_keeps_large_values :
    ∃ t, TitanTableBuilder.build flushOptions newFileNine (fun _ => none)
        [(firstKey, [7, 7, 7, 7]), (secondKey, [8, 8, 8, 8])] = some t ∧
      t.getStatus = none ∧ t.finishedBlobs.map (·.number) = [9] ∧
      [some ([1], 1), some ([2], 2)].Subperm (t.base.entries.map fun e => ident e.1) := by
  have hstep : ∀ t {key}, (∃ k, parseInternalKey key = .ok k) → ∀ value,
      StepSucceeds flushOptions newFileNine t key value := fun t key hparse value =>
    ⟨hparse, fun k _ hreads => absurd hreads.2 (by decide), fun _ _ _ _ => ⟨9, rfl⟩⟩
  have hrun : RunSucceeds flushOptions newFileNine { base := { outcome := fun _ => none } }
      [(firstKey, [7, 7, 7, 7]), (secondKey, [8, 8, 8, 8])] :=
    ⟨fun _ => hstep _ ⟨⟨[1], 1, kTypeValue⟩, by decide⟩ _, fun _ _ =>
      ⟨fun _ => hstep _ ⟨⟨[2], 2, kTypeValue⟩, by decide⟩ _, fun _ _ => trivial⟩⟩
  exact ⟨_, rfl, rfl, rfl, build_ok_keeps_entries flushOptions newFileNine hrun rfl rfl⟩

/-- A large value, for which a blob file cannot be made, is dropped, and `Finish`
returns OK. -/
theorem build_ok_loses_large_value :
    ∃ t, TitanTableBuilder.build flushOptions noNewFile (fun _ => none)
        [(firstKey, [7, 7, 7, 7])] = some t ∧
      t.getStatus = none ∧ t.base.entries = [] ∧
      ¬ ([(firstKey, [7, 7, 7, 7])].map fun e => ident e.1).Subperm
        (t.base.entries.map fun e => ident e.1) := by
  refine ⟨_, rfl, rfl, rfl, fun hsub => ?_⟩
  exact absurd hsub.length_le (by decide)

end TitanGC.Table.LostEntries
