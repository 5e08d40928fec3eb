import TitanGC.Lib.Runs
import TitanGC.Storage.FileManager
import TitanGC.Table.TitanTableBuilder

/-!
# The handle of the open blob file

A blob file that cannot be finished is deleted, and its handle is moved out while its
builder is kept. Up to the first such file the builder owns exactly the handles it has
got: those of the finished files and that of the open one. From then on every `Finish`
and `Abandon` dereferences the handle that is gone.
-/

namespace TitanGC.Table.Handles

open Lib.ByteCoding Lib.Runs List Format.Coding Format.BlobFormat Format.BlobFile Format.InternalKey
open Storage.Writer Table.Builder
open Storage.FileManager (Release granted granted_succ)
open TitanTableBuilder

inductive Call where
  | add (key value : Bytes)
  | finish
  | abandon

variable (o : TableOptions) (env : TableEnv)

/-- `none` is a builder that has dereferenced a null handle. -/
def exec : Option TitanTableBuilder → Call → Option TitanTableBuilder
  | none, _ => none
  | some t, .add key value => t.add o env key value
  | some t, .finish => t.finish o env
  | some t, .abandon => t.abandon env

def Held : Option TitanTableBuilder → Prop
  | none => False
  | some t => t.blobBuilder.isSome = true → t.blobHandle.isSome = true

/-! ## Which blob file is finished -/

def blobOf (t : TitanTableBuilder) (key value : Bytes) : Option (ParsedInternalKey × Bytes) :=
  if !t.ok then none
  else match parseInternalKey key with
    | .error _ => none
    | .ok ikey =>
      if ikey.type = kTypeBlobIndex ∧ o.blobRunMode = .fallback then none
      else if ikey.type = kTypeValue ∧ o.blobRunMode = .normal then
        if value.length < o.minBlobSize then none else some (ikey, value)
      else if ikey.type = kTypeBlobIndex ∧ o.levelMerge ∧ o.mergeLevel ≤ o.targetLevel ∧
          o.blobRunMode = .normal then
        match BlobIndex.decodeFrom value with
        | .error _ => none
        | .ok (index, _) =>
          if shouldMerge o (env.findFile index.fileNumber) then
            match env.getBlobRecord index with
            | .ok record => some (ikey, record.value)
            | .error _ => none
          else none
      else none

def written (t : TitanTableBuilder) (number : UInt64) (b : BlobFileBuilder) (ikey : ParsedInternalKey)
    (value : Bytes) : TitanTableBuilder :=
  { t with
    blobHandle := some number
    blobBuilder := some (b.add o.builder ⟨ikey.userKey, value⟩
      { key := appendInternalKey ikey, newBlobIndex := { fileNumber := number } }).1 }

def blobAdded (t : TitanTableBuilder) (ikey : ParsedInternalKey) (value : Bytes) :
    Option TitanTableBuilder :=
  match t.blobBuilder, t.blobHandle with
  | some b, some number => some (written o { t with status := none } number b ikey value)
  | some _, none => none
  | none, _ =>
    match env.newFile t.newFiles with
    | .error _ => none
    | .ok number =>
      some (written o { t with newFiles := t.newFiles + 1, status := none } number
        (.new o.builder { outcome := env.outcome number } kVersion2) ikey value)

def fileSize (t : TitanTableBuilder) : Nat :=
  match t.blobBuilder with
  | none => 0
  | some b => b.file.bytes.length

/-- The builder when the call finishes a blob file. -/
def closing (t : TitanTableBuilder) : Call → Option TitanTableBuilder
  | .add key value =>
    match blobOf o env t key value with
    | none => none
    | some (ikey, value) =>
      (blobAdded o env t ikey value).filter fun t => o.blobFileTargetSize ≤ fileSize t
  | .finish => if t.blobBuilder.isSome then some t else none
  | .abandon => none

/-- The blob file is written to its end, and nothing has failed when it is. -/
def finishes (t : TitanTableBuilder) : Bool :=
  match t.blobBuilder with
  | none => true
  | some b =>
    (b.finish o.builder).1.status.isNone &&
      (addBlobResultsToBase { t with blobBuilder := some (b.finish o.builder).1 }
        (b.finish o.builder).2).ok

/-- The call finishes no blob file, or does so successfully, and it is not an `Abandon`
with a blob file open. -/
def Closes : Option TitanTableBuilder → Call → Prop
  | none, _ => False
  | some t, call => (∀ t₁, closing o env t call = some t₁ → finishes o t₁ = true) ∧
      (call = .abandon → t.blobBuilder = none)

/-! ## What the builder owns -/

def finishedNumbers (t : TitanTableBuilder) : List UInt64 := t.finishedBlobs.map (·.number)

/-- The handles that the builder has got are those of the finished files and of the open one. -/
structure Owns (t : TitanTableBuilder) : Prop where
  held : t.blobBuilder.isSome = t.blobHandle.isSome
  obtained : granted env.newFile t.newFiles = finishedNumbers t ++ t.blobHandle.toList

/-- The last handle has been passed to `DeleteFile`; the builder of its file is still there. -/
structure Lost (t : TitanTableBuilder) (number : UInt64) : Prop where
  builder : t.blobBuilder.isSome = true
  handle : t.blobHandle = none
  obtained : granted env.newFile t.newFiles = finishedNumbers t ++ [number]

/-- What a step that makes or finishes no file leaves alone. -/
structure Untouched (t t' : TitanTableBuilder) : Prop where
  builder : t'.blobBuilder.isSome = t.blobBuilder.isSome
  handle : t'.blobHandle = t.blobHandle
  finished : t'.finishedBlobs = t.finishedBlobs
  newFiles : t'.newFiles = t.newFiles

variable {t t' : TitanTableBuilder} {number : UInt64} {s : Option TitanTableBuilder} {call : Call}

variable {env} in
theorem Owns.handle (h : Owns env t) {b : BlobFileBuilder} (hb : t.blobBuilder = some b) :
    ∃ number, t.blobHandle = some number := by
  rw [← Option.isSome_iff_exists, ← h.held, hb]
  rfl

variable {env} in
theorem Owns.none_iff (h : Owns env t) : t.blobBuilder = none ↔ t.blobHandle = none := by
  rw [← Option.isNone_iff_eq_none, ← Option.isNone_iff_eq_none, ← Option.not_isSome, h.held,
    Option.not_isSome]

variable {env} in
theorem Owns.untouched (h : Owns env t) (hsame : Untouched t t') : Owns env t' where
  held := by rw [hsame.builder, hsame.handle, h.held]
  obtained := by rw [hsame.newFiles, hsame.handle, finishedNumbers, hsame.finished]; exact h.obtained

variable {env} in
theorem Lost.untouched (h : Lost env t number) (hsame : Untouched t t') : Lost env t' number where
  builder := by rw [hsame.builder, h.builder]
  handle := by rw [hsame.handle, h.handle]
  obtained := by rw [hsame.newFiles, finishedNumbers, hsame.finished]; exact h.obtained

theorem addBlobResultsToBase_untouched (t : TitanTableBuilder) (ctxs : List BlobRecordContext) :
    Untouched t (t.addBlobResultsToBase ctxs) := by
  induction ctxs generalizing t with
  | nil => exact ⟨rfl, rfl, rfl, rfl⟩
  | cons ctx ctxs ih =>
    rw [addBlobResultsToBase]
    split
    · exact ⟨rfl, rfl, rfl, rfl⟩
    · dsimp only
      split
      · exact { ih (addBaseDirect { t with status := none } ctx.key ctx.value) with }
      · rename_i ikey _ _
        exact { ih (addBaseDirect { t with status := none }
          (appendInternalKey { ikey with type := kTypeBlobIndex }) ctx.newBlobIndex.encodeTo) with }

theorem addBase_untouched (t : TitanTableBuilder) (key : Bytes) (ikey : ParsedInternalKey)
    (value : Bytes) : Untouched t (t.addBase key ikey value) := by
  rw [addBase]
  cases hb : t.blobBuilder with
  | none => exact ⟨rfl, rfl, rfl, rfl⟩
  | some b =>
    dsimp only
    split
    · exact ⟨rfl, rfl, rfl, rfl⟩
    · exact ⟨by rw [hb]; rfl, rfl, rfl, rfl⟩

/-- A blob file that is finished moves to the finished ones; the handle of one that
cannot be is gone. -/
theorem finishBlobFile_spec (h : Owns env t) (hhandle : t.blobHandle = some number) :
    ∃ t', t.finishBlobFile o env = some t' ∧ t'.newFiles = t.newFiles ∧
      (finishes o t = true → Owns env t' ∧ t'.blobBuilder = none) ∧
      (finishes o t = false → Lost env t' number) := by
  have hsome : t.blobBuilder.isSome = true := by rw [h.held, hhandle]; rfl
  obtain ⟨b, hb⟩ := Option.isSome_iff_exists.mp hsome
  have hsame := addBlobResultsToBase_untouched
    { t with blobBuilder := some (b.finish o.builder).1 } (b.finish o.builder).2
  have hobtained := h.obtained
  rw [hhandle] at hobtained
  rw [finishBlobFile, finishes, hb]
  dsimp only
  generalize addBlobResultsToBase
    { t with blobBuilder := some (b.finish o.builder).1 } (b.finish o.builder).2 = t₁ at hsame ⊢
  rw [hsame.handle, hhandle]
  dsimp only
  cases hok : (b.finish o.builder).1.status.isNone && t₁.ok with
  | true =>
    refine ⟨_, if_pos rfl, hsame.newFiles, fun _ => ⟨⟨rfl, ?_⟩, rfl⟩, (by intro h; cases h)⟩
    dsimp only
    rw [hsame.newFiles, finishedNumbers, hsame.finished, map_append, Option.toList_none,
      append_nil]
    exact hobtained
  | false =>
    refine ⟨_, if_neg Bool.false_ne_true, hsame.newFiles, (by intro h; cases h),
      fun _ => ⟨hsame.builder, rfl, ?_⟩⟩
    dsimp only
    rw [hsame.newFiles, finishedNumbers, hsame.finished]
    exact hobtained

/-- What finishing the builder's blob file, if the call does, makes of what it owns. -/
structure Follows (closed : Option TitanTableBuilder) (t' : TitanTableBuilder) : Prop where
  owns : (∀ t₁, closed = some t₁ → finishes o t₁ = true) → Owns env t'
  lost : ∀ t₁, closed = some t₁ → finishes o t₁ = false →
    ∃ number, t₁.blobHandle = some number ∧ Lost env t' number

/-- No blob file is finished. -/
theorem Follows.of_owns (h : Owns env t') : Follows o env none t' :=
  ⟨fun _ => h, fun _ hclosed => by cases hclosed⟩

variable {o env} in
theorem Follows.untouched {closed : Option TitanTableBuilder} (h : Follows o env closed t)
    (hsame : Untouched t t') : Follows o env closed t' where
  owns := fun hcloses => (h.owns hcloses).untouched hsame
  lost := fun t₁ hclosed hfails => by
    obtain ⟨number, hhandle, hlost⟩ := h.lost t₁ hclosed hfails
    exact ⟨number, hhandle, hlost.untouched hsame⟩

theorem writeBlob_eq (t : TitanTableBuilder) (number : UInt64) (b : BlobFileBuilder)
    (ikey : ParsedInternalKey) (value : Bytes) :
    t.writeBlob o env number b ikey value =
      (if o.blobFileTargetSize ≤ fileSize (written o t number b ikey value)
        then (written o t number b ikey value).finishBlobFile o env
        else some (written o t number b ikey value)).map
        (·.addBlobResultsToBase (b.add o.builder ⟨ikey.userKey, value⟩
          { key := appendInternalKey ikey, newBlobIndex := { fileNumber := number } }).2) := rfl

theorem writeBlob_spec {b : BlobFileBuilder}
    (h : Owns env { t with blobHandle := some number, blobBuilder := some b }) (ikey : ParsedInternalKey)
    (value : Bytes) :
    ∃ t', t.writeBlob o env number b ikey value = some t' ∧
      Follows o env ((some (written o t number b ikey value)).filter
        fun t => o.blobFileTargetSize ≤ fileSize t) t' := by
  have howns : Owns env (written o t number b ikey value) := ⟨rfl, h.obtained⟩
  rw [writeBlob_eq, Option.filter_some]
  by_cases hsize : o.blobFileTargetSize ≤ fileSize (written o t number b ikey value)
  · obtain ⟨t₁, hfinish, -, hgood, hbad⟩ := finishBlobFile_spec o env howns rfl
    have hsame := addBlobResultsToBase_untouched t₁ (b.add o.builder ⟨ikey.userKey, value⟩
      { key := appendInternalKey ikey, newBlobIndex := { fileNumber := number } }).2
    rw [if_pos hsize, if_pos (decide_eq_true hsize)]
    refine ⟨_, congrArg _ hfinish, ?_⟩
    refine Follows.untouched ⟨fun hcloses => (hgood (hcloses _ rfl)).1, ?_⟩ hsame
    intro t₂ hclosed hfails
    cases hclosed
    exact ⟨number, rfl, hbad hfails⟩
  · rw [if_neg hsize, if_neg (by rw [decide_eq_true_iff]; exact hsize)]
    exact ⟨_, rfl, (Follows.of_owns o env howns).untouched (addBlobResultsToBase_untouched _ _)⟩

theorem addBlob_spec (h : Owns env t) (hok : t.ok = true) (ikey : ParsedInternalKey) (value : Bytes) :
    ∃ t', addBlob o env { t with status := none } ikey value = some t' ∧
      Follows o env ((blobAdded o env t ikey value).filter fun t => o.blobFileTargetSize ≤ fileSize t)
        t' := by
  have hok' : TitanTableBuilder.ok { t with status := none } = true := by
    rw [TitanTableBuilder.ok, getStatus, Option.isNone_iff_eq_none] at hok ⊢
    rw [Option.or_eq_none_iff, Option.or_eq_none_iff] at hok ⊢
    exact ⟨⟨rfl, hok.1.2⟩, hok.2⟩
  rw [addBlob, hok', blobAdded]
  simp only [Bool.not_true, Bool.false_eq_true, ↓reduceIte]
  cases hb : t.blobBuilder with
  | some b =>
    obtain ⟨number, hnumber⟩ := h.handle hb
    rw [hnumber]
    exact writeBlob_spec o env ⟨rfl, hnumber ▸ h.obtained⟩ ikey value
  | none =>
    have hnone := h.none_iff.mp hb
    have hobtained := h.obtained
    rw [hnone, Option.toList_none, append_nil] at hobtained
    cases hnew : env.newFile t.newFiles with
    | error e =>
      refine ⟨_, rfl, .of_owns o env ⟨?_, ?_⟩⟩
      · dsimp only
        rw [hnone]
        rfl
      · dsimp only
        rw [granted_succ, hnew, hobtained, hnone]
        rfl
    | ok number =>
      refine writeBlob_spec o env ⟨rfl, ?_⟩ ikey value
      dsimp only
      rw [granted_succ, hnew, hobtained]
      rfl

/-- An `Add` that makes no blob file leaves them alone; any other does what `AddBlob` does. -/
theorem add_eq (t : TitanTableBuilder) (key value : Bytes) :
    (blobOf o env t key value = none ∧ ∃ t', t.add o env key value = some t' ∧ Untouched t t') ∨
      ∃ ikey v, blobOf o env t key value = some (ikey, v) ∧ t.ok = true ∧
        (addBlob o env { t with status := none } ikey v = none →
          t.add o env key value = none) ∧
        ∀ t₁, addBlob o env { t with status := none } ikey v = some t₁ →
          ∃ t', t.add o env key value = some t' ∧ Untouched t₁ t' := by
  rw [blobOf, TitanTableBuilder.add]
  cases hok : t.ok with
  | false => exact .inl ⟨rfl, t, rfl, rfl, rfl, rfl, rfl⟩
  | true =>
    simp only [Bool.not_true, Bool.false_eq_true, ↓reduceIte]
    cases hparse : parseInternalKey key with
    | error e => exact .inl ⟨rfl, _, rfl, rfl, rfl, rfl, rfl⟩
    | ok ikey =>
      dsimp only
      have hbase : Untouched t (addBase { t with status := none } key ikey value) :=
        { addBase_untouched { t with status := none } key ikey value with }
      split
      · refine .inl ⟨rfl, _, rfl, ?_⟩
        rw [addFallback]
        split
        · exact ⟨rfl, rfl, rfl, rfl⟩
        · split <;> exact ⟨rfl, rfl, rfl, rfl⟩
      · split
        · split
          · exact .inl ⟨rfl, _, rfl, hbase⟩
          · exact .inr ⟨ikey, value, rfl, trivial, id, fun t₁ h => ⟨t₁, h, rfl, rfl, rfl, rfl⟩⟩
        · split
          · rw [addMerging]
            cases BlobIndex.decodeFrom value with
            | error e => exact .inl ⟨rfl, _, rfl, rfl, rfl, rfl, rfl⟩
            | ok x =>
              dsimp only
              split
              · cases env.getBlobRecord x.1 with
                | error e => exact .inl ⟨rfl, _, rfl, hbase⟩
                | ok record =>
                  refine .inr ⟨ikey, record.value, rfl, trivial, ?_, ?_⟩
                  · intro h
                    simp only [h]
                  · intro t₁ h
                    simp only [h]
                    split
                    · exact ⟨t₁, rfl, rfl, rfl, rfl, rfl⟩
                    · exact ⟨_, rfl, addBase_untouched t₁ key ikey value⟩
              · exact .inl ⟨rfl, _, rfl, hbase⟩
          · exact .inl ⟨rfl, _, rfl, hbase⟩

theorem add_spec (h : Owns env t) (key value : Bytes) :
    ∃ t', t.add o env key value = some t' ∧ Follows o env (closing o env t (.add key value)) t' := by
  rw [closing]
  rcases add_eq o env t key value with ⟨hblob, t', hadd, hsame⟩ | ⟨ikey, v, hblob, hok, -, hadd⟩
  · rw [hblob]
    exact ⟨t', hadd, .of_owns o env (h.untouched hsame)⟩
  · obtain ⟨t₁, hadd₁, hfollows⟩ := addBlob_spec o env h hok ikey v
    obtain ⟨t', hadd', hsame⟩ := hadd t₁ hadd₁
    rw [hblob]
    exact ⟨t', hadd', hfollows.untouched hsame⟩

theorem finish_spec (h : Owns env t) :
    ∃ t', t.finish o env = some t' ∧ Follows o env (closing o env t .finish) t' ∧
      ((∀ t₁, closing o env t .finish = some t₁ → finishes o t₁ = true) → t'.blobHandle = none) := by
  rw [TitanTableBuilder.finish, closing]
  cases hhandle : t.blobHandle with
  | none =>
    have hnone := h.none_iff.mpr hhandle
    have heq : t.finishBlobFile o env = some t := by rw [finishBlobFile, hnone]
    rw [heq, hnone]
    exact ⟨_, rfl, .of_owns o env (h.untouched ⟨rfl, rfl, rfl, rfl⟩), fun _ => hhandle⟩
  | some number =>
    have hsome : t.blobBuilder.isSome = true := by rw [h.held, hhandle]; rfl
    obtain ⟨t₁, hfinish, -, hgood, hbad⟩ := finishBlobFile_spec o env h hhandle
    rw [hfinish, if_pos hsome]
    refine ⟨_, rfl, ?_, fun hcloses => ?_⟩
    · refine Follows.untouched (t := t₁) ⟨fun hcloses => (hgood (hcloses t rfl)).1, ?_⟩
        ⟨rfl, rfl, rfl, rfl⟩
      intro t₂ hclosed hfails
      cases hclosed
      exact ⟨number, hhandle, hbad hfails⟩
    · obtain ⟨howns, hnone⟩ := hgood (hcloses t rfl)
      exact howns.none_iff.mp hnone

def deletes (t : TitanTableBuilder) (call : Call) : List Release :=
  match closing o env t call with
  | some t₁ => if finishes o t₁ then [] else [.delete t₁.blobHandle.toList]
  | none =>
    match call, t.blobBuilder with
    | .abandon, some _ => [.delete t.blobHandle.toList]
    | _, _ => []

/-- A call that does not lose an open file keeps what the builder owns; any other passes
the handle to `DeleteFile`. -/
structure Called (t : TitanTableBuilder) (call : Call) (t' : TitanTableBuilder) : Prop where
  owns : Closes o env (some t) call → Owns env t' ∧ deletes o env t call = [] ∧
    (call = .finish → t'.blobHandle = none)
  lost : ¬ Closes o env (some t) call →
    ∃ number, Lost env t' number ∧ deletes o env t call = [.delete [number]]

theorem exec_spec (h : Owns env t) (call : Call) :
    ∃ t', exec o env (some t) call = some t' ∧ Called o env t call t' := by
  have hfollows : ∀ t', Follows o env (closing o env t call) t' → call ≠ .abandon →
      (call = .finish → (∀ t₁, closing o env t call = some t₁ → finishes o t₁ = true) →
        t'.blobHandle = none) → Called o env t call t' := by
    intro t' hfollows hcall hfinish
    constructor
    · intro hcloses
      refine ⟨hfollows.owns hcloses.1, ?_, fun hcall => hfinish hcall hcloses.1⟩
      unfold deletes
      cases hclosed : closing o env t call with
      | some t₁ => exact if_pos (hcloses.1 t₁ hclosed)
      | none =>
        cases call with
        | abandon => exact absurd rfl hcall
        | add key value => rfl
        | finish => rfl
    · intro hnot
      rw [Closes, not_and_or, Classical.not_forall] at hnot
      rcases hnot with ⟨t₁, hfails⟩ | habandon
      · obtain ⟨hclosed, hfails⟩ := Classical.not_imp.mp hfails
        obtain ⟨number, hhandle, hlost⟩ := hfollows.lost t₁ hclosed (Bool.eq_false_iff.mpr hfails)
        refine ⟨number, hlost, ?_⟩
        unfold deletes
        rw [hclosed]
        dsimp only
        rw [if_neg hfails, hhandle]
        rfl
      · exact absurd (Classical.not_imp.mp habandon).1 hcall
  cases call with
  | add key value =>
    obtain ⟨t', hadd, h'⟩ := add_spec o env h key value
    exact ⟨t', hadd, hfollows t' h' (by intro h; cases h) (by intro h; cases h)⟩
  | finish =>
    obtain ⟨t', hfinish, h', hnone⟩ := finish_spec o env h
    exact ⟨t', hfinish, hfollows t' h' (by intro h; cases h) fun _ => hnone⟩
  | abandon =>
    rw [exec, abandon]
    cases hb : t.blobBuilder with
    | none =>
      refine ⟨t, rfl, fun _ => ⟨h, by unfold deletes; rw [closing, hb], by intro h; cases h⟩,
        fun hnot => absurd ⟨?_, fun _ => hb⟩ hnot⟩
      intro t₁ hclosed
      cases hclosed
    | some b =>
      obtain ⟨number, hnumber⟩ := h.handle hb
      rw [hnumber]
      refine ⟨_, rfl, fun hcloses => ?_, fun _ => ⟨number, ⟨rfl, rfl, ?_⟩, ?_⟩⟩
      · have hnone := hcloses.2 rfl
        rw [hb] at hnone
        cases hnone
      · have hobtained := h.obtained
        rw [hnumber] at hobtained
        exact hobtained
      · unfold deletes
        rw [closing, hb, hnumber]
        rfl

/-! ## After a file is lost -/

/-- A builder that has crashed, or whose handle is gone while the blob builder is there. -/
def Stuck : Option TitanTableBuilder → Prop
  | none => True
  | some t => t.blobBuilder.isSome = true ∧ t.blobHandle = none

theorem add_stuck (h : Stuck s) (key value : Bytes) : Stuck (exec o env s (.add key value)) := by
  cases s with
  | none => trivial
  | some t =>
    rw [exec]
    rcases add_eq o env t key value with ⟨-, t', hadd, hsame⟩ | ⟨ikey, v, -, hok, hcrash, hadd⟩
    · rw [hadd]
      exact ⟨by rw [hsame.builder]; exact h.1, by rw [hsame.handle]; exact h.2⟩
    · cases hblob : addBlob o env { t with status := none } ikey v with
      | none =>
        rw [hcrash hblob]
        trivial
      | some t₁ =>
        -- the builder would have to have its handle, or not be OK
        obtain ⟨t', hadd', hsame⟩ := hadd t₁ hblob
        obtain ⟨b, hb⟩ := Option.isSome_iff_exists.mp h.1
        rw [addBlob] at hblob
        split at hblob
        · cases hblob
          rw [hadd']
          exact ⟨by rw [hsame.builder]; exact h.1, by rw [hsame.handle]; exact h.2⟩
        · simp only [hb, h.2] at hblob
          cases hblob

theorem last_stuck (h : Stuck s) (hcall : call = .finish ∨ call = .abandon) : exec o env s call = none := by
  cases s with
  | none => rfl
  | some t =>
    obtain ⟨b, hb⟩ := Option.isSome_iff_exists.mp h.1
    have hhandle := (addBlobResultsToBase_untouched
      { t with blobBuilder := some (b.finish o.builder).1 } (b.finish o.builder).2).handle
    rcases hcall with rfl | rfl
    · rw [exec, TitanTableBuilder.finish, finishBlobFile, hb]
      dsimp only
      rw [hhandle, h.2]
    · rw [exec, abandon, hb, h.2]

/-! ## Whole runs -/

def start (baseOutcome : Nat → Option Status) : TitanTableBuilder := { base := { outcome := baseOutcome } }

theorem start_owns (baseOutcome : Nat → Option Status) : Owns env (start baseOutcome) := ⟨rfl, rfl⟩

def OwnsSome (s : Option TitanTableBuilder) : Prop := ∃ t, s = some t ∧ Owns env t

theorem exec_ownsSome (h : OwnsSome env s) (hcloses : Closes o env s call) :
    OwnsSome env (exec o env s call) := by
  obtain ⟨t, rfl, howns⟩ := h
  obtain ⟨t', hexec, hcalled⟩ := exec_spec o env howns call
  exact ⟨t', hexec, (hcalled.owns hcloses).1⟩

theorem exec_stuck (h : OwnsSome env s) (hcloses : ¬ Closes o env s call) :
    Stuck (exec o env s call) ∧ ¬ Held (exec o env s call) := by
  obtain ⟨t, rfl, howns⟩ := h
  obtain ⟨t', hexec, hcalled⟩ := exec_spec o env howns call
  obtain ⟨number, hlost, -⟩ := hcalled.lost hcloses
  rw [hexec]
  refine ⟨⟨hlost.builder, hlost.handle⟩, fun hheld => ?_⟩
  have hsome := hheld hlost.builder
  rw [hlost.handle] at hsome
  cases hsome

theorem always_held_iff (h : OwnsSome env s) (calls : List Call) :
    Always (exec o env) Held s calls ↔ Along (exec o env) (Closes o env) s calls := by
  refine always_iff_along (OwnsSome env) (fun s call hs hcloses => exec_ownsSome o env hs hcloses) ?_ ?_ h
  · intro s hs
    obtain ⟨t, rfl, howns⟩ := hs
    intro hsome
    rw [← howns.held]
    exact hsome
  · intro s call hs hheld
    by_contra hcloses
    exact (exec_stuck o env hs hcloses).2 hheld

def adds (entries : List (Bytes × Bytes)) : List Call := entries.map fun e => .add e.1 e.2

/-- The builder survives its last call exactly if it has lost no blob file before. -/
theorem last_ne_none_iff (h : OwnsSome env s) (entries : List (Bytes × Bytes)) {last : Call}
    (hlast : last = .finish ∨ last = .abandon) :
    (adds entries ++ [last]).foldl (exec o env) s ≠ none ↔
      Along (exec o env) (Closes o env) s (adds entries) := by
  rw [foldl_append, foldl_cons, foldl_nil]
  constructor
  · intro hrun
    induction entries generalizing s with
    | nil => trivial
    | cons e rest ih =>
      have hcloses : Closes o env s (.add e.1 e.2) := by
        by_contra hnot
        have hstuck : ∀ (entries : List (Bytes × Bytes)) (s : Option TitanTableBuilder), Stuck s →
            Stuck ((adds entries).foldl (exec o env) s) := by
          intro entries
          induction entries with
          | nil => exact fun _ h => h
          | cons e rest ih => exact fun s h => ih _ (add_stuck o env h e.1 e.2)
        exact hrun (last_stuck o env (hstuck rest _ (exec_stuck o env h hnot).1) hlast)
      exact ⟨hcloses, ih (exec_ownsSome o env h hcloses) hrun⟩
  · intro halong
    obtain ⟨t, ht, howns⟩ := foldl_invariant (OwnsSome env)
      (fun s call hs hcloses => exec_ownsSome o env hs hcloses) h halong
    obtain ⟨t', hexec, -⟩ := exec_spec o env howns last
    rw [ht, hexec]
    exact Option.some_ne_none t'

/-- The blob builder has its handle throughout a run exactly if every blob file the calls
finish is finished without a failure, and none is open at an `Abandon`. A run of `Add`
calls that ends with `Finish` or `Abandon` dereferences no null handle exactly if this
holds for its `Add` calls. -/
theorem handle_held_iff (baseOutcome : Nat → Option Status) :
    (∀ calls, Always (exec o env) Held (some (start baseOutcome)) calls ↔
      Along (exec o env) (Closes o env) (some (start baseOutcome)) calls) ∧
    ∀ entries,
      ((adds entries ++ [Call.finish]).foldl (exec o env) (some (start baseOutcome)) ≠ none ↔
        Along (exec o env) (Closes o env) (some (start baseOutcome)) (adds entries)) ∧
      ((adds entries ++ [Call.abandon]).foldl (exec o env) (some (start baseOutcome)) ≠ none ↔
        Along (exec o env) (Closes o env) (some (start baseOutcome)) (adds entries)) := by
  have hstart : OwnsSome env (some (start baseOutcome)) := ⟨_, rfl, start_owns env baseOutcome⟩
  exact ⟨always_held_iff o env hstart, fun entries =>
    ⟨last_ne_none_iff o env hstart entries (.inl rfl), last_ne_none_iff o env hstart entries (.inr rfl)⟩⟩

def separateOptions : TableOptions where
  blobRunMode := .normal
  levelMerge := false
  minBlobSize := 0
  blobFileTargetSize := 0
  targetLevel := 0
  mergeLevel := 0
  builder :=
    { compression := fun _ => .none
      maxDictBytes := 0
      zstdMaxTrainBytes := 0
      zstdTooOld := false
      trainDictionary := fun _ _ => []
      metaIndexBlock := fun _ => []
      compare := fun _ _ => .eq }

def footerFails : TableEnv where
  newFile := fun k => .ok (UInt64.ofNat k)
  outcome := fun _ i => if i = 3 then some ⟨.ioError, ""⟩ else none
  getBlobRecord := fun _ => .error ⟨.notFound, ""⟩
  findFile := fun _ => none
  deleteFile := fun _ => none
  batchFinishFiles := fun _ => none

/-- The file of the entry cannot be finished, and `Abandon` dereferences its handle. -/
theorem abandon_dereferences_null :
    (adds [(appendInternalKey ⟨[], 1, kTypeValue⟩, [])] ++ [Call.abandon]).foldl
      (exec separateOptions footerFails) (some (start fun _ => none)) = none := by
  rfl

end TitanGC.Table.Handles
