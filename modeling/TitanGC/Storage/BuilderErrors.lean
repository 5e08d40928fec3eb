import TitanGC.Lib.Runs
import TitanGC.Storage.Writer

/-!
# Errors of the blob file builder

A record, a block and the footer are each written with two appends, the second only if
the first succeeds. The status is that of the last such write. A call that makes one
write keeps its failure; the replay of the samples and `Finish` make several, and there
a failure is forgotten when the last write succeeds. The constructor forgets that a
dictionary does not go with version 1 when it writes the header.
-/

namespace TitanGC.Storage.BuilderErrors

open Lib.ByteCoding Lib.Runs List Format.Coding Format.BlobFile Writer BlobFileBuilder

/-! ## Calls -/

/-- A context comes with its record, or with its value. -/
inductive Call where
  | add (record : BlobRecord) (ctx : BlobRecordContext) (h : ctx.hasValue = false)
  | addSmall (ctx : BlobRecordContext) (h : ctx.hasValue = true)
  | finish

variable (o : BuilderOptions)

def exec (b : BlobFileBuilder) : Call → BlobFileBuilder
  | .add record ctx _ => (b.add o record ctx).1
  | .addSmall ctx _ => b.addSmall ctx
  | .finish => (b.finish o).1

def Unsupported (version : UInt32) : Prop :=
  validateVersion version ≠ none ∨
    0 < o.maxDictBytes ∧ (version ≠ kVersion2 ∨ o.zstdTooOld = true)

/-- The configuration is not supported, or an append or flush has failed. -/
def Detected (b : BlobFileBuilder) : Prop :=
  Unsupported o b.version ∨ ∃ i < b.file.calls, b.file.outcome i ≠ none

def Sticky (b : BlobFileBuilder) : Prop := Detected o b → b.status ≠ none

/-! ## Writes -/

section

variable (outcome : Nat → Option Status)

def writeStatus (n : Nat) : Option Status := (outcome n).or (outcome (n + 1))

def writeEnd (n : Nat) : Nat := if (outcome n).isSome then n + 1 else n + 2

def writeStatuses : Nat → Nat → List (Option Status)
  | _, 0 => []
  | n, k + 1 => writeStatus outcome n :: writeStatuses (writeEnd outcome n) k

def writesEnd : Nat → Nat → Nat
  | n, 0 => n
  | n, k + 1 => writesEnd (writeEnd outcome n) k

theorem writesEnd_add (n j k : Nat) :
    writesEnd outcome n (j + k) = writesEnd outcome (writesEnd outcome n j) k := by
  induction j generalizing n with
  | zero => rw [Nat.zero_add, writesEnd]
  | succ j ih =>
    rw [Nat.succ_add, writesEnd, writesEnd]
    exact ih _

theorem writeStatuses_add (n j k : Nat) :
    writeStatuses outcome n (j + k) =
      writeStatuses outcome n j ++ writeStatuses outcome (writesEnd outcome n j) k := by
  induction j generalizing n with
  | zero => rw [Nat.zero_add, writeStatuses, writesEnd, nil_append]
  | succ j ih =>
    rw [Nat.succ_add, writeStatuses, writeStatuses, writesEnd, cons_append]
    exact congrArg _ (ih _)

/-- A write fails exactly if one of its calls does. -/
theorem writeStatus_ne_none (n : Nat) :
    writeStatus outcome n ≠ none ↔ ∃ i, n ≤ i ∧ i < writeEnd outcome n ∧ outcome i ≠ none := by
  rw [writeStatus, writeEnd]
  cases hfirst : outcome n with
  | some e =>
    refine ⟨fun _ => ⟨n, le_rfl, ?_, ?_⟩, fun _ => Option.some_ne_none _⟩
    · rw [Option.isSome_some, if_pos rfl]
      exact Nat.lt_succ_self n
    · rw [hfirst]
      exact Option.some_ne_none _
  | none =>
    simp only [Option.none_or, Option.isSome_none, Bool.false_eq_true, ↓reduceIte]
    constructor
    · intro h
      exact ⟨n + 1, Nat.le_succ n, Nat.lt_succ_self _, h⟩
    · intro h
      obtain ⟨i, hle, hlt, hi⟩ := h
      have hcase : i = n ∨ i = n + 1 := by omega
      rcases hcase with rfl | rfl
      · exact absurd hfirst hi
      · exact hi

theorem le_writeEnd (n : Nat) : n ≤ writeEnd outcome n := by
  rw [writeEnd]
  split <;> omega

theorem le_writesEnd (n k : Nat) : n ≤ writesEnd outcome n k := by
  induction k generalizing n with
  | zero => exact le_rfl
  | succ k ih => exact (le_writeEnd outcome n).trans (ih _)

theorem exists_failed (n k : Nat) :
    (∃ s ∈ writeStatuses outcome n k, s ≠ none) ↔
      ∃ i, n ≤ i ∧ i < writesEnd outcome n k ∧ outcome i ≠ none := by
  induction k generalizing n with
  | zero =>
    constructor
    · intro h
      obtain ⟨s, hs, -⟩ := h
      exact absurd hs not_mem_nil
    · intro h
      obtain ⟨i, hle, hlt, -⟩ := h
      rw [writesEnd] at hlt
      omega
  | succ k ih =>
    have hfirst := writeStatus_ne_none outcome n
    have hrest := ih (writeEnd outcome n)
    have hle := le_writeEnd outcome n
    have hend := le_writesEnd outcome (writeEnd outcome n) k
    rw [writeStatuses, writesEnd]
    simp only [mem_cons, exists_eq_or_imp, hfirst, hrest]
    constructor
    · intro h
      rcases h with ⟨i, h₁, h₂, hi⟩ | ⟨i, h₁, h₂, hi⟩
      · exact ⟨i, h₁, h₂.trans_le hend, hi⟩
      · exact ⟨i, hle.trans h₁, h₂, hi⟩
    · intro h
      obtain ⟨i, h₁, h₂, hi⟩ := h
      by_cases hi' : i < writeEnd outcome n
      · exact .inl ⟨i, h₁, hi', hi⟩
      · exact .inr ⟨i, not_lt.mp hi', h₂, hi⟩

end

/-- A failed write is followed by a last one that succeeds. -/
def Masks (statuses : List (Option Status)) : Prop :=
  (∃ s ∈ statuses, s ≠ none) ∧ statuses.getLast? = some none

def writes (b : BlobFileBuilder) : Call → Nat
  | .add record _ _ =>
    if b.ok then
      match b.builderState with
      | .buffered =>
        if 0 < o.zstdMaxTrainBytes ∧ o.zstdMaxTrainBytes ≤ b.sampleStrLen + record.encodeTo.length
        then b.sampleRecords.length + 1 else 0
      | .unbuffered => 1
    else 0
  | .addSmall _ _ => 0
  | .finish =>
    if b.ok then
      (match b.builderState with
        | .buffered => b.sampleRecords.length
        | .unbuffered => 0) + (if o.maxDictBytes > 0 then 2 else 0) + 1
    else 0

/-- Writes have been made, and the status is that of the last. -/
structure Wrote (b b' : BlobFileBuilder) (count : Nat) : Prop where
  version : b'.version = b.version
  outcome : b'.file.outcome = b.file.outcome
  calls : b'.file.calls = writesEnd b.file.outcome b.file.calls count
  status : b'.status = (writeStatuses b.file.outcome b.file.calls count).getLast?.getD b.status

theorem Wrote.refl (b : BlobFileBuilder) : Wrote b b 0 := ⟨rfl, rfl, rfl, rfl⟩

variable {b b' : BlobFileBuilder} {count : Nat}

theorem Wrote.trans {b'' : BlobFileBuilder} {j k : Nat} (h : Wrote b b' j) (h' : Wrote b' b'' k) :
    Wrote b b'' (j + k) where
  version := h'.version.trans h.version
  outcome := h'.outcome.trans h.outcome
  calls := by rw [h'.calls, h.outcome, h.calls, writesEnd_add]
  status := by
    rw [h'.status, h.status, h.outcome, h.calls, writeStatuses_add, getLast?_append, Option.getD_or]

/-- A builder that differs in what the appends do not look at. -/
theorem Wrote.congr {a a' : BlobFileBuilder} (h : Wrote b b' count) (hversion : a.version = b.version)
    (hfile : a.file = b.file) (hstatus : a.status = b.status) (hversion' : a'.version = b'.version)
    (hfile' : a'.file = b'.file) (hstatus' : a'.status = b'.status) : Wrote a a' count where
  version := by rw [hversion', hversion, h.version]
  outcome := by rw [hfile', hfile, h.outcome]
  calls := by rw [hfile', hfile, h.calls]
  status := by rw [hstatus', hfile, hstatus, h.status]

/-- A single append leaves its result as the status. -/
theorem append_results (b : BlobFileBuilder) (data : Bytes) :
    (b.append data).status = b.file.outcome b.file.calls ∧
      (b.append data).file.calls = b.file.calls + 1 ∧
      (b.append data).file.outcome = b.file.outcome ∧ (b.append data).version = b.version := by
  rw [BlobFileBuilder.append, WritableFile.append]
  cases b.file.outcome b.file.calls <;> exact ⟨rfl, rfl, rfl, rfl⟩

/-- Two appends, the second if the first succeeds. -/
theorem append_wrote (b : BlobFileBuilder) (first second : Bytes) :
    Wrote b (if (b.append first).ok then (b.append first).append second else b.append first) 1 := by
  obtain ⟨hstatus, hcalls, houtcome, hversion⟩ := append_results b first
  obtain ⟨hstatus', hcalls', houtcome', hversion'⟩ := append_results (b.append first) second
  cases hcall : b.file.outcome b.file.calls with
  | none =>
    have hok : (b.append first).ok = true := by
      rw [BlobFileBuilder.ok, hstatus, hcall]
      rfl
    rw [if_pos hok]
    refine ⟨hversion'.trans hversion, houtcome'.trans houtcome, ?_, ?_⟩
    · rw [hcalls', hcalls, writesEnd, writesEnd, writeEnd, hcall]
      rfl
    · rw [hstatus', houtcome, hcalls, writeStatuses, writeStatuses, writeStatus, hcall]
      rfl
  | some e =>
    have hok : ¬ (b.append first).ok = true := by
      rw [BlobFileBuilder.ok, hstatus, hcall]
      exact Bool.false_ne_true
    rw [if_neg hok]
    refine ⟨hversion, houtcome, ?_, ?_⟩
    · rw [hcalls, writesEnd, writesEnd, writeEnd, hcall]
      rfl
    · rw [hstatus, writeStatuses, writeStatuses, writeStatus, hcall]
      rfl

/-! ## What the calls write -/

theorem writeEncoderData_wrote (b : BlobFileBuilder) (record : Bytes) :
    Wrote b (b.writeEncoderData o record).1 1 := by
  have h := append_wrote { b with liveDataSize := b.liveDataSize +
    ((b.encode o record).1.length + (b.encode o record).2.length) } (b.encode o record).1
      (b.encode o record).2
  rw [writeEncoderData]
  dsimp only
  split
  · rename_i hok
    rw [if_pos hok] at h
    exact h.congr rfl rfl rfl rfl rfl rfl
  · rename_i hok
    rw [if_neg hok] at h
    exact h.congr rfl rfl rfl rfl rfl rfl

theorem writeRawBlock_wrote (b : BlobFileBuilder) (block : Bytes) :
    Wrote b (b.writeRawBlock block).1 1 :=
  append_wrote b block (blockTrailer block)

theorem writeMetaBlocks_wrote (b : BlobFileBuilder) : Wrote b (b.writeMetaBlocks o).1 2 :=
  (writeRawBlock_wrote b b.compressionDict).trans (writeRawBlock_wrote _ _)

/-- The flush takes the place of the second append. -/
theorem writeFooter_wrote (b : BlobFileBuilder) (handle : BlockHandle) :
    Wrote b (b.writeFooter handle) 1 := by
  have h := append_wrote b ({ metaIndexHandle := handle } : BlobFileFooter).encodeTo []
  rw [writeFooter]
  dsimp only
  split
  · rename_i hok
    rw [if_pos hok] at h
    have hflush : ∀ b : BlobFileBuilder,
        (b.append []).status = b.file.flush.1 ∧ (b.append []).file.calls = b.file.flush.2.calls ∧
        (b.append []).file.outcome = b.file.flush.2.outcome ∧ (b.append []).version = b.version := by
      intro b
      rw [BlobFileBuilder.append, WritableFile.append, WritableFile.flush]
      cases b.file.outcome b.file.calls <;> exact ⟨rfl, rfl, rfl, rfl⟩
    obtain ⟨hstatus, hcalls, houtcome, hversion⟩ :=
      hflush (b.append ({ metaIndexHandle := handle } : BlobFileFooter).encodeTo)
    exact ⟨hversion.symm.trans h.version, houtcome.symm.trans h.outcome, hcalls.symm.trans h.calls,
      hstatus.symm.trans h.status⟩
  · rename_i hok
    rw [if_neg hok] at h
    exact h

def waiting (ctxs : List BlobRecordContext) : List BlobRecordContext :=
  ctxs.filter fun ctx => !ctx.hasValue

def Paired (b : BlobFileBuilder) : Prop :=
  (waiting b.cachedContexts).length = b.sampleRecords.length

theorem flushContexts_wrote (b : BlobFileBuilder) (samples : List Bytes)
    (ctxs : List BlobRecordContext) (hpaired : (waiting ctxs).length = samples.length) :
    Wrote b (b.flushContexts o samples ctxs).1 samples.length := by
  induction ctxs generalizing b samples with
  | nil =>
    obtain rfl := length_eq_zero_iff.mp hpaired.symm
    exact .refl b
  | cons ctx ctxs ih =>
    cases hvalue : ctx.hasValue with
    | true =>
      rw [flushContexts_value o b samples hvalue]
      rw [waiting, filter_cons_of_neg (by simp [hvalue])] at hpaired
      exact ih b samples hpaired
    | false =>
      rw [waiting, filter_cons_of_pos (by simp [hvalue]), length_cons] at hpaired
      cases samples with
      | nil => cases hpaired
      | cons record samples =>
        rw [flushContexts_record o b record samples hvalue, length_cons,
          Nat.add_comm]
        exact (writeEncoderData_wrote o b record).trans
          (ih _ samples (Nat.succ.inj hpaired))

theorem enterUnbuffered_wrote (hpaired : Paired b) :
    Wrote b (b.enterUnbuffered o).1 b.sampleRecords.length := by
  have h := flushContexts_wrote o
    { b with compressionDict := o.trainDictionary b.sampleRecords o.maxDictBytes } b.sampleRecords
    b.cachedContexts hpaired
  exact ⟨h.version, h.outcome, h.calls, h.status⟩

theorem extendRange_wrote (h : Wrote b b' count) (key : Bytes) : Wrote b (b'.extendRange o key) count := by
  refine h.congr rfl rfl rfl ?_ ?_ ?_ <;>
  · unfold extendRange
    dsimp only
    split <;> split <;> rfl

theorem add_wrote (hpaired : Paired b) (record : BlobRecord) {ctx : BlobRecordContext}
    (hvalue : ctx.hasValue = false) :
    Wrote b (b.add o record ctx).1 (writes o b (.add record ctx hvalue)) := by
  rw [BlobFileBuilder.add, writes]
  split
  · cases b.builderState with
    | buffered =>
      dsimp only
      split
      · dsimp only
        apply extendRange_wrote
        have hpaired' : Paired { b with
            builderState := .buffered
            sampleRecords := b.sampleRecords ++ [record.encodeTo]
            sampleStrLen := b.sampleStrLen + record.encodeTo.length
            cachedContexts := b.cachedContexts ++ [ctx] } := by
          rw [Paired, waiting, filter_append, length_append, length_append]
          rw [filter_cons_of_pos (by simp [hvalue])]
          exact congrArg (· + 1) hpaired
        have h := enterUnbuffered_wrote o hpaired'
        rw [length_append] at h
        exact ⟨h.version, h.outcome, h.calls, h.status⟩
      · dsimp only
        apply extendRange_wrote
        exact ⟨rfl, rfl, rfl, rfl⟩
    | unbuffered =>
      exact extendRange_wrote o (writeEncoderData_wrote o b record.encodeTo) record.key
  · exact .refl b

theorem finish_wrote (hpaired : Paired b) : Wrote b (b.finish o).1 (writes o b .finish) := by
  rw [BlobFileBuilder.finish, writes]
  split
  · have hrest : ∀ {b' : BlobFileBuilder} {count : Nat}, Wrote b b' count →
        Wrote b (if o.maxDictBytes > 0 then (b'.writeMetaBlocks o).1.writeFooter (b'.writeMetaBlocks o).2
          else b'.writeFooter {}) (count + (if o.maxDictBytes > 0 then 2 else 0) + 1) := by
      intro b' count h
      split
      · exact (h.trans (writeMetaBlocks_wrote o b')).trans (writeFooter_wrote _ _)
      · exact h.trans (writeFooter_wrote b' _)
    cases b.builderState with
    | buffered =>
      dsimp only
      rw [apply_ite Prod.fst]
      exact hrest (enterUnbuffered_wrote o hpaired)
    | unbuffered =>
      dsimp only
      rw [apply_ite Prod.fst]
      exact hrest (Wrote.refl b)
  · exact .refl b

theorem exec_wrote (hpaired : Paired b) (call : Call) : Wrote b (exec o b call) (writes o b call) := by
  cases call with
  | add record ctx hvalue => exact add_wrote o hpaired record hvalue
  | addSmall ctx _ => exact (Wrote.refl b).congr rfl rfl rfl rfl rfl rfl
  | finish => exact finish_wrote o hpaired

@[simp] theorem extendRange_sampleRecords (b : BlobFileBuilder) (key : Bytes) :
    (b.extendRange o key).sampleRecords = b.sampleRecords := by
  unfold extendRange
  dsimp only
  split <;> split <;> rfl

@[simp] theorem writeEncoderData_sampleRecords (b : BlobFileBuilder) (record : Bytes) :
    (b.writeEncoderData o record).1.sampleRecords = b.sampleRecords := by
  unfold writeEncoderData
  dsimp only
  split <;> rfl

/-- What is appended after the samples touches neither them nor the contexts. -/
theorem writeFooter_paired (hpaired : Paired b) (handle : BlockHandle) : Paired (b.writeFooter handle) := by
  rw [writeFooter]
  dsimp only
  split <;> exact hpaired

theorem writeRawBlock_paired (hpaired : Paired b) (block : Bytes) : Paired (b.writeRawBlock block).1 := by
  rw [writeRawBlock]
  dsimp only
  split <;> exact hpaired

theorem add_paired (hpaired : Paired b) (record : BlobRecord) {ctx : BlobRecordContext}
    (hvalue : ctx.hasValue = false) : Paired (b.add o record ctx).1 := by
  cases hok : b.ok with
  | false =>
    rw [add_failed o hok]
    exact hpaired
  | true =>
    cases hstate : b.builderState with
    | unbuffered =>
      simp only [BlobFileBuilder.add, hok, hstate, ↓reduceIte, Paired,
        extendRange_cachedContexts, writeEncoderData_cachedContexts,
        extendRange_sampleRecords, writeEncoderData_sampleRecords]
      exact hpaired
    | buffered =>
      simp only [BlobFileBuilder.add, hok, hstate, ↓reduceIte]
      split
      · simp only [Paired, extendRange_cachedContexts, extendRange_sampleRecords]
        rfl
      · simp only [Paired, extendRange_cachedContexts, extendRange_sampleRecords,
          waiting, filter_append, length_append]
        rw [filter_cons_of_pos (by simp [hvalue])]
        exact congrArg (· + 1) hpaired

theorem finish_paired (hpaired : Paired b) : Paired (b.finish o).1 := by
  have hrest : ∀ {b' : BlobFileBuilder}, Paired b' →
      Paired (if o.maxDictBytes > 0 then (b'.writeMetaBlocks o).1.writeFooter (b'.writeMetaBlocks o).2
        else b'.writeFooter {}) := by
    intro b' h
    split
    · exact writeFooter_paired (writeRawBlock_paired (writeRawBlock_paired h _) _) _
    · exact writeFooter_paired h _
  rw [BlobFileBuilder.finish]
  split
  · cases b.builderState with
    | buffered =>
      dsimp only
      rw [apply_ite Prod.fst]
      exact hrest rfl
    | unbuffered =>
      dsimp only
      rw [apply_ite Prod.fst]
      exact hrest hpaired
  · exact hpaired

theorem exec_paired (hpaired : Paired b) (call : Call) : Paired (exec o b call) := by
  cases call with
  | add record ctx hvalue => exact add_paired o hpaired record hvalue
  | addSmall ctx hvalue =>
    change (waiting (b.cachedContexts ++ [ctx])).length = b.sampleRecords.length
    rw [waiting, filter_append, filter_cons_of_neg (by simp [hvalue]), filter_nil,
      append_nil]
    exact hpaired
  | finish => exact finish_paired o hpaired

/-! ## What is forgotten -/

/-- A builder that has failed writes nothing. -/
theorem status_of_writes {call : Call} (h : writes o b call ≠ 0) : b.status = none := by
  have hok : b.ok = true := by
    by_contra hok
    apply h
    cases call with
    | add record ctx hvalue => exact if_neg hok
    | addSmall ctx hvalue => rfl
    | finish => exact if_neg hok
  exact Option.isNone_iff_eq_none.mp hok

theorem Wrote.detected_iff (h : Wrote b b' count) : Detected o b' ↔ Unsupported o b.version ∨
    ∃ i < writesEnd b.file.outcome b.file.calls count, b.file.outcome i ≠ none := by
  rw [Detected, h.version, h.calls, h.outcome]

/-- Writes keep a failure exactly if they do not mask one of their own. -/
theorem Wrote.sticky_iff (h : Wrote b b' count) (hsticky : Sticky o b)
    (hstatus : count ≠ 0 → b.status = none) :
    Sticky o b' ↔ ¬ Masks (writeStatuses b.file.outcome b.file.calls count) := by
  have hfailed := exists_failed b.file.outcome b.file.calls count
  rw [Sticky, h.detected_iff, h.status]
  constructor
  · intro hsticky' hmasks
    obtain ⟨i, -, hlt, hi⟩ := hfailed.mp hmasks.1
    refine hsticky' (.inr ⟨i, hlt, hi⟩) ?_
    rw [hmasks.2]
    rfl
  · intro hmasks hdetected
    cases count with
    | zero => exact hsticky hdetected
    | succ count =>
      have hnone := hstatus (Nat.succ_ne_zero _)
      have hundetected : ¬ Detected o b := fun hdetected => hsticky hdetected hnone
      -- what is detected now failed in one of these writes
      have hsome : ∃ s ∈ writeStatuses b.file.outcome b.file.calls (count + 1), s ≠ none := by
        rcases hdetected with hversion | ⟨i, hlt, hi⟩
        · exact absurd (.inl hversion) hundetected
        · refine hfailed.mpr ⟨i, ?_, hlt, hi⟩
          by_contra hle
          exact hundetected (.inr ⟨i, not_le.mp hle, hi⟩)
      intro hlast
      apply hmasks
      refine ⟨hsome, ?_⟩
      cases hget : (writeStatuses b.file.outcome b.file.calls (count + 1)).getLast? with
      | none =>
        rw [getLast?_eq_none_iff] at hget
        cases hget
      | some s =>
        rw [hget] at hlast
        exact congrArg some hlast

theorem new_paired (file : WritableFile) (version : UInt32) : Paired (.new o file version) := by
  rw [BlobFileBuilder.new]
  dsimp only
  split_ifs <;> rfl

/-- Of a builder that has only tried the header, its append decides. -/
theorem writeHeader_sticky_iff (hcalls : b.file.calls = 0) :
    Sticky o (b.writeHeader o) ↔ (Unsupported o b.version → b.file.outcome 0 ≠ none) := by
  obtain ⟨hstatus, hcalls', houtcome, hversion⟩ := append_results b
    ({ version := b.version, flags := if o.maxDictBytes > 0 then kHasUncompressionDictionary else 0 } :
      BlobFileHeader).encodeTo
  rw [hcalls] at hstatus hcalls'
  rw [Sticky, Detected, writeHeader, hstatus, hcalls', houtcome, hversion]
  constructor
  · intro h hunsupported
    exact h (.inl hunsupported)
  · intro h hdetected
    rcases hdetected with hunsupported | ⟨i, hlt, hi⟩
    · exact h hunsupported
    · obtain rfl : i = 0 := by omega
      exact hi

/-- The constructor forgets only that a dictionary does not go with version 1. -/
theorem new_sticky_iff (outcome : Nat → Option Status) (version : UInt32) :
    Sticky o (.new o { outcome } version) ↔
      (0 < o.maxDictBytes → version = kVersion1 → o.zstdTooOld = true ∨ outcome 0 ≠ none) := by
  rw [BlobFileBuilder.new]
  dsimp only
  by_cases hvalid : validateVersion version = none
  · rw [hvalid, Option.isSome_none, if_neg Bool.false_ne_true]
    have hcases : version = kVersion1 ∨ version = kVersion2 := by
      rw [validateVersion] at hvalid
      split at hvalid
      · cases hvalid
      · rename_i h
        rw [Classical.not_and_iff_not_or_not, not_not, not_not] at h
        exact h
    by_cases hdict : o.maxDictBytes > 0
    · rw [if_pos hdict]
      by_cases hold : o.zstdTooOld = true
      · rw [if_pos hold]
        exact ⟨fun _ _ _ => .inl hold, fun _ _ => Option.some_ne_none _⟩
      · rw [if_neg hold, writeHeader_sticky_iff o (by split <;> rfl)]
        rcases hcases with rfl | rfl
        · rw [if_pos (by decide)]
          have hunsupported : Unsupported o kVersion1 := .inr ⟨hdict, .inl (by decide)⟩
          exact ⟨fun h _ _ => .inr (h hunsupported), fun h _ => (h hdict rfl).resolve_left hold⟩
        · rw [if_neg (by decide)]
          refine ⟨fun _ _ h => absurd h (by decide), fun _ hunsupported => ?_⟩
          rcases hunsupported with h | ⟨-, h | h⟩
          · exact absurd hvalid h
          · exact absurd rfl h
          · exact absurd h hold
    · rw [if_neg hdict, writeHeader_sticky_iff o rfl]
      refine ⟨fun _ h => absurd h hdict, fun _ hunsupported => ?_⟩
      rcases hunsupported with h | h
      · exact absurd hvalid h
      · exact absurd h.1 hdict
  · rw [if_pos (Option.isSome_iff_ne_none.mpr hvalid)]
    refine ⟨fun _ _ hversion => absurd ?_ hvalid, fun _ _ => hvalid⟩
    rw [hversion]
    rfl

/-- The call's last write does not succeed after another of its writes has failed. -/
def Unmasked (b : BlobFileBuilder) (call : Call) : Prop :=
  ¬ Masks (writeStatuses b.file.outcome b.file.calls (writes o b call))

theorem exec_sticky_iff (hsticky : Sticky o b) (hpaired : Paired b) (call : Call) :
    Sticky o (exec o b call) ↔ Unmasked o b call :=
  (exec_wrote o hpaired call).sticky_iff o hsticky (status_of_writes o)

theorem always_sticky_iff (hsticky : Sticky o b) (hpaired : Paired b) (calls : List Call) :
    Always (exec o) (Sticky o) b calls ↔ Along (exec o) (Unmasked o) b calls :=
  always_iff_along (fun b => Sticky o b ∧ Paired b)
    (fun _ call h hunmasked => ⟨(exec_sticky_iff o h.1 h.2 call).mpr hunmasked, exec_paired o h.2 call⟩)
    (fun _ h => h.1) (fun _ call h hsticky => (exec_sticky_iff o h.1 h.2 call).mp hsticky)
    ⟨hsticky, hpaired⟩

/-- The status keeps every failure and every rejected configuration exactly if a file with
a dictionary does not have version 1, and no call masks a failure of its own. -/
theorem errors_sticky_iff (outcome : Nat → Option Status) (version : UInt32) (calls : List Call) :
    Always (exec o) (Sticky o) (.new o { outcome } version) calls ↔
      (0 < o.maxDictBytes → version = kVersion1 → o.zstdTooOld = true ∨ outcome 0 ≠ none) ∧
        Along (exec o) (Unmasked o) (.new o { outcome } version) calls := by
  rw [← new_sticky_iff o outcome version]
  have hpaired := new_paired o { outcome } version
  constructor
  · intro h
    exact ⟨h.first, (always_sticky_iff o h.first hpaired calls).mp h⟩
  · intro h
    exact (always_sticky_iff o h.1 hpaired calls).mpr h.2

/-- A builder with a dictionary of one byte that writes no samples before `Finish`. -/
def dictionaryOptions : BuilderOptions where
  compression := fun _ => .none
  maxDictBytes := 1
  zstdMaxTrainBytes := 0
  zstdTooOld := false
  trainDictionary := fun _ _ => []
  metaIndexBlock := fun _ => []
  compare := fun _ _ => .eq

/-- `Finish` returns OK though the append of the dictionary has failed, and the constructor
with version 1 leaves no error. -/
theorem dictionary_errors_forgotten :
    ¬ Always (exec dictionaryOptions) (Sticky dictionaryOptions)
        (.new dictionaryOptions { outcome := fun i => if i = 1 then some ⟨.ioError, ""⟩ else none }
          kVersion2) [.finish] ∧
      ¬ Sticky dictionaryOptions (.new dictionaryOptions { outcome := fun _ => none } kVersion1) := by
  constructor
  · intro h
    refine h.last (.inr ⟨1, ?_, Option.some_ne_none _⟩) rfl
    change 1 < 6
    decide
  · intro h
    refine h (.inl (.inr ⟨?_, .inl ?_⟩)) rfl
    · exact Nat.one_pos
    · decide

/-! ## Without a dictionary -/

theorem new_unbuffered (hdict : o.maxDictBytes = 0) (file : WritableFile) (version : UInt32) :
    (BlobFileBuilder.new o file version).builderState = .unbuffered := by
  have hdict' : ¬ o.maxDictBytes > 0 := by omega
  rw [BlobFileBuilder.new]
  dsimp only
  rw [if_neg hdict', if_neg hdict']
  split <;> rfl

theorem exec_unbuffered (hdict : o.maxDictBytes = 0) (hstate : b.builderState = .unbuffered) (call : Call) :
    (exec o b call).builderState = .unbuffered := by
  have hdict' : ¬ o.maxDictBytes > 0 := by omega
  cases call with
  | add record ctx hvalue =>
    rw [exec, BlobFileBuilder.add]
    split
    · rw [hstate]
      dsimp only
      rw [extendRange_builderState, writeEncoderData_builderState]
      exact hstate
    · exact hstate
  | addSmall ctx hvalue => exact hstate
  | finish =>
    rw [exec, BlobFileBuilder.finish]
    split
    · rw [hstate]
      simp only [writeFooter]
      split <;> exact hstate
    · exact hstate

/-- Every call makes at most one write, and its failure stays. -/
theorem errors_sticky_of_no_dictionary (hdict : o.maxDictBytes = 0) (outcome : Nat → Option Status)
    (version : UInt32) (calls : List Call) :
    Always (exec o) (Sticky o) (.new o { outcome } version) calls := by
  have hdict' : ¬ o.maxDictBytes > 0 := by omega
  have hnew : Sticky o (.new o { outcome } version) :=
    (new_sticky_iff o outcome version).mpr fun h => absurd h hdict'
  refine (always_sticky_iff o hnew (new_paired o _ version) calls).mpr ?_
  refine along_of_invariant (fun b => b.builderState = .unbuffered)
    (fun b call h => exec_unbuffered o hdict h call) ?_ (new_unbuffered o hdict _ version) calls
  intro b call hstate hmasks
  have hone : writes o b call ≤ 1 := by
    cases call with
    | add record ctx hvalue =>
      rw [writes, hstate]
      split
      · exact le_rfl
      · exact Nat.zero_le 1
    | addSmall ctx hvalue => exact Nat.zero_le 1
    | finish =>
      rw [writes, hstate, if_neg hdict']
      split
      · exact le_rfl
      · exact Nat.zero_le 1
  obtain ⟨⟨s, hs, hne⟩, hlast⟩ := hmasks
  rcases Nat.le_one_iff_eq_zero_or_eq_one.mp hone with h | h
  · rw [h] at hs
    exact absurd hs not_mem_nil
  · rw [h] at hs hlast
    obtain rfl := mem_singleton.mp hs
    exact hne (Option.some.inj hlast)

theorem errors_sticky_of_no_dictionary_finish :
    ∃ o : BuilderOptions, Always (exec o) (Sticky o)
      (.new o { outcome := fun _ => some ⟨.ioError, ""⟩ } kVersion2) [.finish] :=
  ⟨{ dictionaryOptions with maxDictBytes := 0 }, errors_sticky_of_no_dictionary _ rfl _ _ _⟩

end TitanGC.Storage.BuilderErrors
