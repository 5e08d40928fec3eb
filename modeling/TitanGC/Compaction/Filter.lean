import TitanGC.Format.BlobFile
import TitanGC.Format.BlobFormat

/-!
# The compaction filter

`TitanCompactionFilter::FilterV3`, which reads the record of a blob index and asks the
user's filter about its value. It rebuilds the slice of the index from its address
alone, as a string that ends at the first zero byte: an index with a zero field is cut
off there, and one without goes on into the bytes that follow it in memory.
-/

namespace TitanGC.Compaction.Filter

open Lib.ByteCoding List Format.Coding Format.BlobFormat Format.BlobFile

inductive FilterValueType where
  | value | mergeOperand | blobIndex
  deriving Repr, DecidableEq

inductive Decision where
  | keep | remove | changeValue | removeAndSkipUntil | changeBlobIndex | ioError | undetermined
  deriving Repr, DecidableEq

structure Call where
  level : Int
  key : Bytes
  seqno : Nat
  valueType : FilterValueType
  value : Bytes
  deriving Repr, DecidableEq

/-- What a filter returns and writes through its pointers. -/
structure Answer where
  decision : Decision
  newValue : Bytes := []
  skipUntil : Bytes := []
  deriving Repr, DecidableEq

/-- The filter with the user's filter, and `BlobStorage::Get`, which goes by the current
location of an index. -/
structure TitanCompactionFilter where
  skipValue : Bool
  original : Call → Answer
  get : BlobPtr → Except Status BlobRecord

/-- What a call of `FilterV3` has done: the index it decoded, its call of the user's
filter, the error it handed to `SetBGError` and its decision. -/
structure Outcome where
  decision : Decision
  decoded : Option BlobIndex := none
  asked : Option Call := none
  bgError : Option Status := none
  deriving DecidableEq

/-- `Slice(const char*)`: the bytes before the first zero byte. -/
def cString (memory : Bytes) : Bytes := memory.takeWhile (· ≠ 0)

/-- A changed value would need another value type, so the value is kept. -/
def Decision.kept : Decision → Decision
  | .changeValue => .keep
  | d => d

namespace TitanCompactionFilter

def ask (f : TitanCompactionFilter) (call : Call) : Outcome :=
  { decision := (f.original call).decision, asked := some call }

def filterRecord (f : TitanCompactionFilter) (call : Call) (index : BlobIndex) : Outcome :=
  match f.get index.ptr with
  | .error s =>
    if s.code = .corruption then { decision := .keep, decoded := some index }
    else { decision := .keep, decoded := some index, bgError := some s }
  | .ok record =>
    let call := { call with valueType := .value, value := record.value }
    let decision := (f.original call).decision
    { decision := decision.kept, decoded := some index, asked := some call
      bgError := if decision = .changeValue then
          some ⟨.notSupported, "It would be a problem if it change the value whereas the " ++
            "value_type is still kBlobIndex."⟩
        else none }

/-- `FilterV3`, with the bytes that follow the value in memory up to some zero byte. -/
def filterV3 (f : TitanCompactionFilter) (call : Call) (after : Bytes) : Outcome :=
  if f.skipValue then f.ask { call with value := [] }
  else if call.valueType ≠ .blobIndex then f.ask call
  else match BlobIndex.decodeFrom (cString (call.value ++ after)) with
    | .error s => { decision := .keep, bgError := some s }
    | .ok (index, _) => f.filterRecord call index

end TitanCompactionFilter

/-! ## Strings that end at a zero byte -/

theorem cString_append {bytes : Bytes} (h : ∀ b ∈ bytes, b ≠ 0) (rest : Bytes) :
    cString (bytes ++ rest) = bytes ++ cString rest :=
  takeWhile_append_of_pos fun b hb => decide_eq_true (h b hb)

theorem cString_putVarint64 {v : UInt64} (h : v ≠ 0) (rest : Bytes) :
    cString (putVarint64 v ++ rest) = putVarint64 v ++ cString rest := by
  have hpos : 0 < v.toNat := Nat.pos_of_ne_zero fun h0 => h (UInt64.toNat_inj.mp h0)
  have hlt : v.toNat < 128 ^ (9 + 1) := Nat.lt_of_lt_of_le v.toNat_lt (by norm_num)
  exact cString_append (encodeVarint_bytes_ne_zero hpos hlt) rest

theorem cString_putVarint64_zero (rest : Bytes) : cString (putVarint64 0 ++ rest) = [] := rfl

theorem getVarint64_nil : getVarint64 [] = none := rfl

/-! ## Decoding what is left of an index -/

/-- All parts of a handle are there and none of its bytes is zero. -/
def NonzeroHandle (h : BlobHandle) : Prop := h.offset ≠ 0 ∧ h.size ≠ 0 ∧ h.index ≠ 0

theorem decodeFrom_cString_handle {h : BlobHandle} (hh : NonzeroHandle h) (rest : Bytes) :
    BlobHandle.decodeFrom (cString (h.encodeTo ++ rest)) = .ok (h, cString rest) := by
  have hcut : cString (h.encodeTo ++ rest) = h.encodeTo ++ cString rest := by
    rw [BlobHandle.encodeTo, append_assoc, append_assoc, cString_putVarint64 hh.1,
      cString_putVarint64 hh.2.1, cString_putVarint64 hh.2.2, append_assoc, append_assoc]
  rw [hcut, BlobHandle.decodeFrom_encodeTo]

/-- A handle is cut off at its first zero part. -/
theorem decodeFrom_cString_cut {h : BlobHandle} (hh : ¬ NonzeroHandle h) (rest : Bytes) :
    BlobHandle.decodeFrom (cString (h.encodeTo ++ rest)) = .error (corruption "BlobHandle") := by
  rw [BlobHandle.encodeTo, append_assoc, append_assoc]
  by_cases hoffset : h.offset = 0
  · rw [hoffset, cString_putVarint64_zero, BlobHandle.decodeFrom, getVarint64_nil]
  rw [cString_putVarint64 hoffset, BlobHandle.decodeFrom, getVarint64_putVarint64]
  dsimp only
  by_cases hsize : h.size = 0
  · rw [hsize, cString_putVarint64_zero, getVarint64_nil]
  rw [cString_putVarint64 hsize, getVarint64_putVarint64]
  dsimp only
  have hindex : h.index = 0 := by
    by_contra hne
    exact hh ⟨hoffset, hsize, hne⟩
  rw [hindex, cString_putVarint64_zero, getVarint64_nil]

/-- No field of the encoding is zero; the old location is only encoded if there is an
old file. -/
def NonzeroFields (b : BlobIndex) : Prop :=
  b.fileNumber ≠ 0 ∧ NonzeroHandle b.blobHandle ∧ (b.oldFileNumber ≠ 0 → NonzeroHandle b.oldBlobHandle)

/-- Four numbers that are zero although none of their bytes is: bits above the 64th are
lost. -/
def OverlongZeros (tail : Bytes) : Prop :=
  ∃ rest, BlobIndex.decodeOld 0 {} tail = .ok ({}, rest) ∧ tail ≠ []

/-- What follows an index does not read as an old location: there is one already, or
the string ends here, or the location that is read is the one that stands for none. -/
def Delimited (b : BlobIndex) (after : Bytes) : Prop :=
  b.oldFileNumber ≠ 0 ∨ cString after = [] ∨ OverlongZeros (cString after)

variable {b : BlobIndex}

/-- The first part of an index, before its old location. -/
theorem decodeFrom_cString_first (hfile : b.fileNumber ≠ 0) (hhandle : NonzeroHandle b.blobHandle)
    (after : Bytes) :
    BlobIndex.decodeFrom (cString (b.encodeTo ++ after)) =
      BlobIndex.decodeOld b.fileNumber b.blobHandle (cString ((if b.oldFileNumber > 0 then
        putVarint64 b.oldFileNumber ++ b.oldBlobHandle.encodeTo else []) ++ after)) := by
  have hstart : ∀ rest, cString (kBlobRecord :: rest) = kBlobRecord :: cString rest := fun _ => rfl
  rw [BlobIndex.encodeTo, cons_append, hstart, append_assoc, cString_putVarint64 hfile,
    BlobIndex.decodeFrom, getChar]
  dsimp only
  rw [if_neg (not_not_intro rfl), getVarint64_putVarint64]
  dsimp only
  rw [append_assoc, decodeFrom_cString_handle hhandle]

/-- An index is cut off at its first zero field and then not decoded. -/
theorem decodeFrom_cString_of_zero (hb : ¬ NonzeroFields b) (after : Bytes) :
    ∃ s, BlobIndex.decodeFrom (cString (b.encodeTo ++ after)) = .error s := by
  have hstart : ∀ rest, cString (kBlobRecord :: rest) = kBlobRecord :: cString rest := fun _ => rfl
  by_cases hfile : b.fileNumber = 0
  · refine ⟨corruption "BlobIndex1", ?_⟩
    rw [BlobIndex.encodeTo, cons_append, hstart, append_assoc, hfile,
      cString_putVarint64_zero, BlobIndex.decodeFrom, getChar]
    dsimp only
    rw [if_neg (not_not_intro rfl), getVarint64_nil]
  by_cases hhandle : NonzeroHandle b.blobHandle
  · have hold : b.oldFileNumber ≠ 0 ∧ ¬ NonzeroHandle b.oldBlobHandle := by
      by_contra hcon
      exact hb ⟨hfile, hhandle, fun hne => by_contra fun hzero => hcon ⟨hne, hzero⟩⟩
    refine ⟨corruption₂ "BlobIndex4" (corruption "BlobHandle").toString, ?_⟩
    rw [decodeFrom_cString_first hfile hhandle, if_pos (UInt64.pos_iff_ne_zero.mpr hold.1),
      append_assoc, cString_putVarint64 hold.1, BlobIndex.decodeOld,
      if_neg (by simp [putVarint64_ne_nil]), getVarint64_putVarint64]
    dsimp only
    rw [decodeFrom_cString_cut hold.2]
  · refine ⟨corruption₂ "BlobIndex2" (corruption "BlobHandle").toString, ?_⟩
    rw [BlobIndex.encodeTo, cons_append, hstart, append_assoc, cString_putVarint64 hfile,
      BlobIndex.decodeFrom, getChar]
    dsimp only
    rw [if_neg (not_not_intro rfl), getVarint64_putVarint64]
    dsimp only
    rw [append_assoc, decodeFrom_cString_cut hhandle]

/-- The old location that follows does not depend on the current one. -/
theorem decodeOld_plain_iff (fileNumber : UInt64) (handle : BlobHandle) (tail : Bytes) :
    (∃ rest, BlobIndex.decodeOld fileNumber handle tail = .ok (⟨fileNumber, handle, 0, {}⟩, rest)) ↔
      tail = [] ∨ OverlongZeros tail := by
  by_cases hnil : tail = []
  · subst hnil
    exact ⟨fun _ => .inl rfl, fun _ => ⟨[], rfl⟩⟩
  have hne : tail.isEmpty = false := isEmpty_eq_false_iff.mpr hnil
  simp only [OverlongZeros, hnil, false_or, ne_eq, not_false_eq_true, and_true, BlobIndex.decodeOld,
    hne, Bool.false_eq_true, ↓reduceIte]
  cases getVarint64 tail with
  | none => simp
  | some old =>
    dsimp only
    cases BlobHandle.decodeFrom old.2 with
    | error s => simp
    | ok h => simp

/-- Without a zero field, the index that is decoded is the one that was stored exactly
if what follows does not read as an old location. -/
theorem decodeFrom_cString_iff (hb : NonzeroFields b) (after : Bytes) :
    (∃ rest, BlobIndex.decodeFrom (cString (b.encodeTo ++ after)) = .ok (b.normal, rest)) ↔
      Delimited b after := by
  rw [decodeFrom_cString_first hb.1 hb.2.1, Delimited]
  by_cases hold : b.oldFileNumber = 0
  · have hnot : ¬ b.oldFileNumber > 0 := by simp [hold]
    rw [if_neg hnot, nil_append, BlobIndex.normal_of_isPlain hold]
    simp only [hold, ne_eq, not_true_eq_false, false_or]
    exact decodeOld_plain_iff b.fileNumber b.blobHandle (cString after)
  · have hpos : b.oldFileNumber > 0 := UInt64.pos_iff_ne_zero.mpr hold
    refine iff_of_true ⟨cString after, ?_⟩ (.inl hold)
    rw [if_pos hpos, append_assoc, cString_putVarint64 hold, BlobIndex.decodeOld,
      if_neg (by simp [putVarint64_ne_nil]), getVarint64_putVarint64]
    dsimp only
    rw [decodeFrom_cString_handle (hb.2.2 hold), BlobIndex.normal, if_pos hpos]

/-! ## What the user's filter sees -/

/-- The filter has decoded the stored index; and if its record is readable, it has asked
the user's filter about the record's value, returned its decision and set no background
error. -/
structure Faithful (f : TitanCompactionFilter) (call : Call) (index : BlobIndex) (o : Outcome) : Prop where
  decoded : o.decoded = some index.normal
  readable : ∀ record, f.get index.ptr = .ok record →
    o.asked = some { call with valueType := .value, value := record.value } ∧
    o.decision = (f.original { call with valueType := .value, value := record.value }).decision.kept ∧
    o.bgError = none

variable (f : TitanCompactionFilter)

theorem filterRecord_decoded (call : Call) (index : BlobIndex) :
    (f.filterRecord call index).decoded = some index := by
  rw [TitanCompactionFilter.filterRecord]
  split
  · split <;> rfl
  · rfl

/-- The record's value is passed on; only a changed value is reported. -/
theorem filterRecord_faithful_iff (call : Call) (index : BlobIndex) :
    Faithful f call index (f.filterRecord call index.normal) ↔
      ∀ record, f.get index.ptr = .ok record →
        (f.original { call with valueType := .value, value := record.value }).decision ≠ .changeValue := by
  constructor
  · intro h record hrecord hchange
    have hbg := (h.readable record hrecord).2.2
    rw [TitanCompactionFilter.filterRecord, BlobIndex.ptr_normal, hrecord] at hbg
    dsimp only at hbg
    rw [if_pos hchange] at hbg
    cases hbg
  · intro h
    refine ⟨filterRecord_decoded f call index.normal, fun record hrecord => ?_⟩
    rw [TitanCompactionFilter.filterRecord, BlobIndex.ptr_normal, hrecord]
    exact ⟨rfl, rfl, if_neg (h record hrecord)⟩

/-- `FilterV3` sees the stored index and the value of its record exactly if values are
not skipped, no field of the index is zero, what follows the index in memory does not
read as an old location, and the user's filter does not change the value. -/
theorem filterV3_faithful_iff (f : TitanCompactionFilter) (level : Int) (key : Bytes) (seqno : Nat)
    (index : BlobIndex) (after : Bytes) :
    Faithful f ⟨level, key, seqno, .blobIndex, index.encodeTo⟩ index
        (f.filterV3 ⟨level, key, seqno, .blobIndex, index.encodeTo⟩ after) ↔
      f.skipValue = false ∧ NonzeroFields index ∧ Delimited index after ∧
      ∀ record, f.get index.ptr = .ok record →
        (f.original ⟨level, key, seqno, .value, record.value⟩).decision ≠ .changeValue := by
  rw [TitanCompactionFilter.filterV3]
  by_cases hskip : f.skipValue = true
  · rw [if_pos hskip]
    refine iff_of_false (fun h => ?_) (fun h => ?_)
    · cases h.decoded
    · rw [hskip] at h
      cases h.1
  rw [if_neg hskip, if_neg (not_not_intro rfl)]
  have hoff : f.skipValue = false := Bool.eq_false_iff.mpr hskip
  by_cases hzero : NonzeroFields index
  · rw [and_iff_right hoff, and_iff_right hzero, ← decodeFrom_cString_iff hzero after]
    cases hdecode : BlobIndex.decodeFrom (cString (index.encodeTo ++ after)) with
    | error s =>
      refine iff_of_false (fun h => ?_) (fun h => ?_)
      · cases h.decoded
      · obtain ⟨⟨rest, hrest⟩, -⟩ := h
        cases hrest
    | ok r =>
      obtain ⟨decoded, rest⟩ := r
      dsimp only
      by_cases hsame : decoded = index.normal
      · subst hsame
        rw [filterRecord_faithful_iff]
        exact ⟨fun h => ⟨⟨rest, rfl⟩, h⟩, fun h => h.2⟩
      · refine iff_of_false (fun h => ?_) (fun h => ?_)
        · have hdecoded := h.decoded
          rw [filterRecord_decoded] at hdecoded
          exact hsame (Option.some.inj hdecoded)
        · obtain ⟨⟨rest', hrest⟩, -⟩ := h
          exact hsame (Prod.mk.inj (Except.ok.inj hrest)).1
  · obtain ⟨s, hs⟩ := decodeFrom_cString_of_zero hzero after
    rw [hs]
    refine iff_of_false (fun h => ?_) (fun h => hzero h.2.1)
    cases h.decoded

def removing : TitanCompactionFilter where
  skipValue := false
  original := fun _ => { decision := .remove }
  get := fun _ => .ok ⟨[1], [2]⟩

/-- The first record of a blob file has the record index zero, the last byte of its
index. The index is cut off there: it is not decoded, the user's filter is not asked and
a background error is set. -/
theorem first_record_not_filtered :
    removing.filterV3 ⟨1, [1], 5, .blobIndex, BlobIndex.encodeTo ⟨7, ⟨12, 20, 0⟩, 0, {}⟩⟩ [] =
      { decision := .keep, decoded := none, asked := none
        bgError := some (corruption₂ "BlobIndex2" (corruption "BlobHandle").toString) } := by
  decide

end TitanGC.Compaction.Filter
