import TitanGC.Compaction.Merge
import TitanGC.Storage.BlobFiles

/-!
# Reads in offload mode

`SaveValue` of `memtable.cc` with its `pending_check`, `DBImpl::GetImpl` over the
active memtable, the immutable memtables and the SSTs, and `TitanDBImpl::GetImpl`,
which follows a blob index. Only the active memtable is read with `pending_check`.
-/

namespace TitanGC.Offload.Reads

open Lib.ByteCoding Format.Coding Format.BlobFormat Compaction.Iterator Compaction.Merge
open Storage.BlobFiles

/-- Bytes left after the current location: an old location follows. -/
def saverCheckIsGCWriteBack (value : Bytes) : Bool := !(readTypedFields value).2.isEmpty

/-- The fields of `Saver` that `SaveValue` writes. `pendingCheck` is `none` where
the source passes a null pointer. -/
structure Saver where
  value : Bytes := []
  isBlobIndex : Bool := false
  foundFinalValue : Bool := false
  status : Except Status Unit := .ok ()
  pendingCheck : Option Bool := none

/-- `SaveValue` on one version of the key; the result says whether to go on with
the next older version. -/
def saveValue (s : Saver) (type : ValueType) (v : Bytes) : Saver × Bool :=
  match type with
  | .blobIndex =>
    let s := match s.pendingCheck with
      | none => { s with value := v }
      | some false => { s with value := v, pendingCheck := some (saverCheckIsGCWriteBack v) }
      | some true => { s with pendingCheck := some false }
    ({ s with status := .ok (), foundFinalValue := true, isBlobIndex := true },
      s.pendingCheck == some true)
  | .value =>
    ({ s with value := v, pendingCheck := s.pendingCheck.map fun _ => false, status := .ok (),
              foundFinalValue := true, isBlobIndex := false }, false)
  | .deletion | .singleDeletion =>
    ({ s with status := .error ⟨.notFound, ""⟩, foundFinalValue := true }, false)
  | .merge =>
    ({ s with status := .error ⟨.invalidArgument, "merge_operator is not properly initialized."⟩,
              foundFinalValue := true }, false)

/-- `MemTable::Get`: the versions of the key, newest first. -/
def memtableGet (s : Saver) : List (ValueType × Bytes) → Saver
  | [] => s
  | (type, v) :: rest =>
    let r := saveValue s type v
    if r.2 then memtableGet r.1 rest else r.1

/-- The result of `DBImpl::GetImpl`: a status, or a value and whether it is a
blob index. -/
abbrev BaseResult := Except Status (Bytes × Bool)

def Saver.result (s : Saver) : BaseResult :=
  match s.status with
  | .error e => .error e
  | .ok () => .ok (s.value, s.isBlobIndex)

/-- `MemTableListVersion::Get`: the first memtable that has the key answers. -/
def memtableListGet : List (List (ValueType × Bytes)) → Option Saver
  | [] => none
  | m :: ms =>
    let s := memtableGet {} m
    if s.foundFinalValue then some s else memtableListGet ms

/-- The SSTs answer with the newest version. -/
def sstGet : List (ValueType × Bytes) → BaseResult
  | [] => .error ⟨.notFound, ""⟩
  | (type, v) :: _ => (saveValue {} type v).1.result

def getImpl (mem : List (ValueType × Bytes)) (imm : List (List (ValueType × Bytes)))
    (ssts : List (ValueType × Bytes)) : BaseResult :=
  let s := memtableGet { pendingCheck := some false } mem
  if s.foundFinalValue then s.result
  else match memtableListGet imm with
    | some s => s.result
    | none => sstGet ssts

/-- `TitanDBImpl::GetImpl`: follow the index the base DB returned. -/
def titanGet {K : Type} (fs : Files K) (base : BaseResult) : Except Status Bytes :=
  match base with
  | .error e => .error e
  | .ok (v, false) => .ok v
  | .ok (v, true) =>
    match BlobIndex.decodeFrom v with
    | .error e => .error e
    | .ok (b, _) => storageGet fs b.ptr

/-! ## Reads of encoded entries -/

def Entry.row (e : Entry) : ValueType × Bytes := (e.type, e.bytes)

theorem saverCheckIsGCWriteBack_encodeTo (b : BlobIndex) :
    saverCheckIsGCWriteBack b.encodeTo = true ↔ b.oldFileNumber ≠ 0 := by
  rw [saverCheckIsGCWriteBack, readTypedFields_encodeTo]
  by_cases h : b.oldFileNumber = 0
  · simp [h]
  · have hpos : b.oldFileNumber > 0 := UInt64.pos_iff_ne_zero.mpr h
    simp [h, hpos, putVarint64_ne_nil]

/-- Where `CheckBlobIndex` leaves a key: at the write-back's new location if it was
copied from where the older index points, else where the older index points. -/
def mergedLocation (p c : BlobIndex) : BlobPtr :=
  if p.oldFileNumber = c.fileNumber ∧ p.oldBlobHandle.offset = c.blobHandle.offset then p.ptr else c.ptr

theorem checkBlobIndex_mergedLocation (p c : BlobIndex) :
    checkBlobIndex p.encodeTo c.encodeTo =
      if p.oldFileNumber = 0 then none else some (mergedLocation p c).plain.encodeTo := by
  rw [checkBlobIndex_encodeTo, mergedLocation]
  have hloc : (p.oldFileNumber, p.oldBlobHandle.offset) = loc c.ptr ↔
      p.oldFileNumber = c.fileNumber ∧ p.oldBlobHandle.offset = c.blobHandle.offset := by
    rw [loc, Prod.mk.injEq]
    rfl
  simp only [hloc]
  split
  · rfl
  · split <;> rfl

/-- The decoders of Titan, of the memtable and of the compaction iterator read the
same locations out of an encoded blob index. -/
theorem decoders_agree (x p c : BlobIndex) :
    BlobIndex.decodeFrom x.encodeTo = .ok
      ({ x with oldBlobHandle := if x.oldFileNumber = 0 then {} else x.oldBlobHandle }, []) ∧
    (saverCheckIsGCWriteBack x.encodeTo = true ↔ x.oldFileNumber > 0) ∧
    (checkBlobIndex p.encodeTo c.encodeTo =
      if p.oldFileNumber = 0 then none else some (mergedLocation p c).plain.encodeTo) ∧
    BlobIndex.decodeFrom (mergedLocation p c).plain.encodeTo = .ok ((mergedLocation p c).plain, []) := by
  refine ⟨?_, ?_, checkBlobIndex_mergedLocation p c, ?_⟩
  · rw [BlobIndex.decodeFrom_encodeTo]
    obtain ⟨fileNumber, blobHandle, oldFileNumber, oldBlobHandle⟩ := x
    by_cases h : oldFileNumber = 0
    · subst h
      rfl
    · have hpos : oldFileNumber > 0 := UInt64.pos_iff_ne_zero.mpr h
      simp only [BlobIndex.normal, hpos, h, ↓reduceIte]
  · rw [saverCheckIsGCWriteBack_encodeTo, gt_iff_lt, UInt64.pos_iff_ne_zero]
  · rw [BlobIndex.decodeFrom_encodeTo, BlobPtr.normal_plain]

/-- The entry that a read of the active memtable stops at: an inline value right
below a write-back wins over it, anything else below it does not. -/
def memVisible : List Entry → Option Entry
  | [] => none
  | .value v :: _ => some (.value v)
  | .blobIndex b :: rest =>
    if b.oldFileNumber = 0 then some (.blobIndex b)
    else match rest with
      | .value v :: _ => some (.value v)
      | _ => some (.blobIndex b)

def entryResult (e : Entry) : BaseResult := .ok (e.bytes, e.type == .blobIndex)

/-- The row that a read of the active memtable stops at. -/
def rowVisible : List (ValueType × Bytes) → Option (ValueType × Bytes)
  | (.blobIndex, v) :: rest =>
    if saverCheckIsGCWriteBack v then
      match rest with
      | [] | (.blobIndex, _) :: _ => some (.blobIndex, v)
      | r :: _ => some r
    else some (.blobIndex, v)
  | rows => rows.head?

def rowResult (r : ValueType × Bytes) : BaseResult := (saveValue {} r.1 r.2).1.result

theorem memtableGet_visible (rows : List (ValueType × Bytes)) :
    let s := memtableGet { pendingCheck := some false } rows
    match rowVisible rows with
    | none => s.foundFinalValue = false
    | some r => s.foundFinalValue = true ∧ s.result = rowResult r := by
  cases rows with
  | nil => rfl
  | cons r rest =>
    obtain ⟨type, v⟩ := r
    cases type with
    | blobIndex =>
      cases h : saverCheckIsGCWriteBack v with
      | false => simp [rowVisible, rowResult, memtableGet, saveValue, Saver.result, h]
      | true =>
        cases rest with
        | nil => simp [rowVisible, rowResult, memtableGet, saveValue, Saver.result, h]
        | cons r rest =>
          obtain ⟨type, v'⟩ := r
          cases type <;> simp [rowVisible, rowResult, memtableGet, saveValue, Saver.result, h]
    | _ => exact ⟨rfl, rfl⟩

theorem memtableListGet_visible (imm : List (List (ValueType × Bytes))) :
    (memtableListGet imm).map Saver.result = imm.flatten.head?.map rowResult := by
  induction imm with
  | nil => rfl
  | cons m imm ih =>
    cases m with
    | nil => exact ih
    | cons r rest =>
      obtain ⟨type, v⟩ := r
      cases type <;> rfl

theorem getImpl_visible (mem : List (ValueType × Bytes)) (imm : List (List (ValueType × Bytes)))
    (ssts : List (ValueType × Bytes)) :
    getImpl mem imm ssts = (((rowVisible mem).or (imm.flatten ++ ssts).head?).map rowResult).getD
      (.error ⟨.notFound, ""⟩) := by
  have hm := memtableGet_visible mem
  have hi := memtableListGet_visible imm
  unfold getImpl
  cases hv : rowVisible mem with
  | some r =>
    rw [hv] at hm
    simp [hm.1, hm.2]
  | none =>
    rw [hv] at hm
    simp only [hm, Bool.false_eq_true, ↓reduceIte, Option.none_or, List.head?_append]
    cases hl : memtableListGet imm with
    | some s =>
      rw [hl, Option.map_some] at hi
      obtain ⟨r, hr, hres⟩ := Option.map_eq_some_iff.mp hi.symm
      simp [hr, hres]
    | none =>
      rw [hl, Option.map_none] at hi
      rw [Option.map_eq_none_iff.mp hi.symm, Option.none_or]
      cases ssts <;> rfl

/-- What a read of the whole LSM stops at. -/
def lsmVisible (mem : List Entry) (imm : List (List Entry)) (ssts : List Entry) : Option Entry :=
  (memVisible mem).or (imm.flatten ++ ssts).head?

theorem getImpl_rows (mem : List Entry) (imm : List (List Entry)) (ssts : List Entry) :
    getImpl (mem.map Entry.row) (imm.map (·.map Entry.row)) (ssts.map Entry.row)
      = (match lsmVisible mem imm ssts with
          | none => .error ⟨.notFound, ""⟩
          | some e => entryResult e) := by
  have hmem : rowVisible (mem.map Entry.row) = (memVisible mem).map Entry.row := by
    cases mem with
    | nil => rfl
    | cons e rest =>
      cases e with
      | value v => rfl
      | blobIndex b =>
        simp only [List.map_cons, Entry.row, Entry.type, Entry.bytes, rowVisible, memVisible,
          saverCheckIsGCWriteBack_encodeTo, ne_eq, ite_not]
        split
        · rfl
        · rcases rest with _ | ⟨_ | _, _⟩ <;> rfl
  have hresult : ∀ e, rowResult (Entry.row e) = entryResult e := by
    intro e
    cases e <;> rfl
  rw [getImpl_visible, hmem, ← List.map_flatten, ← List.map_append, List.head?_map, ← Option.map_or,
    ← lsmVisible]
  cases lsmVisible mem imm ssts with
  | none => rfl
  | some e => exact hresult e

end TitanGC.Offload.Reads
