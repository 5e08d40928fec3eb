import TitanGC.Accounting.StorageIndexes
import TitanGC.Storage.BlobFileBuilder

/-!
# Files from a legacy manifest

A record of an older version names a file by number and size only. `DecodeFromLegacy`
leaves the other fields as the value-initialised object has them, zero and empty, and it
makes no bitmap. The file then lives like any other: it is added to a storage, its bitmap
is updated and copied, and a snapshot of the manifest writes it in the new format, from
which the next `Recover` reads it.
-/

namespace TitanGC.Accounting.LegacyFiles

open Lib.ByteCoding Format.Coding List Manifest.VersionEdits StorageIndexes
open Storage.Builder (BitMap)

/-! ## Bitmaps -/

def emptyBitMap (validBits : Nat) : BitMap :=
  ⟨validBits, List.replicate ((validBits >>> 3) + 1) 0, length_replicate⟩

def bitOr (a b : BitMap) : Except Status BitMap :=
  if h : a.validBits = b.validBits then
    .ok ⟨a.validBits, List.zipWith (· ||| ·) a.bits b.bits, by
      rw [length_zipWith, a.size, b.size, h, Nat.min_self]⟩
  else .error ⟨.invalidArgument, "valid bits not match"⟩

/-! ## The object of a file -/

/-- `BlobFileMeta` in memory, with `invalid_entry_indexes_`; a null pointer is `none`. -/
structure MetaObject where
  file : BlobFileMeta
  invalidEntryIndexes : Option BitMap := none

namespace MetaObject

def decodeFromLegacy (src : Bytes) : Except Status (MetaObject × Bytes) :=
  match BlobFileMeta.decodeFromLegacy src with
  | .error e => .error e
  | .ok (file, rest) => .ok (⟨file, none⟩, rest)

def decodeFrom (src : Bytes) : Except Status (MetaObject × Bytes) :=
  match BlobFileMeta.decodeFrom src with
  | .error e => .error e
  | .ok (file, rest) => .ok (⟨file, some (emptyBitMap file.fileEntries.toNat)⟩, rest)

/-- The bitmap is used through its pointer without a check: `none` is the use of a null
pointer. A failed `BitOps` leaves it as it is. -/
def updateInvalidEntryIndexes (o : MetaObject) (invalidBits : BitMap) :
    Option (Option Status × MetaObject) :=
  o.invalidEntryIndexes.map fun bits =>
    match bitOr bits invalidBits with
    | .error e => (some e, o)
    | .ok bits => (none, { o with invalidEntryIndexes := some bits })

/-- `CopyInvalidEntryIndexesTo` a fresh bitmap. -/
def copyInvalidEntryIndexesTo (o : MetaObject) : Option BitMap := o.invalidEntryIndexes

end MetaObject

/-! ## The life of a file -/

section

variable (compare : Bytes → Bytes → Ordering)

structure Life where
  object : MetaObject
  storage : IndexedStorage compare

inductive Op where
  | addBlobFile
  | updateInvalidEntryIndexes (bits : BitMap)
  | copyInvalidEntryIndexesTo
  /-- A snapshot of the manifest is written, and `Recover` reads it into new storages. -/
  | reopen

def Op.isBitMap : Op → Bool
  | .updateInvalidEntryIndexes _ | .copyInvalidEntryIndexesTo => true
  | .addBlobFile | .reopen => false

def Op.isReopen : Op → Bool
  | .reopen => true
  | _ => false

theorem sorted_nil : ([] : List (Bytes × BlobFileMeta)).Pairwise fun a b => compare a.1 b.1 ≠ .gt := .nil

def emptyStorage (numLevels : Nat) : IndexedStorage compare :=
  { files := ⟨[], nodup_nil⟩
    blobRanges := ⟨[], sorted_nil compare⟩
    levelsFileCount := List.replicate numLevels 0 }

variable {compare} [Std.TransCmp compare]

/-- `none` once a level is out of bounds or a null pointer is used. -/
def exec (numLevels : Nat) : Option (Life compare) → Op → Option (Life compare)
  | none, _ => none
  | some s, .addBlobFile =>
    (s.storage.addBlobFile { file := s.object.file }).map fun storage => { s with storage }
  | some s, .updateInvalidEntryIndexes bits =>
    (s.object.updateInvalidEntryIndexes bits).map fun r => { s with object := r.2 }
  | some s, .copyInvalidEntryIndexesTo => s.object.copyInvalidEntryIndexesTo.map fun _ => s
  | some s, .reopen =>
    match MetaObject.decodeFrom s.object.file.encodeTo with
    | .error _ => none
    | .ok (object, _) => some ⟨object, emptyStorage compare numLevels⟩

def run (numLevels : Nat) (s : Option (Life compare)) (ops : List Op) : Option (Life compare) :=
  ops.foldl (exec numLevels) s

/-! ## What each step needs -/

/-- A file as the legacy decoder leaves it. -/
structure IsLegacy (file : BlobFileMeta) : Prop where
  level : file.fileLevel = 0
  keys : file.KeysFit

structure Living (numLevels : Nat) (file : BlobFileMeta) (s : Life compare) : Prop where
  file : s.object.file = file
  levels : s.storage.levelsFileCount.length = numLevels

variable {numLevels : Nat} {file : BlobFileMeta} {s : Life compare}

theorem run_none (ops : List Op) : run numLevels (none : Option (Life compare)) ops = none := by
  induction ops with
  | nil => rfl
  | cons op ops ih => exact ih

/-- An operation that is undefined ends the run. -/
theorem run_stopped {op : Op} (h : exec numLevels (some s) op = none) (ops : List Op) :
    ¬ (run numLevels (some s) (op :: ops)).isSome := by
  have hrun : run numLevels (some s) (op :: ops) = run numLevels none ops := by
    rw [run, foldl_cons, h, ← run]
  rw [hrun, run_none]
  exact Bool.false_ne_true

theorem run_step {op : Op} {t : Life compare} (h : exec numLevels (some s) op = some t) (ops : List Op) :
    run numLevels (some s) (op :: ops) = run numLevels (some t) ops := by
  rw [run, foldl_cons, h, ← run]

theorem Op.kinds (op : Op) : op = .addBlobFile ∨ op = .reopen ∨ op.isBitMap = true := by
  cases op <;> simp [Op.isBitMap]

theorem addBlobFile_spec (hlegacy : IsLegacy file) (hs : Living numLevels file s) :
    (numLevels = 0 ∧ exec numLevels (some s) .addBlobFile = none) ∨
      (0 < numLevels ∧ ∃ t, exec numLevels (some s) .addBlobFile = some t ∧ Living numLevels file t ∧
        t.object = s.object) := by
  have hzero : s.object.file.fileLevel.toNat = 0 := by rw [hs.file, hlegacy.level]; rfl
  rw [exec, IndexedStorage.addBlobFile, addToLevel]
  dsimp only
  rw [hzero, hs.levels]
  rcases Nat.eq_zero_or_pos numLevels with h | h
  · exact .inl ⟨h, by rw [if_neg (by omega)]; rfl⟩
  · rw [if_pos h]
    refine .inr ⟨h, _, rfl, ⟨hs.file, ?_⟩, rfl⟩
    exact (length_modify ..).trans hs.levels

theorem reopen_spec (hlegacy : IsLegacy file) (hs : Living numLevels file s) :
    ∃ t, exec numLevels (some s) .reopen = some t ∧ Living numLevels file t ∧
      t.object.invalidEntryIndexes.isSome := by
  have hdecode := BlobFileMeta.decodeFrom_encodeTo hlegacy.keys []
  rw [append_nil] at hdecode
  rw [exec, hs.file, MetaObject.decodeFrom, hdecode]
  exact ⟨_, rfl, ⟨rfl, length_replicate⟩, rfl⟩

/-- A use of the bitmap needs one, and leaves one. -/
theorem bitMap_spec (hs : Living numLevels file s) {op : Op} (hop : op.isBitMap = true) :
    (s.object.invalidEntryIndexes = none ∧ exec numLevels (some s) op = none) ∨
      (s.object.invalidEntryIndexes.isSome ∧ ∃ t, exec numLevels (some s) op = some t ∧
        Living numLevels file t ∧ t.object.invalidEntryIndexes.isSome) := by
  cases hbits : s.object.invalidEntryIndexes with
  | none =>
    refine .inl ⟨rfl, ?_⟩
    cases op with
    | updateInvalidEntryIndexes bits => rw [exec, MetaObject.updateInvalidEntryIndexes, hbits]; rfl
    | copyInvalidEntryIndexesTo => rw [exec, MetaObject.copyInvalidEntryIndexesTo, hbits]; rfl
    | addBlobFile => cases hop
    | reopen => cases hop
  | some bits =>
    refine .inr ⟨rfl, ?_⟩
    cases op with
    | updateInvalidEntryIndexes invalidBits =>
      rw [exec, MetaObject.updateInvalidEntryIndexes, hbits]
      refine ⟨_, rfl, ?_⟩
      dsimp only
      cases bitOr bits invalidBits with
      | error e => exact ⟨⟨hs.file, hs.levels⟩, by rw [hbits]; rfl⟩
      | ok bits => exact ⟨⟨hs.file, hs.levels⟩, rfl⟩
    | copyInvalidEntryIndexesTo =>
      rw [exec, MetaObject.copyInvalidEntryIndexesTo, hbits]
      exact ⟨s, rfl, hs, by rw [hbits]; rfl⟩
    | addBlobFile => cases hop
    | reopen => cases hop

/-! ## Whole lives -/

/-- With a bitmap, only a storage without levels stops the run. -/
theorem run_with_bitmap (hlegacy : IsLegacy file) (ops : List Op) {s : Life compare}
    (hs : Living numLevels file s) (hbits : s.object.invalidEntryIndexes.isSome) :
    (run numLevels (some s) ops).isSome ↔ (Op.addBlobFile ∈ ops → 0 < numLevels) := by
  induction ops generalizing s with
  | nil => exact iff_of_true rfl fun h => absurd h not_mem_nil
  | cons op ops ih =>
    rcases Op.kinds op with rfl | rfl | hop
    · rcases addBlobFile_spec hlegacy hs with ⟨hzero, hnone⟩ | ⟨hpos, t, ht, hliving, hobject⟩
      · refine iff_of_false (run_stopped hnone ops) (fun h => ?_)
        exact absurd (h mem_cons_self) (by omega)
      · rw [run_step ht, ih hliving (hobject ▸ hbits)]
        exact iff_of_true (fun _ => hpos) (fun _ => hpos)
    · obtain ⟨t, ht, hliving, htbits⟩ := reopen_spec hlegacy hs
      rw [run_step ht, ih hliving htbits, mem_cons, or_iff_right Op.noConfusion]
    · rcases bitMap_spec hs hop with ⟨hnone, -⟩ | ⟨-, t, ht, hliving, htbits⟩
      · rw [hnone] at hbits
        cases hbits
      · have hother : Op.addBlobFile ≠ op := by
          rintro rfl
          cases hop
        rw [run_step ht, ih hliving htbits, mem_cons, or_iff_right hother]

/-- Without a bitmap, its first use before a reopening stops the run as well. -/
theorem run_without_bitmap (hlegacy : IsLegacy file) (ops : List Op) {s : Life compare}
    (hs : Living numLevels file s) (hbits : s.object.invalidEntryIndexes = none) :
    (run numLevels (some s) ops).isSome ↔ (Op.addBlobFile ∈ ops → 0 < numLevels) ∧
      ∀ op ∈ ops.takeWhile (!·.isReopen), op.isBitMap = false := by
  induction ops generalizing s with
  | nil => exact iff_of_true rfl ⟨fun h => absurd h not_mem_nil, forall_mem_nil _⟩
  | cons op ops ih =>
    rcases Op.kinds op with rfl | rfl | hop
    · rw [takeWhile_cons_of_pos rfl, forall_mem_cons]
      rcases addBlobFile_spec hlegacy hs with ⟨hzero, hnone⟩ | ⟨hpos, t, ht, hliving, hobject⟩
      · refine iff_of_false (run_stopped hnone ops) (fun h => ?_)
        exact absurd (h.1 mem_cons_self) (by omega)
      · rw [run_step ht, ih hliving (by rw [hobject, hbits])]
        exact ⟨fun h => ⟨fun _ => hpos, rfl, h.2⟩, fun h => ⟨fun _ => hpos, h.2.2⟩⟩
    · obtain ⟨t, ht, hliving, htbits⟩ := reopen_spec hlegacy hs
      rw [run_step ht, run_with_bitmap hlegacy ops hliving htbits, mem_cons,
        or_iff_right Op.noConfusion, takeWhile_cons_of_neg (by simp [Op.isReopen])]
      exact (and_iff_left (forall_mem_nil _)).symm
    · rcases bitMap_spec hs hop with ⟨-, hnone⟩ | ⟨hsome, -⟩
      · refine iff_of_false (run_stopped hnone ops) (fun h => ?_)
        have hkept : (!op.isReopen) = true := by
          cases op with
          | reopen => cases hop
          | addBlobFile | updateInvalidEntryIndexes _ | copyInvalidEntryIndexesTo => rfl
        have hin : op ∈ (op :: ops).takeWhile (!·.isReopen) := by
          rw [takeWhile_cons, if_pos hkept]
          exact mem_cons_self
        have hfirst := h.2 op hin
        rw [hop] at hfirst
        cases hfirst
      · rw [hbits] at hsome
        cases hsome

end

/-! ## Legacy records -/

/-- What an accepted legacy record is read as: its two numbers, and nothing else. -/
theorem decodeFromLegacy_eq {src rest : Bytes} {file : BlobFileMeta}
    (h : BlobFileMeta.decodeFromLegacy src = .ok (file, rest)) :
    ∃ number size middle, getVarint64 src = some (number, middle) ∧ getVarint64 middle = some (size, rest) ∧
      file = ⟨number, size, 0, 0, [], []⟩ := by
  rw [BlobFileMeta.decodeFromLegacy] at h
  cases hnumber : getVarint64 src with
  | none => rw [hnumber] at h; cases h
  | some n =>
    rw [hnumber] at h
    cases hsize : getVarint64 n.2 with
    | none =>
      simp only [BlobFileMeta.required, bind, Except.bind, hsize] at h
      cases h
    | some z =>
      simp only [BlobFileMeta.required, bind, Except.bind, hsize] at h
      cases h
      exact ⟨n.1, z.1, n.2, rfl, hsize, rfl⟩

theorem isLegacy (number size : UInt64) : IsLegacy ⟨number, size, 0, 0, [], []⟩ :=
  ⟨rfl, Nat.two_pow_pos 32, Nat.two_pow_pos 32⟩

/-- A legacy record that `VersionEdit::DecodeFrom` accepts is read as a file that only
its bytes determine and that the new format gives back; and everything that is done
with the file is defined exactly if it is added to storages with a level and its bitmap
is not used before the file was read back from the new format. -/
theorem legacy_upgrade_iff {compare : Bytes → Bytes → Ordering} [Std.TransCmp compare] (numLevels : Nat)
    {e e' : VersionEdit} {src rest : Bytes} (h : e.decodeField kAddedBlobFile src = .ok (e', rest)) :
    ∃ number size middle, getVarint64 src = some (number, middle) ∧ getVarint64 middle = some (size, rest) ∧
      MetaObject.decodeFromLegacy src = .ok (⟨⟨number, size, 0, 0, [], []⟩, none⟩, rest) ∧
      e' = { e with addedFiles := e.addedFiles ++ [⟨number, size, 0, 0, [], []⟩] } ∧
      BlobFileMeta.decodeFrom (BlobFileMeta.encodeTo ⟨number, size, 0, 0, [], []⟩) =
        .ok (⟨number, size, 0, 0, [], []⟩, []) ∧
      ∀ ops, (run numLevels (some ⟨⟨⟨number, size, 0, 0, [], []⟩, none⟩,
          emptyStorage compare numLevels⟩) ops).isSome ↔
        (Op.addBlobFile ∈ ops → 0 < numLevels) ∧
          ∀ op ∈ ops.takeWhile (!·.isReopen), op.isBitMap = false := by
  rw [VersionEdit.decodeField, if_neg (by decide), if_neg (by decide), if_pos rfl] at h
  cases hdecode : BlobFileMeta.decodeFromLegacy src with
  | error s => rw [hdecode] at h; cases h
  | ok r =>
    rw [hdecode] at h
    cases h
    obtain ⟨number, size, middle, hnumber, hsize, hfile⟩ := decodeFromLegacy_eq hdecode
    have hlegacy := isLegacy number size
    have hnew := BlobFileMeta.decodeFrom_encodeTo hlegacy.keys []
    rw [append_nil] at hnew
    refine ⟨number, size, middle, hnumber, hsize, ?_, by rw [hfile], hnew, fun ops => ?_⟩
    · rw [MetaObject.decodeFromLegacy, hdecode]
      dsimp only
      rw [hfile]
    · exact run_without_bitmap hlegacy ops ⟨rfl, length_replicate⟩ rfl

/-- The record of file 5 with 90 bytes. -/
theorem legacy_upgrade_small :
    ∃ number size middle, getVarint64 [5, 90] = some (number, middle) ∧
      getVarint64 middle = some (size, []) ∧
      (run 7 (some ⟨⟨⟨number, size, 0, 0, [], []⟩, none⟩, emptyStorage (compareOn List.length) 7⟩)
        [.addBlobFile, .reopen, .addBlobFile, .copyInvalidEntryIndexesTo]).isSome := by
  have haccepted : ({} : VersionEdit).decodeField kAddedBlobFile [5, 90] =
      .ok ({ addedFiles := [⟨5, 90, 0, 0, [], []⟩] }, []) := by decide
  obtain ⟨number, size, middle, hnumber, hsize, -, -, -, hrun⟩ :=
    @legacy_upgrade_iff (compareOn List.length) _ 7 _ _ _ _ haccepted
  exact ⟨number, size, middle, hnumber, hsize, (hrun _).mpr ⟨fun _ => by decide, by decide⟩⟩

/-- The file of an accepted legacy record is added to a storage, and a job copies its
bitmap: a null pointer is used. -/
theorem legacy_bitmap_undefined :
    ({} : VersionEdit).decodeField kAddedBlobFile [5, 90] =
        .ok ({ addedFiles := [⟨5, 90, 0, 0, [], []⟩] }, []) ∧
      (run 7 (some ⟨⟨⟨5, 90, 0, 0, [], []⟩, none⟩, emptyStorage (compareOn List.length) 7⟩)
        [.addBlobFile, .copyInvalidEntryIndexesTo]).isSome = false :=
  ⟨by decide, rfl⟩

end TitanGC.Accounting.LegacyFiles
