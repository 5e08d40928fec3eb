import TitanGC.Manifest.VersionEdits

/-!
# The records of the manifest

`BlobFileMeta` and `VersionEdit` as bytes (`blob_format.cc`, `version_edit.cc`).
An edit is a list of tagged fields. The sequence number at which a file became
obsolete is not written, and reads back as zero; everything else round-trips.
-/

namespace TitanGC.Manifest.VersionEdits

open Lib.ByteCoding List Format.Coding

def kNextFileNumber : UInt32 := 1
def kColumnFamilyID : UInt32 := 10
/-- A file without entry count, level and key range, from older versions. -/
def kAddedBlobFile : UInt32 := 11
def kDeletedBlobFile : UInt32 := 12
def kAddedBlobFileV2 : UInt32 := 13

/-! ## Blob file metadata -/

namespace BlobFileMeta

def encodeTo (f : BlobFileMeta) : Bytes :=
  putVarint64 f.fileNumber ++ (putVarint64 f.fileSize ++ (putVarint64 f.fileEntries ++
    (putVarint32 f.fileLevel ++
      (putLengthPrefixedSlice f.smallestKey ++ putLengthPrefixedSlice f.largestKey))))

def required {α : Type} (msg : String) : Option α → Except Status α
  | some a => .ok a
  | none => .error (corruption msg)

def decodeFromLegacy (src : Bytes) : Except Status (BlobFileMeta × Bytes) := do
  let (fileNumber, src) ← required "BlobFileMeta decode legacy failed" (getVarint64 src)
  let (fileSize, src) ← required "BlobFileMeta decode legacy failed" (getVarint64 src)
  pure ({ fileNumber, fileSize }, src)

def decodeFrom (src : Bytes) : Except Status (BlobFileMeta × Bytes) := do
  let (fileNumber, src) ← required "BlobFileMeta decode failed" (getVarint64 src)
  let (fileSize, src) ← required "BlobFileMeta decode failed" (getVarint64 src)
  let (fileEntries, src) ← required "BlobFileMeta decode failed" (getVarint64 src)
  let (fileLevel, src) ← required "BlobFileMeta decode failed" (getVarint32 src)
  let (smallestKey, src) ← required "BlobSmallestKey Decode failed" (getLengthPrefixedSlice src)
  let (largestKey, src) ← required "BlobLargestKey decode failed" (getLengthPrefixedSlice src)
  pure (⟨fileNumber, fileSize, fileEntries, fileLevel, smallestKey, largestKey⟩, src)

/-- Lengths of keys are written in 32 bits. -/
def KeysFit (f : BlobFileMeta) : Prop := f.smallestKey.length < 2 ^ 32 ∧ f.largestKey.length < 2 ^ 32

instance (f : BlobFileMeta) : Decidable f.KeysFit := inferInstanceAs (Decidable (_ ∧ _))

theorem decodeFrom_encodeTo {f : BlobFileMeta} (h : f.KeysFit) (rest : Bytes) :
    decodeFrom (f.encodeTo ++ rest) = .ok (f, rest) := by
  simp only [decodeFrom, encodeTo, append_assoc, getVarint64_putVarint64, getVarint32_putVarint32,
    getLengthPrefixedSlice_putLengthPrefixedSlice h.1,
    getLengthPrefixedSlice_putLengthPrefixedSlice h.2, required, bind, Except.bind]
  rfl

end BlobFileMeta

/-! ## Version edits -/

namespace VersionEdit

def encodeNextFileNumber : Option UInt64 → Bytes
  | some n => putVarint32 kNextFileNumber ++ putVarint64 n
  | none => []

def encodeTo (e : VersionEdit) : Bytes :=
  (encodeNextFileNumber e.nextFileNumber ++
    (putVarint32 kColumnFamilyID ++ putVarint32 e.columnFamilyId)) ++
  (e.addedFiles.flatMap (fun f => putVarint32 kAddedBlobFileV2 ++ f.encodeTo) ++
    e.deletedFiles.flatMap (fun f => putVarint32 kDeletedBlobFile ++ putVarint64 f.1))

/-- One field of `DecodeFrom`; the error is the text that ends the loop. -/
def decodeField (e : VersionEdit) (tag : UInt32) (src : Bytes) : Except String (VersionEdit × Bytes) :=
  if tag = kNextFileNumber then
    match getVarint64 src with
    | some (n, src) => .ok ({ e with nextFileNumber := some n }, src)
    | none => .error "next file number"
  else if tag = kColumnFamilyID then
    match getVarint32 src with
    | some (cf, src) => .ok ({ e with columnFamilyId := cf }, src)
    | none => .error "column family id"
  else if tag = kAddedBlobFile then
    match BlobFileMeta.decodeFromLegacy src with
    | .ok (f, src) => .ok ({ e with addedFiles := e.addedFiles ++ [f] }, src)
    | .error s => .error s.toString
  else if tag = kAddedBlobFileV2 then
    match BlobFileMeta.decodeFrom src with
    | .ok (f, src) => .ok ({ e with addedFiles := e.addedFiles ++ [f] }, src)
    | .error s => .error s.toString
  else if tag = kDeletedBlobFile then
    match getVarint64 src with
    | some (n, src) => .ok ({ e with deletedFiles := e.deletedFiles ++ [(n, 0)] }, src)
    | none => .error "deleted blob file"
  else .error "unknown tag"

/-- The loop of `DecodeFrom`. A field takes at least one byte, so the fuel of
`decodeFrom` does not run out. -/
def decodeFields : Nat → VersionEdit → Bytes → Except String VersionEdit
  | 0, _, _ => .error "unknown tag"
  | fuel + 1, e, src =>
    if src.isEmpty then .ok e
    else match getVarint32 src with
      | none => .error "invalid tag"
      | some (tag, src) =>
        match e.decodeField tag src with
        | .error error => .error error
        | .ok (e, src) => decodeFields fuel e src

/-- Nothing of the record is left when the loop ends well, so `DecodeInto` adds no
check of its own. -/
def decodeFrom (src : Bytes) : Except Status VersionEdit :=
  match decodeFields (src.length + 1) {} src with
  | .ok e => .ok e
  | .error error => .error (corruption₂ "VersionEdit" error)

def persistent (e : VersionEdit) : VersionEdit :=
  { e with deletedFiles := e.deletedFiles.map fun f => (f.1, 0) }

def KeysFit (e : VersionEdit) : Prop := ∀ f ∈ e.addedFiles, f.KeysFit

instance (e : VersionEdit) : Decidable e.KeysFit :=
  inferInstanceAs (Decidable (∀ f ∈ e.addedFiles, f.KeysFit))

/-- One turn of the loop, for any field that decodes. -/
theorem decodeFields_field {e e' : VersionEdit} {tag : UInt32} {body rest : Bytes} {fuel : Nat}
    (hfield : e.decodeField tag (body ++ rest) = .ok (e', rest))
    (hfuel : (putVarint32 tag ++ (body ++ rest)).length < fuel) :
    ∃ fuel', rest.length < fuel' ∧
      decodeFields fuel e (putVarint32 tag ++ (body ++ rest)) = decodeFields fuel' e' rest := by
  obtain ⟨fuel', rfl⟩ : ∃ k, fuel = k + 1 := ⟨fuel - 1, by omega⟩
  have hne : putVarint32 tag ≠ [] := encodeVarint_ne_nil _ _
  have hpos : 0 < (putVarint32 tag).length := length_pos_iff.mpr hne
  refine ⟨fuel', ?_, ?_⟩
  · simp only [length_append] at hfuel
    omega
  · rw [decodeFields, if_neg (by simp [hne]), getVarint32_putVarint32]
    simp only [hfield]

theorem decodeFields_added (files : List BlobFileMeta) (h : ∀ f ∈ files, f.KeysFit) (e : VersionEdit)
    (rest : Bytes) (fuel : Nat)
    (hfuel : (files.flatMap (fun f => putVarint32 kAddedBlobFileV2 ++ f.encodeTo) ++ rest).length < fuel) :
    ∃ fuel', rest.length < fuel' ∧
      decodeFields fuel e
        (files.flatMap (fun f => putVarint32 kAddedBlobFileV2 ++ f.encodeTo) ++ rest)
      = decodeFields fuel' { e with addedFiles := e.addedFiles ++ files } rest := by
  induction files generalizing e fuel with
  | nil => exact ⟨fuel, by simpa using hfuel, by simp⟩
  | cons f files ih =>
    simp only [flatMap_cons, append_assoc] at hfuel ⊢
    have hfield : e.decodeField kAddedBlobFileV2 (f.encodeTo ++
        (files.flatMap (fun f => putVarint32 kAddedBlobFileV2 ++ f.encodeTo) ++ rest))
        = .ok ({ e with addedFiles := e.addedFiles ++ [f] },
          files.flatMap (fun f => putVarint32 kAddedBlobFileV2 ++ f.encodeTo) ++ rest) := by
      rw [decodeField, if_neg (by decide), if_neg (by decide), if_neg (by decide),
        if_pos rfl, BlobFileMeta.decodeFrom_encodeTo (h f mem_cons_self)]
    obtain ⟨fuel₁, hfuel₁, hstep⟩ := decodeFields_field hfield hfuel
    obtain ⟨fuel₂, hfuel₂, hrest⟩ := ih (fun g hg => h g (mem_cons_of_mem _ hg))
      { e with addedFiles := e.addedFiles ++ [f] } fuel₁ hfuel₁
    exact ⟨fuel₂, hfuel₂, by rw [hstep, hrest]; simp⟩

theorem decodeFields_deleted (files : List (UInt64 × Nat)) (e : VersionEdit) (fuel : Nat)
    (hfuel : (files.flatMap (fun f => putVarint32 kDeletedBlobFile ++ putVarint64 f.1)).length < fuel) :
    decodeFields fuel e (files.flatMap (fun f => putVarint32 kDeletedBlobFile ++ putVarint64 f.1))
      = .ok { e with deletedFiles := e.deletedFiles ++ files.map fun f => (f.1, 0) } := by
  induction files generalizing e fuel with
  | nil =>
    obtain ⟨fuel', rfl⟩ : ∃ k, fuel = k + 1 := ⟨fuel - 1, by simp at hfuel; omega⟩
    simp [decodeFields]
  | cons f files ih =>
    simp only [flatMap_cons, append_assoc] at hfuel ⊢
    have hfield : e.decodeField kDeletedBlobFile (putVarint64 f.1 ++
        files.flatMap (fun f => putVarint32 kDeletedBlobFile ++ putVarint64 f.1))
        = .ok ({ e with deletedFiles := e.deletedFiles ++ [(f.1, 0)] },
          files.flatMap (fun f => putVarint32 kDeletedBlobFile ++ putVarint64 f.1)) := by
      rw [decodeField, if_neg (by decide), if_neg (by decide), if_neg (by decide),
        if_neg (by decide), if_pos rfl, getVarint64_putVarint64]
    obtain ⟨fuel₁, hfuel₁, hstep⟩ := decodeFields_field hfield hfuel
    rw [hstep, ih { e with deletedFiles := e.deletedFiles ++ [(f.1, 0)] } fuel₁ hfuel₁]
    simp

/-- The column family id of a record, with the next file number before it if there
is one. -/
theorem decodeFields_head (next : Option UInt64) (cf : UInt32) (rest : Bytes) (fuel : Nat)
    (hfuel : ((encodeNextFileNumber next ++ (putVarint32 kColumnFamilyID ++ putVarint32 cf)) ++
      rest).length < fuel) :
    ∃ fuel', rest.length < fuel' ∧
      decodeFields fuel {}
        ((encodeNextFileNumber next ++ (putVarint32 kColumnFamilyID ++ putVarint32 cf)) ++ rest)
      = decodeFields fuel' { nextFileNumber := next, columnFamilyId := cf } rest := by
  have hcf : ∀ e : VersionEdit, e.decodeField kColumnFamilyID (putVarint32 cf ++ rest)
      = .ok ({ e with columnFamilyId := cf }, rest) := by
    intro e
    rw [decodeField, if_neg (by decide), if_pos rfl, getVarint32_putVarint32]
  cases next with
  | none =>
    simp only [encodeNextFileNumber, nil_append, append_assoc] at hfuel ⊢
    exact decodeFields_field (hcf {}) hfuel
  | some n =>
    simp only [encodeNextFileNumber, append_assoc] at hfuel ⊢
    have hnext : ({} : VersionEdit).decodeField kNextFileNumber (putVarint64 n ++
        (putVarint32 kColumnFamilyID ++ (putVarint32 cf ++ rest)))
        = .ok ({ nextFileNumber := some n }, putVarint32 kColumnFamilyID ++ (putVarint32 cf ++ rest)) := by
      rw [decodeField, if_pos rfl, getVarint64_putVarint64]
    obtain ⟨fuel₁, hfuel₁, hstep⟩ := decodeFields_field hnext hfuel
    obtain ⟨fuel₂, hfuel₂, hstep₂⟩ :=
      decodeFields_field (hcf { nextFileNumber := some n }) hfuel₁
    exact ⟨fuel₂, hfuel₂, by rw [hstep, hstep₂]⟩

/-- A record reads back as the edit that was written. -/
theorem decodeFrom_encodeTo {e : VersionEdit} (h : e.KeysFit) :
    decodeFrom e.encodeTo = .ok e.persistent := by
  obtain ⟨fuel₁, hfuel₁, hhead⟩ := decodeFields_head e.nextFileNumber e.columnFamilyId
    (e.addedFiles.flatMap (fun f => putVarint32 kAddedBlobFileV2 ++ f.encodeTo) ++
      e.deletedFiles.flatMap (fun f => putVarint32 kDeletedBlobFile ++ putVarint64 f.1))
    (e.encodeTo.length + 1) (Nat.lt_succ_self _)
  obtain ⟨fuel₂, hfuel₂, hadded⟩ := decodeFields_added e.addedFiles h
    { nextFileNumber := e.nextFileNumber, columnFamilyId := e.columnFamilyId } _ fuel₁ hfuel₁
  have hdeleted := decodeFields_deleted e.deletedFiles
    { nextFileNumber := e.nextFileNumber, columnFamilyId := e.columnFamilyId
      addedFiles := e.addedFiles } fuel₂ hfuel₂
  have hall : decodeFields (e.encodeTo.length + 1) {} e.encodeTo = .ok e.persistent :=
    hhead.trans (hadded.trans hdeleted)
  rw [decodeFrom, hall]

/-- Every edit whose keys RocksDB accepts reads back from its record: with the next
file number if there is one, the column family, the added files in order and whole,
and the deleted numbers in order. -/
theorem record_round_trip (e : VersionEdit) (h : e.KeysFit) :
    ∃ d, decodeFrom e.encodeTo = .ok d ∧ d.nextFileNumber = e.nextFileNumber ∧
      d.columnFamilyId = e.columnFamilyId ∧ d.addedFiles = e.addedFiles ∧
      d.deletedFiles.map (·.1) = e.deletedFiles.map (·.1) := by
  refine ⟨e.persistent, decodeFrom_encodeTo h, rfl, rfl, rfl, ?_⟩
  rw [persistent, map_map]
  rfl

/-- Keys with zero bytes, and a key that is a prefix of the other. -/
theorem record_round_trip_two_files :
    ∃ d, decodeFrom (encodeTo ⟨some 9, 2, [⟨3, 40, 2, 6, [0, 1], [0, 1, 0]⟩, ⟨5, 60, 1, 0, [], [7]⟩],
        [(7, 12), (8, 30)]⟩) = .ok d ∧ d.nextFileNumber = some 9 ∧ d.columnFamilyId = 2 ∧
      d.addedFiles = [⟨3, 40, 2, 6, [0, 1], [0, 1, 0]⟩, ⟨5, 60, 1, 0, [], [7]⟩] ∧
      d.deletedFiles.map (·.1) = [7, 8] :=
  record_round_trip ⟨some 9, 2, [⟨3, 40, 2, 6, [0, 1], [0, 1, 0]⟩, ⟨5, 60, 1, 0, [], [7]⟩],
    [(7, 12), (8, 30)]⟩ (by decide)

end VersionEdit

end TitanGC.Manifest.VersionEdits
