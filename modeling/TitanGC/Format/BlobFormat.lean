import TitanGC.Format.Coding

/-!
# Blob handles and blob indexes

`BlobHandle` and `BlobIndex` of `blob_format.{h,cc}`. A blob index carries an
old location only when it was written back by an offloaded garbage collection;
`old_file_number > 0` marks it, and only then is the old location encoded.
-/

namespace TitanGC.Format.BlobFormat

open Lib.ByteCoding Coding

structure BlobHandle where
  offset : UInt64 := 0
  size : UInt64 := 0
  index : UInt64 := 0
  deriving Repr, DecidableEq

/-- `operator==` of `BlobHandle` leaves the index out. -/
def BlobHandle.same (a b : BlobHandle) : Bool := a.offset == b.offset && a.size == b.size

def BlobHandle.encodeTo (h : BlobHandle) : Bytes :=
  putVarint64 h.offset ++ (putVarint64 h.size ++ putVarint64 h.index)

def BlobHandle.decodeFrom (src : Bytes) : Except Status (BlobHandle × Bytes) :=
  match getVarint64 src with
  | none => .error (corruption "BlobHandle")
  | some (offset, src) =>
    match getVarint64 src with
    | none => .error (corruption "BlobHandle")
    | some (size, src) =>
      match getVarint64 src with
      | none => .error (corruption "BlobHandle")
      | some (index, src) => .ok (⟨offset, size, index⟩, src)

@[simp] theorem BlobHandle.decodeFrom_encodeTo (h : BlobHandle) (rest : Bytes) :
    BlobHandle.decodeFrom (h.encodeTo ++ rest) = .ok (h, rest) := by
  simp [BlobHandle.decodeFrom, BlobHandle.encodeTo, List.append_assoc]

@[simp] theorem BlobHandle.decodeFrom_encodeTo_end (h : BlobHandle) :
    BlobHandle.decodeFrom h.encodeTo = .ok (h, []) := by
  simpa using BlobHandle.decodeFrom_encodeTo h []

def kBlobRecord : UInt8 := 1

structure BlobIndex where
  fileNumber : UInt64 := 0
  blobHandle : BlobHandle := {}
  oldFileNumber : UInt64 := 0
  oldBlobHandle : BlobHandle := {}
  deriving Repr, DecidableEq

/-- `operator==` of `BlobIndex` compares the current location only. -/
def BlobIndex.same (a b : BlobIndex) : Bool :=
  a.fileNumber == b.fileNumber && a.blobHandle.same b.blobHandle

def BlobIndex.encodeTo (b : BlobIndex) : Bytes :=
  kBlobRecord :: (putVarint64 b.fileNumber ++ (b.blobHandle.encodeTo ++
    if b.oldFileNumber > 0 then putVarint64 b.oldFileNumber ++ b.oldBlobHandle.encodeTo
    else []))

/-- The tail of `BlobIndex::DecodeFrom`: an old location only if bytes are left. -/
def BlobIndex.decodeOld (fileNumber : UInt64) (blobHandle : BlobHandle) (src : Bytes) :
    Except Status (BlobIndex × Bytes) :=
  if src.isEmpty then .ok ({ fileNumber, blobHandle }, src)
  else match getVarint64 src with
    | none => .error (corruption "BlobIndex3")
    | some (oldFileNumber, src) =>
      match BlobHandle.decodeFrom src with
      | .error s => .error (corruption₂ "BlobIndex4" s.toString)
      | .ok (oldBlobHandle, src) => .ok (⟨fileNumber, blobHandle, oldFileNumber, oldBlobHandle⟩, src)

def BlobIndex.decodeFrom (src : Bytes) : Except Status (BlobIndex × Bytes) :=
  match getChar src with
  | none => .error (corruption "BlobIndex1")
  | some (type, src) =>
    if type ≠ kBlobRecord then .error (corruption "BlobIndex1")
    else match getVarint64 src with
      | none => .error (corruption "BlobIndex1")
      | some (fileNumber, src) =>
        match BlobHandle.decodeFrom src with
        | .error s => .error (corruption₂ "BlobIndex2" s.toString)
        | .ok (blobHandle, src) => BlobIndex.decodeOld fileNumber blobHandle src

/-- Where a record is: the part of a blob index that reads follow. -/
structure BlobPtr where
  fileNumber : UInt64 := 0
  blobHandle : BlobHandle := {}
  deriving Repr, DecidableEq

def BlobIndex.ptr (b : BlobIndex) : BlobPtr := ⟨b.fileNumber, b.blobHandle⟩

def BlobPtr.plain (p : BlobPtr) : BlobIndex := { fileNumber := p.fileNumber, blobHandle := p.blobHandle }

@[simp] theorem BlobPtr.ptr_plain (p : BlobPtr) : p.plain.ptr = p := rfl

@[simp] theorem BlobPtr.plain_oldFileNumber (p : BlobPtr) : p.plain.oldFileNumber = 0 := rfl

/-- What decoding gives back: the old handle is lost when there is no old file. -/
def BlobIndex.normal (b : BlobIndex) : BlobIndex :=
  if b.oldFileNumber > 0 then b else b.ptr.plain

@[simp] theorem BlobPtr.normal_plain (p : BlobPtr) : p.plain.normal = p.plain := by
  simp [BlobIndex.normal]

@[simp] theorem BlobIndex.ptr_normal (b : BlobIndex) : b.normal.ptr = b.ptr := by
  unfold BlobIndex.normal; split <;> rfl

theorem BlobIndex.normal_of_isPlain {b : BlobIndex} (h : b.oldFileNumber = 0) :
    b.normal = b.ptr.plain := by
  simp [BlobIndex.normal, h]

/-- Round trip of `EncodeTo` and `DecodeFrom` when the encoding ends the value. -/
@[simp] theorem BlobIndex.decodeFrom_encodeTo (b : BlobIndex) :
    BlobIndex.decodeFrom b.encodeTo = .ok (b.normal, []) := by
  unfold BlobIndex.encodeTo BlobIndex.normal
  by_cases hold : b.oldFileNumber > 0
  · have hne : (putVarint64 b.oldFileNumber ++ b.oldBlobHandle.encodeTo) ≠ [] := by
      simp [putVarint64_ne_nil]
    simp [BlobIndex.decodeFrom, BlobIndex.decodeOld, getChar, hold, hne]
  · simp [BlobIndex.decodeFrom, BlobIndex.decodeOld, getChar, hold, BlobIndex.ptr, BlobPtr.plain]

end TitanGC.Format.BlobFormat
