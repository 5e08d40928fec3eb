import TitanGC.Format.BlobFile
import TitanGC.Format.BlobFormat

/-!
# Building blob files

`BlobFileBuilder` without a dictionary, on a file that takes every append, and the
`BitMap` of a file's records. A built file is its header, its entries one after the
other, and a footer; the handles say where each entry is.
-/

namespace TitanGC.Storage.Builder

open Lib.ByteCoding List Format.Coding Format.BlobFormat Format.BlobFile

structure BlobFileBuilder where
  file : Bytes
  numEntries : Nat

def BlobFileBuilder.new (version : UInt32) : BlobFileBuilder :=
  ⟨({ version } : BlobFileHeader).encodeTo, 0⟩

def BlobFileBuilder.add (c : Compression) (b : BlobFileBuilder) (r : BlobRecord) :
    BlobFileBuilder × BlobHandle :=
  let entry := encodeRecord c r
  (⟨b.file ++ entry, b.numEntries + 1⟩,
    ⟨UInt64.ofNat b.file.length, UInt64.ofNat entry.length, UInt64.ofNat b.numEntries⟩)

def BlobFileBuilder.addAll (c : Compression) (b : BlobFileBuilder) :
    List BlobRecord → BlobFileBuilder × List BlobHandle
  | [] => (b, [])
  | r :: rs =>
    let (b, handle) := b.add c r
    let (b, handles) := b.addAll c rs
    (b, handle :: handles)

def BlobFileBuilder.finish (b : BlobFileBuilder) : Bytes :=
  b.file ++ ({} : BlobFileFooter).encodeTo

/-! ## Uncompressed files -/

def entries (rs : List BlobRecord) : Bytes := rs.flatMap plainEntry

@[simp] theorem entries_nil : entries [] = [] := rfl

@[simp] theorem entries_cons (r : BlobRecord) (rs : List BlobRecord) :
    entries (r :: rs) = plainEntry r ++ entries rs := by simp [entries]

@[simp] theorem entries_append (rs rs' : List BlobRecord) :
    entries (rs ++ rs') = entries rs ++ entries rs' := by simp [entries]

theorem length_le_entries (rs : List BlobRecord) : rs.length ≤ (entries rs).length := by
  induction rs with
  | nil => exact le_rfl
  | cons r rs ih =>
    rw [entries_cons, length_cons, length_append, plainEntry_length, kRecordHeaderSize]
    omega

def handlesFrom (offset index : Nat) : List BlobRecord → List BlobHandle
  | [] => []
  | r :: rs =>
    ⟨UInt64.ofNat offset, UInt64.ofNat (plainEntry r).length, UInt64.ofNat index⟩ ::
      handlesFrom (offset + (plainEntry r).length) (index + 1) rs

theorem addAll_none (b : BlobFileBuilder) (rs : List BlobRecord) :
    b.addAll .none rs =
      (⟨b.file ++ entries rs, b.numEntries + rs.length⟩, handlesFrom b.file.length b.numEntries rs) := by
  induction rs generalizing b with
  | nil => simp [BlobFileBuilder.addAll, handlesFrom]
  | cons r rs ih =>
    simp only [BlobFileBuilder.addAll, BlobFileBuilder.add, encodeRecord_none, ih, handlesFrom,
      entries_cons, append_assoc, length_append, length_cons, Nat.add_assoc,
      Nat.add_comm rs.length 1]

/-- An uncompressed blob file as the builder writes it. -/
structure PlainFile where
  version : UInt32
  records : List BlobRecord
  valid : version = kVersion1 ∨ version = kVersion2

theorem kVersion1_valid : kVersion1 = kVersion1 ∨ kVersion1 = kVersion2 := .inl rfl

variable (f : PlainFile)

namespace PlainFile

def header (f : PlainFile) : BlobFileHeader := { version := f.version }

def image (f : PlainFile) : Bytes :=
  (((BlobFileBuilder.new f.version).addAll .none f.records).1).finish

def handles (f : PlainFile) : List BlobHandle :=
  ((BlobFileBuilder.new f.version).addAll .none f.records).2

theorem plain_header : f.header.Plain := ⟨f.valid, rfl⟩

theorem image_eq :
    f.image = f.header.encodeTo ++ entries f.records ++ ({} : BlobFileFooter).encodeTo := by
  rw [image, addAll_none]
  rfl

theorem handles_eq : f.handles = handlesFrom f.header.size 0 f.records := by
  rw [handles, addAll_none, ← BlobFileHeader.encodeTo_length f.valid]
  rfl

theorem footer_length : ({} : BlobFileFooter).encodeTo.length = kBlobFooterSize := rfl

theorem image_length :
    f.image.length = f.header.size + (entries f.records).length + kBlobFooterSize := by
  rw [image_eq, length_append, length_append, footer_length,
    BlobFileHeader.encodeTo_length f.valid]

end PlainFile

/-! ## Bitmaps -/

/-- One bit for each record, and at least one more, in whole bytes. -/
structure BitMap where
  validBits : Nat
  bits : Bytes
  size : bits.length = (validBits >>> 3) + 1

/-- The bit at a position of a byte, the most significant first. -/
def bitIn (byte : UInt8) (offset : Nat) : Bool := byte.toNat &&& (1 <<< (7 - (offset &&& 7))) ≠ 0

def BitMap.getBit (bm : BitMap) (offset : Nat) : Except Status Bool :=
  if bm.validBits < offset then .error ⟨.invalidArgument, "bit is not an integer or out of range"⟩
  else .ok (bitIn (bm.bits.getD (offset >>> 3) 0) offset)

/-- The bit of a record that the file has. -/
def BitMap.bit (bm : BitMap) (offset : Nat) : Bool := bitIn (bm.bits.getD (offset >>> 3) 0) offset

/-! ## Inputs of a collection -/

/-- A file to collect, with the bitmap of its entries: a set bit is an invalid entry. -/
structure GcInput where
  file : PlainFile
  bitmap : BitMap
  covers : file.records.length ≤ bitmap.validBits

structure GcFile extends GcInput where
  fileNumber : UInt64

/-- A record to keep: which input has it, and the handle the builder gave it there. -/
structure Survivor where
  input : Nat
  record : BlobRecord
  handle : BlobHandle

/-- The records of an input whose bit is clear, with their handles. -/
def GcInput.survivors (f : GcInput) : List (BlobRecord × BlobHandle) :=
  (((f.file.records.zip f.file.handles).zipIdx.filter fun e => !f.bitmap.bit e.2).map (·.1))

/-- In the order of the files, and of the entries of each file. -/
def survivors (fs : List GcInput) (first : Nat) : List Survivor :=
  (fs.zipIdx first).flatMap fun e => e.1.survivors.map fun x => ⟨e.2, x.1, x.2⟩

/-- The survivors among records that stand at an offset, counted from an index. -/
def survivorsFrom (bit : Nat → Bool) (input : Nat) : Nat → Nat → List BlobRecord → List Survivor
  | _, _, [] => []
  | offset, index, r :: rs =>
    let rest := survivorsFrom bit input (offset + (plainEntry r).length) (index + 1) rs
    if bit index then rest
    else ⟨input, r, ⟨UInt64.ofNat offset, UInt64.ofNat (plainEntry r).length,
      UInt64.ofNat index⟩⟩ :: rest

theorem survivorsFrom_eq (bit : Nat → Bool) (input offset index : Nat) (rs : List BlobRecord) :
    survivorsFrom bit input offset index rs =
      ((((rs.zip (handlesFrom offset index rs)).zipIdx index).filter fun e => !bit e.2).map
        (·.1)).map fun x => ⟨input, x.1, x.2⟩ := by
  induction rs generalizing offset index with
  | nil => rfl
  | cons r rs ih =>
    rw [survivorsFrom, handlesFrom, zip_cons_cons, zipIdx_cons, ih]
    cases hbit : bit index <;> simp [hbit]

theorem survivors_cons (f : GcInput) (fs : List GcInput) (first : Nat) :
    survivors (f :: fs) first =
      survivorsFrom f.bitmap.bit first f.file.header.size 0 f.file.records ++
        survivors fs (first + 1) := by
  rw [survivors, zipIdx_cons, flatMap_cons, survivorsFrom_eq, ← PlainFile.handles_eq]
  rfl

theorem mem_survivorsFrom {bit : Nat → Bool} {input offset index : Nat} {rs : List BlobRecord}
    {x : Survivor} (hx : x ∈ survivorsFrom bit input offset index rs) :
    ∃ before after, rs = before ++ x.record :: after ∧ x.input = input ∧
      x.handle = ⟨UInt64.ofNat (offset + (entries before).length),
        UInt64.ofNat (plainEntry x.record).length, UInt64.ofNat (index + before.length)⟩ := by
  induction rs generalizing offset index with
  | nil => exact absurd hx not_mem_nil
  | cons r rs ih =>
    rw [survivorsFrom] at hx
    have hcases : x = ⟨input, r, ⟨UInt64.ofNat offset, UInt64.ofNat (plainEntry r).length,
        UInt64.ofNat index⟩⟩ ∨
        x ∈ survivorsFrom bit input (offset + (plainEntry r).length) (index + 1) rs := by
      split at hx
      · exact .inr hx
      · exact mem_cons.mp hx
    rcases hcases with rfl | hx
    · exact ⟨[], rs, rfl, rfl, rfl⟩
    · obtain ⟨before, after, rfl, hinput, hhandle⟩ := ih hx
      refine ⟨r :: before, after, rfl, hinput, ?_⟩
      rw [hhandle, entries_cons, length_append, length_cons, Nat.add_assoc,
        Nat.add_assoc, Nat.add_comm 1]

variable {fs : List GcInput}

/-- A survivor is an entry of its input, at the place its handle says. -/
theorem mem_survivors {first : Nat} {x : Survivor} (hx : x ∈ survivors fs first) :
    ∃ f before after, first ≤ x.input ∧ fs[x.input - first]? = some f ∧
      f.file.records = before ++ x.record :: after ∧
      x.handle = ⟨UInt64.ofNat (f.file.header.size + (entries before).length),
        UInt64.ofNat (plainEntry x.record).length, UInt64.ofNat before.length⟩ := by
  induction fs generalizing first with
  | nil => exact absurd hx not_mem_nil
  | cons f fs ih =>
    rw [survivors_cons, mem_append] at hx
    rcases hx with hx | hx
    · obtain ⟨before, after, hrecords, hinput, hhandle⟩ := mem_survivorsFrom hx
      refine ⟨f, before, after, hinput.ge, ?_, hrecords, ?_⟩
      · rw [hinput, Nat.sub_self, getElem?_cons_zero]
      · rw [hhandle, Nat.zero_add]
    · obtain ⟨g, before, after, hle, hget, hrecords, hhandle⟩ := ih hx
      refine ⟨g, before, after, by omega, ?_, hrecords, hhandle⟩
      rw [← hget, show x.input - first = x.input - (first + 1) + 1 by omega,
        getElem?_cons_succ]

def totalSize (fs : List GcInput) : Nat := (fs.map fun f => f.file.image.length).sum

@[simp] theorem totalSize_cons (f : GcInput) (fs : List GcInput) :
    totalSize (f :: fs) = f.file.image.length + totalSize fs := rfl

theorem image_length_le_totalSize {f : GcInput} (hf : f ∈ fs) :
    f.file.image.length ≤ totalSize fs := single_le_sum (by simp) _ (mem_map_of_mem hf)

theorem entries_survivorsFrom_le (bit : Nat → Bool) (input offset index : Nat)
    (rs : List BlobRecord) :
    (entries ((survivorsFrom bit input offset index rs).map (·.record))).length ≤
      (entries rs).length := by
  induction rs generalizing offset index with
  | nil => exact le_rfl
  | cons r rs ih =>
    have hrest := ih (offset + (plainEntry r).length) (index + 1)
    rw [survivorsFrom, entries_cons, length_append]
    split
    · omega
    · rw [map_cons, entries_cons, length_append]
      exact Nat.add_le_add_left hrest _

/-- A record that is not kept is no shorter than its header. -/
theorem entries_survivorsFrom_of_set {bit : Nat → Bool} {k : Nat} (hset : bit k = true)
    (input offset index : Nat) (rs : List BlobRecord) (hle : index ≤ k) (hlt : k < index + rs.length) :
    (entries ((survivorsFrom bit input offset index rs).map (·.record))).length + kRecordHeaderSize ≤
      (entries rs).length := by
  induction rs generalizing offset index with
  | nil => exact absurd hlt (by simp only [length_nil]; omega)
  | cons r rs ih =>
    have hlen := plainEntry_length r
    rw [survivorsFrom, entries_cons, length_append]
    by_cases hk : index = k
    · have hrest := entries_survivorsFrom_le bit input (offset + (plainEntry r).length) (index + 1) rs
      rw [if_pos (by rw [hk, hset])]
      omega
    · rw [length_cons] at hlt
      have hrest := ih (offset + (plainEntry r).length) (index + 1) (by omega) (by omega)
      split
      · omega
      · rw [map_cons, entries_cons, length_append, Nat.add_assoc]
        exact Nat.add_le_add_left hrest _

theorem survivorsFrom_of_clear {bit : Nat → Bool} (input offset index : Nat) (rs : List BlobRecord)
    (h : ∀ k, index ≤ k → k < index + rs.length → bit k = false) :
    (survivorsFrom bit input offset index rs).map (·.record) = rs := by
  induction rs generalizing offset index with
  | nil => rfl
  | cons r rs ih =>
    rw [length_cons] at h
    have hclear := h index le_rfl (by omega)
    have hrest := ih (offset + (plainEntry r).length) (index + 1) fun k _ _ => h k (by omega) (by omega)
    rw [survivorsFrom, if_neg (by rw [hclear]; exact Bool.false_ne_true), map_cons, hrest]

/-- What is kept of the entries leaves room for at least a header and a footer per file. -/
theorem entries_survivors_le (fs : List GcInput) (first : Nat) :
    (entries ((survivors fs first).map (·.record))).length + 40 * fs.length ≤ totalSize fs := by
  induction fs generalizing first with
  | nil => exact le_rfl
  | cons f fs ih =>
    have hrest := ih (first + 1)
    have hthis := entries_survivorsFrom_le f.bitmap.bit first f.file.header.size 0 f.file.records
    have hheader : 8 ≤ f.file.header.size := by
      unfold BlobFileHeader.size
      split <;> omega
    rw [survivors_cons, map_append, entries_append, length_append, length_cons,
      totalSize_cons, PlainFile.image_length, kBlobFooterSize]
    omega

end TitanGC.Storage.Builder
