import TitanGC.Offload.Reads

/-!
# Versions with tombstones

What the LSM stores for a key when users delete as well: inline values, blob
indexes and tombstones, each with its sequence number. `Preprocess` asserts that
it meets no tombstone, and without the assertion it goes on: a tombstone on top
is kept, one below a blob index is decoded as if it were an index. `absorb_kv`
says what the bytes become, `getImpl_stored` what a read finds.
-/

namespace TitanGC.Offload.Tombstones

open Lib.ByteCoding List Format.Coding Format.BlobFormat Compaction.Iterator Compaction.Merge
open Storage.BlobFiles Reads

inductive Stored where
  | value (v : Bytes)
  | index (b : BlobIndex)
  | tombstone
  deriving Repr, DecidableEq

namespace Stored

def type : Stored → ValueType
  | .value _ => .value
  | .index _ => .blobIndex
  | .tombstone => .deletion

def bytes : Stored → Bytes
  | .value v => v
  | .index b => b.encodeTo
  | .tombstone => []

def row (e : Stored) : ValueType × Bytes := (e.type, e.bytes)

def IsWriteBack : Stored → Prop
  | .index b => b.oldFileNumber ≠ 0
  | _ => False

instance : DecidablePred IsWriteBack
  | .index b => inferInstanceAs (Decidable (b.oldFileNumber ≠ 0))
  | .value _ => instDecidableFalse
  | .tombstone => instDecidableFalse

def ptr? : Stored → Option BlobPtr
  | .index b => some b.ptr
  | _ => none

def value? : Stored → Option Bytes
  | .value v => some v
  | _ => none

end Stored

abbrev Versioned := Nat × Stored

section

variable {K : Type}

def kv (k : K) (e : Versioned) : Kv K := ⟨⟨k, e.1, e.2.type⟩, e.2.bytes⟩

/-- The case split of `Preprocess` on versions. The fields that `CheckBlobIndex`
reads from the empty value of a tombstone stay zero. -/
def absorb : Versioned → Versioned → Versioned
  | (_, .index _), (n, .value v) => (n, .value v)
  | (m, .index p), (_, .index c) =>
    if p.oldFileNumber = 0 then (m, .index p)
    else if (p.oldFileNumber, p.oldBlobHandle.offset) = loc c.ptr then (m, .index p.ptr.plain)
    else (m, .index c.ptr.plain)
  | (m, .index p), (_, .tombstone) =>
    if p.oldFileNumber = 0 then (m, .index p) else (m, .index (BlobPtr.plain {}))
  | (m, .value v), _ => (m, .value v)
  | (m, .tombstone), _ => (m, .tombstone)

theorem checkBlobIndex_tombstone (p : BlobIndex) :
    checkBlobIndex p.encodeTo [] =
      if p.oldFileNumber = 0 then none else some (BlobPtr.plain {}).encodeTo := by
  rw [checkBlobIndex_fields p (c := {}) rfl]
  by_cases hp : p.oldFileNumber = 0
  · simp [hp]
  · -- the old file number is not zero, so the locations cannot be equal
    simp [hp, loc]

theorem absorb_kv (k : K) (a b : Versioned) :
    Compaction.Iterator.absorb (kv k a) (kv k b) = kv k (absorb a b) := by
  obtain ⟨m, a⟩ := a
  obtain ⟨n, b⟩ := b
  cases a with
  | value v => rfl
  | tombstone => rfl
  | index p =>
    cases b with
    | value v => rfl
    | index c =>
      simp only [Compaction.Iterator.absorb, kv, Stored.type, Stored.bytes, reduceCtorEq, ↓reduceIte,
        checkBlobIndex_encodeTo, absorb]
      by_cases hp : p.oldFileNumber = 0
      · simp [hp]
      · by_cases hl : (p.oldFileNumber, p.oldBlobHandle.offset) = loc c.ptr <;> simp [hp, hl]
    | tombstone =>
      simp only [Compaction.Iterator.absorb, kv, Stored.type, Stored.bytes, reduceCtorEq, ↓reduceIte,
        checkBlobIndex_tombstone, absorb]
      by_cases hp : p.oldFileNumber = 0 <;> simp [hp]

/-- Where no version is a tombstone. -/
def Stored.ofEntry : Entry → Stored
  | .value v => .value v
  | .blobIndex b => .index b

theorem absorb_ofEntry (m n : Nat) (a b : Entry) :
    (absorb (m, .ofEntry a) (n, .ofEntry b)).2 = .ofEntry (a.absorb b) := by
  cases a with
  | value v => rfl
  | blobIndex p =>
    cases b with
    | value v => rfl
    | blobIndex c =>
      simp only [absorb, Entry.absorb, Stored.ofEntry]
      split
      · rfl
      · split <;> rfl

def merge : List Versioned → Option Versioned
  | [] => none
  | e :: es => some (es.foldl absorb e)

variable [DecidableEq K]

theorem collapse_kv (k : K) (es : List Versioned) (e : Versioned) :
    collapse (kv k e) (es.map (kv k)) = [kv k (es.foldl absorb e)] := by
  induction es generalizing e with
  | nil => rfl
  | cons c es ih =>
    have hkey : (kv k c).key.userKey = (kv k e).key.userKey := rfl
    rw [map_cons, collapse, if_pos hkey, absorb_kv, ih]
    rfl

/-- `Preprocess` on the bytes of one key is `merge` on its versions. -/
theorem preprocess_kv (k : K) (es : List Versioned) :
    preprocess (es.map (kv k)) = (merge es).toList.map (kv k) := by
  cases es with
  | nil => rfl
  | cons e es => rw [map_cons, preprocess_cons, collapse_kv]; rfl

end

/-! ## What a merge leaves -/

variable {p : BlobIndex}

section

theorem foldl_absorb_value (n : Nat) (v : Bytes) (es : List Versioned) :
    es.foldl absorb (n, .value v) = (n, .value v) := by
  induction es with
  | nil => rfl
  | cons e es ih => exact ih

theorem foldl_absorb_tombstone (n : Nat) (es : List Versioned) :
    es.foldl absorb (n, .tombstone) = (n, .tombstone) := by
  induction es with
  | nil => rfl
  | cons e es ih => exact ih

/-- Below a plain index only an inline value counts, wherever it lies. -/
def firstValue (es : List Versioned) : Option (Nat × Bytes) :=
  es.findSome? fun e => e.2.value?.map fun v => (e.1, v)

theorem foldl_absorb_plain (hp : p.oldFileNumber = 0) (n : Nat) (es : List Versioned) :
    es.foldl absorb (n, .index p)
      = (match firstValue es with | some (m, v) => (m, .value v) | none => (n, .index p)) := by
  induction es with
  | nil => rfl
  | cons e es ih =>
    obtain ⟨m, e⟩ := e
    cases e with
    | value v => exact foldl_absorb_value m v es
    | index c =>
      rw [foldl_cons, absorb, if_pos hp]
      exact ih
    | tombstone =>
      rw [foldl_cons, absorb, if_pos hp]
      exact ih

/-- The location that a write-back leaves when an index lies right below it. -/
def settled (p c : BlobIndex) : BlobPtr :=
  if (p.oldFileNumber, p.oldBlobHandle.offset) = loc c.ptr then p.ptr else c.ptr

theorem absorb_writeBack_index (hp : p.oldFileNumber ≠ 0) (m n : Nat) (c : BlobIndex) :
    absorb (m, .index p) (n, .index c) = (m, .index (settled p c).plain) := by
  simp only [absorb, hp, ↓reduceIte, settled]
  split <;> rfl

theorem absorb_writeBack_tombstone (hp : p.oldFileNumber ≠ 0) (m n : Nat) :
    absorb (m, .index p) (n, .tombstone) = (m, .index (BlobPtr.plain {})) := by
  simp [absorb, hp]

end

/-! ## Reads -/

section

inductive Found where
  | value (v : Bytes)
  | record (p : BlobPtr)
  deriving Repr, DecidableEq

/-- The base result as `TitanDBImpl::GetImpl` takes it. -/
def found : BaseResult → Except Status Found
  | .error e => .error e
  | .ok (v, false) => .ok (.value v)
  | .ok (v, true) =>
    match BlobIndex.decodeFrom v with
    | .error e => .error e
    | .ok (b, _) => .ok (.record b.ptr)

def follow {K : Type} (fs : Files K) : Except Status Found → Except Status Bytes
  | .error e => .error e
  | .ok (.value v) => .ok v
  | .ok (.record p) => storageGet fs p

/-- A Titan read depends on the base result only through what is found. -/
theorem titanGet_eq_follow {K : Type} (fs : Files K) (base : BaseResult) :
    titanGet fs base = follow fs (found base) := by
  cases base with
  | error e => rfl
  | ok r =>
    obtain ⟨v, isBlob⟩ := r
    cases isBlob with
    | false => rfl
    | true =>
      cases h : BlobIndex.decodeFrom v with
      | error e => simp [titanGet, found, follow, h]
      | ok r => simp [titanGet, found, follow, h]

def notFound : Status := ⟨.notFound, ""⟩

/-- What the version that a read stops at stands for. -/
def Stored.found : Option Stored → Except Status Found
  | some (.value v) => .ok (.value v)
  | some (.index b) => .ok (.record b.ptr)
  | some .tombstone => .error notFound
  | none => .error notFound

/-- The version that a read of the active memtable stops at: `pending_check` goes
one version below a write-back, and an inline value or a tombstone there wins. -/
def memVisible : List Stored → Option Stored
  | [] => none
  | .index b :: rest =>
    if b.oldFileNumber = 0 then some (.index b)
    else match rest with
      | .value v :: _ => some (.value v)
      | .tombstone :: _ => some .tombstone
      | _ => some (.index b)
  | e :: _ => some e

/-- A read without a snapshot, or at one, over the versions it can see. -/
theorem getImpl_stored (mem : List Stored) (imm : List (List Stored)) (ssts : List Stored) :
    found (getImpl (mem.map Stored.row) (imm.map (·.map Stored.row)) (ssts.map Stored.row))
      = Stored.found ((memVisible mem).or (imm.flatten ++ ssts).head?) := by
  have hmem : rowVisible (mem.map Stored.row) = (memVisible mem).map Stored.row := by
    cases mem with
    | nil => rfl
    | cons e rest =>
      cases e with
      | index b =>
        simp only [map_cons, Stored.row, Stored.type, Stored.bytes, rowVisible, memVisible,
          saverCheckIsGCWriteBack_encodeTo, ne_eq, ite_not]
        split
        · rfl
        · rcases rest with _ | ⟨_ | _ | _, _⟩ <;> rfl
      | _ => rfl
  rw [getImpl_visible, hmem, ← map_flatten, ← map_append, head?_map, ← Option.map_or]
  cases (memVisible mem).or (imm.flatten ++ ssts).head? with
  | none => rfl
  | some e =>
    cases e with
    | index b =>
      show found (.ok (b.encodeTo, true)) = .ok (.record b.ptr)
      simp [found]
    | _ => rfl

end

end TitanGC.Offload.Tombstones
