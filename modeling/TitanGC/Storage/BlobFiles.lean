import TitanGC.Format.BlobFormat

/-!
# Blob files as stores of records

The content of blob files, seen from the LSM: each record has a handle, the key
it was written for and its value. A file is written once; its number is never
used again. `Holds` says that a location holds a record, and two locations that
agree in offset or in index are the same record.
-/

namespace TitanGC.Storage.BlobFiles

open Lib.ByteCoding List Format.Coding Format.BlobFormat

structure Rec (K : Type) where
  handle : BlobHandle
  key : K
  value : Bytes
  deriving Repr, DecidableEq

variable {K : Type}

/-- Records of one file have distinct offsets and distinct indexes. -/
structure RecordsOk (recs : List (Rec K)) : Prop where
  offsets : (recs.map (·.handle.offset)).Nodup
  indexes : (recs.map (·.handle.index)).Nodup

/-- The content of every file ever written, by file number. -/
abbrev Files (K : Type) := UInt64 → Option (List (Rec K))

def Holds (fs : Files K) (p : BlobPtr) (k : K) (v : Bytes) : Prop :=
  ∃ recs, fs p.fileNumber = some recs ∧ (⟨p.blobHandle, k, v⟩ : Rec K) ∈ recs

/-- File numbers start at 1. -/
structure FilesOk (fs : Files K) : Prop where
  records : ∀ f recs, fs f = some recs → RecordsOk recs
  nonzero : fs 0 = none

/-- New files have numbers that `NewFileNumber` has not given out before. -/
def Fresh (fs new : Files K) : Prop :=
  ∀ f recs, new f = some recs → fs f = none ∧ f ≠ 0 ∧ RecordsOk recs

def add (fs new : Files K) : Files K := fun f => (new f).or (fs f)

def single (f : UInt64) (recs : List (Rec K)) : Files K := fun g => if g = f then some recs else none

variable {p q : BlobPtr} {v w : Bytes} {fs new : Files K} {k l : K}

theorem Holds.file_ne_none (h : Holds fs p k v) : fs p.fileNumber ≠ none := by
  obtain ⟨recs, hrecs, -⟩ := h
  simp [hrecs]

theorem holds_add_old (hf : Fresh fs new) (h : Holds fs p k v) : Holds (add fs new) p k v := by
  obtain ⟨recs, hrecs, hmem⟩ := h
  refine ⟨recs, ?_, hmem⟩
  cases hn : new p.fileNumber with
  | none => simp [add, hn, hrecs]
  | some recs' => rw [(hf _ _ hn).1] at hrecs; cases hrecs

theorem holds_add_new (h : Holds new p k v) : Holds (add fs new) p k v := by
  obtain ⟨recs, hrecs, hmem⟩ := h
  exact ⟨recs, by simp [add, hrecs], hmem⟩

theorem add_eq_none {f : UInt64} : add fs new f = none ↔ new f = none ∧ fs f = none := by
  cases h : new f <;> simp [add, h]

theorem filesOk_add (ho : FilesOk fs) (hf : Fresh fs new) : FilesOk (add fs new) where
  records := by
    intro f recs h
    cases hn : new f with
    | none => exact ho.records f recs (by simpa [add, hn] using h)
    | some recs' =>
      obtain rfl : recs' = recs := by simpa [add, hn] using h
      exact (hf f recs' hn).2.2
  nonzero := by
    rw [add_eq_none]
    refine ⟨?_, ho.nonzero⟩
    cases hn : new 0 with
    | none => rfl
    | some recs => exact absurd rfl (hf 0 recs hn).2.1

/-- A file number and a part of the handle that no two records of a file share determine
the record. -/
theorem holds_eq_of {α : Type} {part : BlobHandle → α}
    (hpart : ∀ f recs, fs f = some recs → (recs.map fun r => part r.handle).Nodup) (hp : Holds fs p k v)
    (hq : Holds fs q l w) (hf : p.fileNumber = q.fileNumber) (heq : part p.blobHandle = part q.blobHandle) :
    p = q ∧ k = l ∧ v = w := by
  obtain ⟨recs, hrecs, hmem⟩ := hp
  obtain ⟨recs', hrecs', hmem'⟩ := hq
  obtain rfl : recs = recs' := by simpa [← hf, hrecs] using hrecs'
  have he := inj_on_of_nodup_map (hpart _ _ hrecs) hmem hmem' heq
  simp only [Rec.mk.injEq] at he
  obtain ⟨hh, hk, hv⟩ := he
  refine ⟨?_, hk, hv⟩
  cases p; cases q
  simp_all

theorem holds_eq_of_offset (ho : FilesOk fs) (hp : Holds fs p k v) (hq : Holds fs q l w)
    (hf : p.fileNumber = q.fileNumber) (hoff : p.blobHandle.offset = q.blobHandle.offset) :
    p = q ∧ k = l ∧ v = w :=
  holds_eq_of (fun f recs hrecs => (ho.records f recs hrecs).offsets) hp hq hf hoff

theorem holds_eq_of_index (ho : FilesOk fs) (hp : Holds fs p k v) (hq : Holds fs q l w)
    (hf : p.fileNumber = q.fileNumber) (hidx : p.blobHandle.index = q.blobHandle.index) :
    p = q ∧ k = l ∧ v = w :=
  holds_eq_of (fun f recs hrecs => (ho.records f recs hrecs).indexes) hp hq hf hidx

/-- `BlobStorage::Get` over the files that the storage still has. -/
def storageGet (fs : Files K) (p : BlobPtr) : Except Status Bytes :=
  match fs p.fileNumber with
  | none => .error (corruption ("Missing blob file: " ++ toString p.fileNumber.toNat))
  | some recs =>
    match recs.find? fun r => r.handle.same p.blobHandle with
    | none => .error (corruption "BlobRecord")
    | some r => .ok r.value

theorem storageGet_of_holds (ho : FilesOk fs) (h : Holds fs p k v) : storageGet fs p = .ok v := by
  obtain ⟨recs, hrecs, hmem⟩ := h
  have hsome : (recs.find? fun r => r.handle.same p.blobHandle).isSome := by
    rw [find?_isSome]
    exact ⟨_, hmem, by simp [BlobHandle.same]⟩
  obtain ⟨r, hr⟩ := Option.isSome_iff_exists.mp hsome
  have hsame := find?_some hr
  simp only [BlobHandle.same, Bool.and_eq_true, beq_iff_eq] at hsame
  have heq := inj_on_of_nodup_map (ho.records _ _ hrecs).offsets (mem_of_find?_eq_some hr) hmem
    hsame.1
  simp [storageGet, hrecs, hr, heq]

end TitanGC.Storage.BlobFiles
