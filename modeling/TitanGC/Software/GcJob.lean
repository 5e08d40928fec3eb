import TitanGC.Offload.Reads

/-!
# The functions of a software garbage collection job

What `BlobGCJob::DoRunGC` decides about each record of its inputs, and the check
that `GarbageCollectionWriteCallback` makes before a rewritten key goes back to
the LSM. Both read the newest version of the key from the base DB.
-/

namespace TitanGC.Software.GcJob

open Lib.ByteCoding Format.Coding Format.BlobFormat Storage.BlobFiles
open Offload.Reads (BaseResult)

abbrev Key := Bytes

inductive Slot where
  | value (v : Bytes)
  | deletion
  | index (p : BlobPtr)
  deriving Repr, DecidableEq

/-- `DBImpl::GetImpl` on the version that a read finds. -/
def baseResult : Option Slot → BaseResult
  | none | some .deletion => .error ⟨.notFound, ""⟩
  | some (.value v) => .ok (v, false)
  | some (.index p) => .ok (p.plain.encodeTo, true)

/-- `DiscardEntry`: a record is kept only if the newest version refers to it. -/
def discardEntry (base : BaseResult) (blobIndex : BlobIndex) : Except Status Bool :=
  match base with
  | .error e => if e.code = .notFound then .ok true else .error e
  | .ok (_, false) => .ok true
  | .ok (entry, true) =>
    match BlobIndex.decodeFrom entry with
    | .error e => .error e
    | .ok (other, _) => .ok (!blobIndex.same other)

def callback (base : BaseResult) (blobIndex : BlobIndex) : Except Status Unit :=
  match base with
  | .error e => if e.code = .notFound then .error ⟨.busy, "key deleted"⟩ else .error e
  | .ok (_, false) => .error ⟨.busy, "key overwritten with other value"⟩
  | .ok (entry, true) =>
    match BlobIndex.decodeFrom entry with
    | .error e => .error e
    | .ok (other, _) =>
      if blobIndex.same other then .ok ()
      else .error ⟨.busy, "key overwritten with other blob"⟩

/-- The newest version refers to the record that `p` refers to. -/
def refersTo (p : BlobPtr) : Option Slot → Bool
  | some (.index q) => p.plain.same q.plain
  | _ => false

@[simp] theorem refersTo_self (p : BlobPtr) : refersTo p (some (.index p)) = true := by
  simp [refersTo, BlobIndex.same, BlobHandle.same]

/-- A version that refers to the record of a location is that location. -/
theorem eq_of_refersTo {fs : Files Key} (ho : FilesOk fs) {p q : BlobPtr} {k l : Key} {v w : Bytes}
    (hp : Holds fs p k v) (hq : Holds fs q l w) (h : refersTo p (some (.index q)) = true) :
    p = q ∧ v = w := by
  simp only [refersTo, BlobIndex.same, BlobHandle.same, Bool.and_eq_true, beq_iff_eq] at h
  obtain ⟨hpq, -, hvw⟩ := holds_eq_of_offset ho hp hq h.1 h.2.1
  exact ⟨hpq, hvw⟩

theorem discardEntry_baseResult (slot : Option Slot) (p : BlobPtr) :
    discardEntry (baseResult slot) p.plain = .ok (!refersTo p slot) := by
  cases slot with
  | none => rfl
  | some slot => cases slot <;> simp [baseResult, discardEntry, refersTo]

theorem callback_ok_iff {slot : Option Slot} {p : BlobPtr} :
    callback (baseResult slot) p.plain = .ok () ↔ refersTo p slot = true := by
  cases slot with
  | none => simp [baseResult, callback, refersTo]
  | some slot => cases slot <;> simp [baseResult, callback, refersTo]

/-! ## Scanning the inputs -/

structure Scanned where
  key : Key
  ptr : BlobPtr
  value : Bytes
  deriving Repr, DecidableEq

def records (fs : Files Key) (inputs : List UInt64) : List Scanned :=
  inputs.flatMap fun f => ((fs f).getD []).map fun r => ⟨r.key, ⟨f, r.handle⟩, r.value⟩

theorem mem_records {fs : Files Key} {inputs : List UInt64} {r : Scanned} :
    r ∈ records fs inputs ↔ r.ptr.fileNumber ∈ inputs ∧ Holds fs r.ptr r.key r.value := by
  simp only [records, List.mem_flatMap, List.mem_map, Holds]
  constructor
  · rintro ⟨f, hf, x, hx, rfl⟩
    cases hrecs : fs f with
    | none => simp [hrecs] at hx
    | some recs => exact ⟨hf, recs, rfl, by simpa [hrecs] using hx⟩
  · rintro ⟨hf, recs, hrecs, hmem⟩
    exact ⟨_, hf, _, by rw [hrecs]; exact hmem, rfl⟩

/-- The loop of `DoRunGC` between two records. -/
structure Scan where
  bitmap : UInt64 → UInt64 → Bool
  todo : List Scanned
  lastKey : Key := []
  lastKeyIsFresh : Bool := false
  /-- The records to rewrite, in order. -/
  queue : List Scanned := []

/-- Only the newest version is rewritten, except in bitmap mode: the bitmap does not
tell versions of one key apart. -/
def queueRecord (useBitmap discardable : Bool) (sc : Scan) (r : Scanned) : Scan :=
  if discardable then sc
  else { sc with lastKeyIsFresh := if useBitmap then sc.lastKeyIsFresh else true,
                 queue := sc.queue ++ [r] }

/-- The body of the loop on the record `r`. -/
def scanRecord (useBitmap : Bool) (base : BaseResult) (sc : Scan) (r : Scanned) :
    Except Status Scan :=
  let sameKey := !sc.lastKey.isEmpty && r.key == sc.lastKey
  if sameKey && sc.lastKeyIsFresh then .ok sc
  else
    let sc := if sameKey then sc else { sc with lastKey := r.key, lastKeyIsFresh := false }
    if useBitmap then
      .ok (queueRecord true (sc.bitmap r.ptr.fileNumber r.ptr.blobHandle.index) sc r)
    else match discardEntry base r.ptr.plain with
      | .error e => .error e
      | .ok discardable => .ok (queueRecord false discardable sc r)

/-- The three things that can happen to a record: it is skipped because its key is
fresh, it is discarded, or it is queued. -/
inductive Scans (discardable useBitmap : Bool) (sc : Scan) (r : Scanned) : Scan → Prop
  | skip (hfresh : sc.lastKeyIsFresh = true) (hkey : r.key = sc.lastKey) :
      Scans discardable useBitmap sc r sc
  | discard (sc' : Scan) (hd : discardable = true)
      (hsc : sc' = sc ∧ sc.lastKeyIsFresh = false ∨
        sc' = { sc with lastKey := r.key, lastKeyIsFresh := false }) :
      Scans discardable useBitmap sc r sc'
  | queue (sc' : Scan) (hd : discardable = false)
      (hsc : sc' = { sc with lastKey := r.key, lastKeyIsFresh := !useBitmap,
                             queue := sc.queue ++ [r] }) :
      Scans discardable useBitmap sc r sc'

theorem scans_queueRecord {useBitmap discardable : Bool} {sc sc₁ : Scan} {r : Scanned}
    (h : sc₁ = sc ∧ sc.lastKeyIsFresh = false ∧ r.key = sc.lastKey ∨
      sc₁ = { sc with lastKey := r.key, lastKeyIsFresh := false }) :
    Scans discardable useBitmap sc r (queueRecord useBitmap discardable sc₁ r) := by
  cases discardable with
  | true =>
    refine .discard _ rfl ?_
    rcases h with ⟨rfl, hfresh, -⟩ | rfl
    · exact .inl ⟨rfl, hfresh⟩
    · exact .inr rfl
  | false =>
    refine .queue _ rfl ?_
    rcases h with ⟨rfl, hfresh, hkey⟩ | rfl
    · cases useBitmap <;> simp [queueRecord, hfresh, hkey]
    · cases useBitmap <;> simp [queueRecord]

theorem scanRecord_ok {useBitmap : Bool} {slot : Option Slot} {sc sc' : Scan} {r : Scanned}
    (h : scanRecord useBitmap (baseResult slot) sc r = .ok sc') :
    Scans (if useBitmap then sc.bitmap r.ptr.fileNumber r.ptr.blobHandle.index
      else !refersTo r.ptr slot) useBitmap sc r sc' := by
  unfold scanRecord at h
  rw [discardEntry_baseResult] at h
  by_cases hsame : (!sc.lastKey.isEmpty && r.key == sc.lastKey) = true
  · have hkey : r.key = sc.lastKey := by
      simp only [Bool.and_eq_true, beq_iff_eq] at hsame
      exact hsame.2
    simp only [hsame, Bool.true_and, ↓reduceIte] at h
    cases hfresh : sc.lastKeyIsFresh with
    | true =>
      obtain rfl : sc = sc' := by simpa [hfresh] using h
      exact .skip hfresh hkey
    | false =>
      cases useBitmap <;> simp only [hfresh, Bool.false_eq_true, ↓reduceIte, Except.ok.injEq] at h ⊢
      · exact h ▸ scans_queueRecord (.inl ⟨rfl, hfresh, hkey⟩)
      · exact h ▸ scans_queueRecord (.inl ⟨rfl, hfresh, hkey⟩)
  · simp only [hsame, Bool.false_and, Bool.false_eq_true, ↓reduceIte] at h
    cases useBitmap <;> simp only [Bool.false_eq_true, ↓reduceIte, Except.ok.injEq] at h ⊢
    · exact h ▸ scans_queueRecord (.inr rfl)
    · exact h ▸ scans_queueRecord (.inr rfl)

end TitanGC.Software.GcJob
