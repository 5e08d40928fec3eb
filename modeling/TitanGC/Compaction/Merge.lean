import TitanGC.Compaction.Iterator
import TitanGC.Lib.Relocation

/-!
# Merging the versions of one key

What `Preprocess` does to the versions of one user key, once as the bytes it
handles and once as relocation histories. `absorb_kv` connects the two: on
encoded entries the code's case split is `absorbVersion`. `mergeRun` is then the
entry that one pass leaves for a run of versions.
-/

namespace TitanGC.Compaction.Merge

open Lib.ByteCoding Lib.Relocation List Format.Coding Format.BlobFormat Iterator

/-- What the LSM stores for a key in the absence of tombstones. -/
inductive Entry where
  | value (v : Bytes)
  | blobIndex (b : BlobIndex)
  deriving Repr, DecidableEq

def Entry.type : Entry → ValueType
  | .value _ => .value
  | .blobIndex _ => .blobIndex

def Entry.bytes : Entry → Bytes
  | .value v => v
  | .blobIndex b => b.encodeTo

variable {K : Type}

def Entry.kv (k : K) (sequence : Nat) (e : Entry) : Kv K := ⟨⟨k, sequence, e.type⟩, e.bytes⟩

/-- `CheckBlobIndex` compares file number and offset. -/
abbrev Loc := UInt64 × UInt64

def loc (p : BlobPtr) : Loc := (p.fileNumber, p.blobHandle.offset)

abbrev LsmVersion := Version Bytes BlobPtr Loc

/-- A blob index is a write-back exactly when it has an old file number. -/
def indexVersion (b : BlobIndex) : LsmVersion :=
  if b.oldFileNumber = 0 then .plain b.ptr
  else .moved b.ptr (b.oldFileNumber, b.oldBlobHandle.offset)

def Entry.version : Entry → LsmVersion
  | .value v => .value v
  | .blobIndex b => indexVersion b

variable (b : BlobIndex)

@[simp] theorem indexVersion_own : (indexVersion b).own = some b.ptr := by
  unfold indexVersion; split <;> rfl

@[simp] theorem indexVersion_isValue : (indexVersion b).isValue = false := by
  unfold indexVersion; split <;> rfl

variable (p : BlobPtr)

@[simp] theorem indexVersion_plain : indexVersion p.plain = .plain p := by
  simp [indexVersion]

/-- What a stored entry stands for, read with `BlobIndex::DecodeFrom`. -/
def target (kv : Kv K) : Option (Target Bytes BlobPtr) :=
  match kv.key.type with
  | .value => some (.value kv.value)
  | .blobIndex =>
    match BlobIndex.decodeFrom kv.value with
    | .ok (b, _) => some (.address b.ptr)
    | .error _ => none
  | _ => none

@[simp] theorem target_kv (k : K) (n : Nat) (e : Entry) :
    target (e.kv k n) = some e.version.denote := by
  cases e with
  | value v => rfl
  | blobIndex b =>
    have hd : (indexVersion b).denote = .address b.ptr := by
      unfold indexVersion; split <;> rfl
    simp [target, Entry.kv, Entry.type, Entry.bytes, Entry.version, hd]

theorem readFields_putFields (rest : Bytes) :
    readFields (putVarint64 p.fileNumber ++ (p.blobHandle.encodeTo ++ rest)) = (p, rest) := by
  simp [readFields, readVarints, BlobHandle.encodeTo, append_assoc]

theorem readTypedFields_encodeTo :
    readTypedFields b.encodeTo = (b.ptr,
      if b.oldFileNumber > 0 then putVarint64 b.oldFileNumber ++ b.oldBlobHandle.encodeTo else []) := by
  simp only [readTypedFields, BlobIndex.encodeTo, getChar, kBlobRecord, ne_eq, not_true_eq_false,
    ↓reduceIte]
  exact readFields_putFields b.ptr _

theorem putFields_eq : putFields p = p.plain.encodeTo := by
  simp [putFields, BlobIndex.encodeTo, BlobPtr.plain, BlobHandle.encodeTo, kBlobRecord]

/-- `CheckBlobIndex` on encodings: nothing to do below a plain index; below a
write-back, the location it was copied from decides. -/
theorem checkBlobIndex_fields (p : BlobIndex) {cur : Bytes} {c : BlobPtr} (hc : (readTypedFields cur).1 = c) :
    checkBlobIndex p.encodeTo cur =
      if p.oldFileNumber = 0 then none
      else if (p.oldFileNumber, p.oldBlobHandle.offset) = loc c then some p.ptr.plain.encodeTo
      else some c.plain.encodeTo := by
  unfold checkBlobIndex
  rw [readTypedFields_encodeTo, hc]
  by_cases hp : p.oldFileNumber = 0
  · simp [hp]
  · have hpos : p.oldFileNumber > 0 := UInt64.pos_iff_ne_zero.mpr hp
    have hne : ¬ (putVarint64 p.oldFileNumber ++ p.oldBlobHandle.encodeTo).isEmpty = true := by
      simp [putVarint64_ne_nil]
    have hold := readFields_putFields ⟨p.oldFileNumber, p.oldBlobHandle⟩ []
    rw [append_nil] at hold
    simp only [hp, hpos, ↓reduceIte, hne, hold, putFields_eq, loc, Prod.mk.injEq, Bool.false_eq_true]

theorem checkBlobIndex_encodeTo (p c : BlobIndex) :
    checkBlobIndex p.encodeTo c.encodeTo =
      if p.oldFileNumber = 0 then none
      else if (p.oldFileNumber, p.oldBlobHandle.offset) = loc c.ptr then some p.ptr.plain.encodeTo
      else some c.ptr.plain.encodeTo :=
  checkBlobIndex_fields p (by rw [readTypedFields_encodeTo])

/-- The case split of `Preprocess` on versions. -/
def absorbVersion : LsmVersion → LsmVersion → LsmVersion
  | .value v, _ => .value v
  | .plain _, .value v => .value v
  | .plain i, _ => .plain i
  | .moved _ _, .value v => .value v
  | .moved i old, .plain j => .plain (if old = loc j then i else j)
  | .moved i old, .moved j _ => .plain (if old = loc j then i else j)

/-- The entry that `absorb` leaves, as an entry again. -/
def Entry.absorb : Entry → Entry → Entry
  | .value v, _ => .value v
  | .blobIndex _, .value v => .value v
  | .blobIndex p, .blobIndex c =>
    if p.oldFileNumber = 0 then .blobIndex p
    else if (p.oldFileNumber, p.oldBlobHandle.offset) = loc c.ptr then .blobIndex p.ptr.plain
    else .blobIndex c.ptr.plain

theorem Entry.version_absorb (a b : Entry) :
    (a.absorb b).version = absorbVersion a.version b.version := by
  cases a with
  | value v => rfl
  | blobIndex p =>
    cases b with
    | value v =>
      simp only [Entry.absorb, Entry.version]
      unfold indexVersion
      split <;> rfl
    | blobIndex c =>
      by_cases hp : p.oldFileNumber = 0
      · by_cases hc : c.oldFileNumber = 0 <;>
          simp [Entry.absorb, Entry.version, indexVersion, absorbVersion, hp, hc]
      · by_cases hc : c.oldFileNumber = 0 <;>
          by_cases hl : (p.oldFileNumber, p.oldBlobHandle.offset) = loc c.ptr <;>
          simp [Entry.absorb, Entry.version, indexVersion, absorbVersion, hp, hc, hl]

/-- On encoded entries the bytes that `Preprocess` keeps encode `Entry.absorb`. -/
theorem absorb_kv (k : K) (m n : Nat) (a b : Entry) :
    ∃ l, absorb (a.kv k m) (b.kv k n) = (a.absorb b).kv k l := by
  cases a with
  | value v => exact ⟨m, rfl⟩
  | blobIndex p =>
    cases b with
    | value v => exact ⟨n, rfl⟩
    | blobIndex c =>
      refine ⟨m, ?_⟩
      simp only [absorb, Entry.kv, Entry.type, Entry.bytes, reduceCtorEq, ↓reduceIte,
        checkBlobIndex_encodeTo, Entry.absorb]
      by_cases hp : p.oldFileNumber = 0
      · simp [hp]
      · by_cases hl : (p.oldFileNumber, p.oldBlobHandle.offset) = loc c.ptr <;>
          simp [hp, hl]

/-! ## One pass over a run of versions -/

def mergeVersions : List LsmVersion → Option LsmVersion
  | [] => none
  | x :: xs => some (xs.foldl absorbVersion x)

theorem foldl_absorb_value (v : Bytes) (xs : List LsmVersion) :
    xs.foldl absorbVersion (.value v) = .value v := by
  induction xs with
  | nil => rfl
  | cons x xs ih => exact ih

theorem foldl_absorb_plain (i : BlobPtr) (xs : List LsmVersion) :
    xs.foldl absorbVersion (.plain i)
      = (match firstValue xs with | some v => .value v | none => .plain i) := by
  induction xs with
  | nil => rfl
  | cons x xs ih =>
    cases x with
    | value v => exact foldl_absorb_value v xs
    | plain j => exact ih
    | moved j o => exact ih

theorem absorbVersion_moved {i j : BlobPtr} {old : Loc} {y : LsmVersion} (hy : y.own = some j) :
    absorbVersion (.moved i old) y = .plain (if old = loc j then i else j) := by
  cases y <;> simp_all [absorbVersion]

variable {xs run : List LsmVersion} {m : LsmVersion} {es : List (Nat × Entry)}

/-- The newest inline value of the run wins over every index, also a newer one. -/
theorem mergeVersions_of_firstValue {v : Bytes} (h : firstValue xs = some v) :
    mergeVersions xs = some (.value v) := by
  cases xs with
  | nil => simp [firstValue] at h
  | cons x xs =>
    cases x with
    | value w =>
      simp only [firstValue, Option.some.injEq] at h
      rw [mergeVersions, foldl_absorb_value, h]
    | plain i =>
      have hxs : firstValue xs = some v := h
      rw [mergeVersions, foldl_absorb_plain, hxs]
    | moved i old =>
      have hxs : firstValue xs = some v := h
      cases xs with
      | nil => simp [firstValue] at hxs
      | cons y ys =>
        cases hy : y.own with
        | none =>
          cases y <;> simp_all [firstValue, mergeVersions, absorbVersion, foldl_absorb_value]
        | some j =>
          have hys : firstValue ys = some v := by
            cases y <;> simp_all [firstValue]
          rw [mergeVersions, foldl_cons, absorbVersion_moved hy, foldl_absorb_plain, hys]

theorem mergeVersions_plain (i : BlobPtr) (h : firstValue xs = none) :
    mergeVersions (.plain i :: xs) = some (.plain i) := by
  rw [mergeVersions, foldl_absorb_plain, h]

/-- A write-back is compared with the version right below it, and with no other. -/
theorem mergeVersions_moved {i j : BlobPtr} {old : Loc} {y : LsmVersion} (hy : y.own = some j)
    (h : firstValue xs = none) :
    mergeVersions (.moved i old :: y :: xs) = some (.plain (if old = loc j then i else j)) := by
  rw [mergeVersions, foldl_cons, absorbVersion_moved hy, foldl_absorb_plain, h]

/-- A merge keeps the newest inline value of the history. -/
theorem firstValue_mergeVersions (h : mergeVersions run = some m) : firstValue [m] = firstValue run := by
  cases hf : firstValue run with
  | some v =>
    obtain rfl : m = .value v := by simpa [mergeVersions_of_firstValue hf] using h.symm
    rfl
  | none =>
    cases run with
    | nil => simp [mergeVersions] at h
    | cons x xs =>
      cases x with
      | value v => simp [firstValue] at hf
      | plain i =>
        have hxs : firstValue xs = none := hf
        obtain rfl : m = .plain i := by simpa [mergeVersions_plain i hxs] using h.symm
        rfl
      | moved i o =>
        have hxs : firstValue xs = none := hf
        cases xs with
        | nil =>
          obtain rfl : m = .moved i o := by simpa [mergeVersions] using h.symm
          rfl
        | cons y ys =>
          have hy := firstValue_eq_none_iff.mp hxs
          obtain ⟨j, hj⟩ := Version.exists_own_of_not_value (hy y (by simp))
          rw [mergeVersions_moved hj (firstValue_eq_none_iff.mpr
            fun x hx => hy x (by simp [hx]))] at h
          obtain rfl := Option.some.inj h
          rfl

def headPtr (xs : List LsmVersion) : Option BlobPtr := xs.head?.bind Version.own

theorem headPtr_mergeVersions {b : List LsmVersion} (hm : mergeVersions run = some m)
    (hn : firstValue run = none) (hl : LeadLinked loc (run ++ b)) :
    LeadLinked loc (m :: b) ∧ headPtr (m :: b) = headPtr (run ++ b) := by
  cases run with
  | nil => simp [mergeVersions] at hm
  | cons x xs =>
    cases xs with
    | nil =>
      obtain rfl : m = x := by simpa [mergeVersions] using hm.symm
      exact ⟨hl, rfl⟩
    | cons y ys =>
      cases x with
      | value v => simp [firstValue] at hn
      | plain i =>
        have hxs : firstValue (y :: ys) = none := hn
        obtain rfl : m = .plain i := by simpa [mergeVersions_plain i hxs] using hm.symm
        exact ⟨trivial, rfl⟩
      | moved i o =>
        have hall := firstValue_eq_none_iff.mp hn
        have hys : firstValue ys = none :=
          firstValue_eq_none_iff.mpr fun z hz => hall z (by simp [hz])
        obtain ⟨⟨j, hj, ho⟩, -⟩ := hl
        rw [mergeVersions_moved hj hys, if_pos ho.symm] at hm
        obtain rfl := Option.some.inj hm
        exact ⟨trivial, rfl⟩

/-- Inside a linked chain a merge without inline values changes neither the links
nor the newest address. -/
theorem leadLinked_merge {b : List LsmVersion} (hm : mergeVersions run = some m)
    (hn : firstValue run = none) (a : List LsmVersion) (hl : LeadLinked loc (a ++ (run ++ b))) :
    LeadLinked loc (a ++ m :: b) ∧ headPtr (a ++ m :: b) = headPtr (a ++ (run ++ b)) := by
  induction a with
  | nil => exact headPtr_mergeVersions hm hn hl
  | cons x a ih =>
    refine ⟨?_, rfl⟩
    cases x with
    | value v => trivial
    | plain i => trivial
    | moved i o =>
      -- the version below `x` exists on both sides and keeps its address
      obtain ⟨y, t, hyt⟩ : ∃ y t, a ++ m :: b = y :: t := by cases a <;> simp
      obtain ⟨z, u, hzu⟩ : ∃ z u, a ++ (run ++ b) = z :: u := by
        cases a with
        | nil =>
          cases run with
          | nil => simp [mergeVersions] at hm
          | cons r run => exact ⟨r, run ++ b, rfl⟩
        | cons c a => exact ⟨c, a ++ (run ++ b), rfl⟩
      rw [cons_append, hzu] at hl
      obtain ⟨⟨j, hj, ho⟩, hlz⟩ := hl
      obtain ⟨hly, hhead⟩ := ih (hzu ▸ hlz)
      rw [hyt, hzu] at hhead
      rw [cons_append, hyt]
      refine ⟨⟨j, ?_, ho⟩, hyt ▸ hly⟩
      simpa [headPtr, hj] using hhead

theorem own_absorbVersion {a b : LsmVersion} {p : BlobPtr} (h : (absorbVersion a b).own = some p) :
    a.own = some p ∨ b.own = some p := by
  cases a with
  | value v => simp [absorbVersion] at h
  | plain i => cases b <;> simp_all [absorbVersion]
  | moved i o =>
    cases hb : b.own with
    | none => cases b <;> simp_all [absorbVersion]
    | some j =>
      rw [absorbVersion_moved hb, Version.own_plain, Option.some.injEq] at h
      split at h <;> simp [h]

theorem own_foldl_absorb (xs : List LsmVersion) :
    ∀ {x : LsmVersion} {p : BlobPtr}, (xs.foldl absorbVersion x).own = some p →
      p ∈ owns (x :: xs) := by
  induction xs with
  | nil =>
    intro x p h
    exact mem_owns.mpr ⟨x, by simp, h⟩
  | cons y ys ih =>
    intro x p h
    obtain ⟨z, hz, hp⟩ := mem_owns.mp (ih h)
    rcases mem_cons.mp hz with rfl | hz
    · rcases own_absorbVersion hp with hx | hy
      · exact mem_owns.mpr ⟨x, by simp, hx⟩
      · exact mem_owns.mpr ⟨y, by simp, hy⟩
    · exact mem_owns.mpr ⟨z, by simp [hz], hp⟩

/-- The merged entry brings no address that the run did not have. -/
theorem own_mergeVersions {p : BlobPtr} (hm : mergeVersions run = some m) (hp : m.own = some p) :
    p ∈ owns run := by
  cases run with
  | nil => simp [mergeVersions] at hm
  | cons x xs =>
    obtain rfl := Option.some.inj hm
    exact own_foldl_absorb xs hp

/-- No two versions of the history are at the same location: every flush and
every garbage collection writes its records into a new file. -/
def DistinctLocs (xs : List LsmVersion) : Prop := ((owns xs).map loc).Nodup

/-! ## The bytes of a run -/

/-- A run of versions of the key `k` as the input iterator yields it. -/
def rows (k : K) (es : List (Nat × Entry)) : List (Kv K) := es.map fun e => e.2.kv k e.1

def versions (es : List (Nat × Entry)) : List LsmVersion := es.map fun e => e.2.version

theorem rows_append_inv {k : K} {s t : List (Kv K)} (h : rows k es = s ++ t) :
    ∃ fs gs, es = fs ++ gs ∧ s = rows k fs ∧ t = rows k gs := by
  obtain ⟨fs, gs, rfl, rfl, rfl⟩ := map_eq_append_iff.mp h
  exact ⟨fs, gs, rfl, rfl, rfl⟩

theorem versions_append_inv {s t : List LsmVersion} (h : versions es = s ++ t) :
    ∃ fs gs, es = fs ++ gs ∧ s = versions fs ∧ t = versions gs := by
  obtain ⟨fs, gs, rfl, rfl, rfl⟩ := map_eq_append_iff.mp h
  exact ⟨fs, gs, rfl, rfl, rfl⟩

theorem eq_singleton_of_versions (h : [m] = versions es) : ∃ l e, es = [(l, e)] ∧ e.version = m := by
  obtain ⟨⟨l, e⟩, rfl, he⟩ := map_eq_singleton_iff.mp h.symm
  exact ⟨l, e, rfl, he⟩

theorem eq_singleton_of_rows {k : K} {kv : Kv K} (h : [kv] = rows k es) :
    ∃ l e, es = [(l, e)] ∧ e.kv k l = kv := by
  obtain ⟨⟨l, e⟩, rfl, he⟩ := map_eq_singleton_iff.mp h.symm
  exact ⟨l, e, rfl, he⟩

variable [DecidableEq K]

theorem collapse_rows (k : K) (es : List (Nat × Entry)) :
    ∀ (m : Nat) (a : Entry), ∃ l,
      collapse (a.kv k m) (rows k es) = [((es.map (·.2)).foldl Entry.absorb a).kv k l] := by
  induction es with
  | nil => exact fun m a => ⟨m, rfl⟩
  | cons e es ih =>
    intro m a
    obtain ⟨l, hl⟩ := absorb_kv k m e.1 a e.2
    have hkey : (e.2.kv k e.1).key.userKey = (a.kv k m).key.userKey := rfl
    simp only [rows, map_cons, collapse, hkey, ↓reduceIte, foldl_cons, hl]
    exact ih l (a.absorb e.2)

theorem version_foldl (es : List (Nat × Entry)) (a : Entry) :
    ((es.map (·.2)).foldl Entry.absorb a).version = (versions es).foldl absorbVersion a.version := by
  induction es generalizing a with
  | nil => rfl
  | cons e es ih =>
    simp only [map_cons, foldl_cons, versions] at ih ⊢
    rw [ih, Entry.version_absorb]

/-- One pass of `Preprocess` over a run of one key leaves one entry, and it is
an encoding of the entry that `mergeVersions` describes. -/
theorem preprocess_rows (k : K) (hne : es ≠ []) :
    ∃ (l : Nat) (e : Entry), preprocess (rows k es) = [e.kv k l] ∧
      mergeVersions (versions es) = some e.version := by
  cases es with
  | nil => exact absurd rfl hne
  | cons e es =>
    obtain ⟨l, hl⟩ := collapse_rows k es e.1 e.2
    refine ⟨l, _, (preprocess_cons _ _).trans hl, ?_⟩
    rw [version_foldl]
    rfl

end TitanGC.Compaction.Merge
