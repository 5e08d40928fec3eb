import TitanGC.Lib.OrderedMap
import TitanGC.Format.BlobFormat

/-!
# References from tables to blob files

`BlobFileSizeCollector` adds up, while a table is built, the sizes by which its
blob indexes reference each blob file, and stores the sums as a table property.
`ExtractGCStatsFromTableProperty` decodes the property and adds or subtracts the
sums in a map of differences. Other collectors' properties are left out.
-/

namespace TitanGC.Accounting.SizeCollector

open Lib.ByteCoding Lib.OrderedMap List Format.Coding Format.BlobFormat

inductive EntryType where
  | put | delete | singleDelete | merge | rangeDeletion | blobIndex | deleteWithTimestamp | other
  deriving Repr, DecidableEq

structure Entry where
  key : Bytes
  value : Bytes
  type : EntryType
  deriving Repr, DecidableEq

/-! ## The collector -/

def addUserKey (sizes : List (UInt64 × UInt64)) (e : Entry) : Except Status (List (UInt64 × UInt64)) :=
  if e.type ≠ .blobIndex then .ok sizes
  else match BlobIndex.decodeFrom e.value with
    | .error s => .error s
    | .ok (index, _) => .ok (add index.fileNumber index.blobHandle.size sizes)

def encode (sizes : List (UInt64 × UInt64)) : Bytes :=
  putVarint32 (UInt32.ofNat sizes.length) ++ sizes.flatMap fun p => putVarint64 p.1 ++ putVarint64 p.2

def decodePairs : Nat → Bytes → List (UInt64 × UInt64) → Option (List (UInt64 × UInt64))
  | 0, _, sizes => some sizes
  | n + 1, slice, sizes => do
    let (fileNumber, slice) ← getVarint64 slice
    let (size, slice) ← getVarint64 slice
    decodePairs n slice (set fileNumber size sizes)

def decode (slice : Bytes) : Option (List (UInt64 × UInt64)) := do
  let (num, slice) ← getVarint32 slice
  decodePairs num.toNat slice []

def kPropertiesName : String := "TitanDB.blob_discardable_size"

def finish (sizes : List (UInt64 × UInt64)) : List (String × Bytes) :=
  if sizes.isEmpty then [] else [(kPropertiesName, encode sizes)]

/-! ## Tables -/

/-- An SST: its file number and level, the range of its user keys, its entries. -/
structure Table where
  number : UInt64
  level : Nat := 0
  smallest : Bytes := []
  largest : Bytes := []
  entries : List Entry
  deriving Repr, DecidableEq

/-- What the collector has after the entries. The table builder logs an error of
`AddUserKey` and goes on. -/
def collect (entries : List Entry) : List (UInt64 × UInt64) :=
  entries.foldl (fun sizes e => (addUserKey sizes e).toOption.getD sizes) []

def Table.userCollectedProperties (t : Table) : List (String × Bytes) := finish (collect t.entries)

def extractGCStatsFromTableProperty (properties : List (String × Bytes)) (toAdd : Bool)
    (diff : List (UInt64 × Int64)) : Except Status (List (UInt64 × Int64)) :=
  match properties.lookup kPropertiesName with
  | none => .ok diff
  | some slice =>
    match decode slice with
    | none => .error (corruption "Failed to decode blob file size property.")
    | some sizes =>
      .ok (sizes.foldl (fun diff p =>
        add p.1 (if toAdd then p.2.toInt64 else -p.2.toInt64) diff) diff)

/-! ## What a table references -/

/-- The blob file that an entry references, and the size of the record. -/
def Entry.reference (e : Entry) : Option (UInt64 × UInt64) :=
  if e.type ≠ .blobIndex then none
  else match BlobIndex.decodeFrom e.value with
    | .error _ => none
    | .ok (index, _) => some (index.fileNumber, index.blobHandle.size)

def referenced (entries : List Entry) (file : UInt64) : Nat :=
  ((entries.filterMap Entry.reference).map fun r => if r.1 = file then r.2.toNat else 0).sum

def Mentions (entries : List Entry) (file : UInt64) : Prop :=
  ∃ size, (file, size) ∈ entries.filterMap Entry.reference

instance (entries : List Entry) (file : UInt64) : Decidable (Mentions entries file) :=
  decidable_of_iff (file ∈ (entries.filterMap Entry.reference).map (·.1)) (by simp [Mentions])

theorem referenced_append (es es' : List Entry) (file : UInt64) :
    referenced (es ++ es') file = referenced es file + referenced es' file := by
  simp [referenced]

theorem mentions_append {es es' : List Entry} {file : UInt64} :
    Mentions (es ++ es') file ↔ Mentions es file ∨ Mentions es' file := by
  simp only [Mentions, filterMap_append, mem_append, exists_or]

theorem mentions_of_referenced {es : List Entry} {file : UInt64} (h : 0 < referenced es file) :
    Mentions es file := by
  by_contra hnot
  have hzero : referenced es file = 0 := by
    rw [referenced, sum_eq_zero_iff]
    intro n hn
    obtain ⟨r, hr, rfl⟩ := mem_map.mp hn
    exact if_neg fun heq : r.1 = file => hnot ⟨r.2, heq ▸ hr⟩
  omega

/-- The records that the entries reference have bytes, as every encoded record has. -/
def Positive (entries : List Entry) : Prop :=
  ∀ r ∈ entries.filterMap Entry.reference, 0 < r.2

instance (entries : List Entry) : Decidable (Positive entries) :=
  decidable_of_iff ((entries.filterMap Entry.reference).all fun r => decide (0 < r.2)) (by
    simp only [all_eq_true, decide_eq_true_eq, Positive])

theorem referenced_pos {es : List Entry} (hpos : Positive es) {file : UInt64} (h : Mentions es file) :
    0 < referenced es file := by
  obtain ⟨size, hmem⟩ := h
  have hsize : 0 < size.toNat := UInt64.lt_iff_toNat_lt.mp (hpos _ hmem)
  refine lt_of_lt_of_le hsize (single_le_sum (fun _ _ => Nat.zero_le _) _ ?_)
  exact mem_map.mpr ⟨(file, size), hmem, if_pos rfl⟩

/-! ## What the property holds -/

theorem collect_append (es : List Entry) (e : Entry) :
    collect (es ++ [e]) = match e.reference with
      | none => collect es
      | some r => add r.1 r.2 (collect es) := by
  rw [collect, foldl_append, ← collect, foldl_cons, foldl_nil, addUserKey, Entry.reference]
  by_cases htype : e.type = .blobIndex
  · simp only [htype, ne_eq, not_true_eq_false, ↓reduceIte]
    cases BlobIndex.decodeFrom e.value with
    | error s => rfl
    | ok r => rfl
  · simp only [htype, ne_eq, not_false_eq_true, ↓reduceIte]
    rfl

/-- The collector has the referenced bytes of every file that is mentioned. -/
theorem collect_totals (es : List Entry) :
    Totals UInt64.ofNat (Mentions es) (referenced es) (collect es) := by
  induction es using List.reverseRecOn with
  | nil => exact (Totals.empty UInt64.ofNat).congr (fun k => by simp [Mentions]) (fun k => rfl)
  | append_singleton es e ih =>
    rw [collect_append]
    cases href : e.reference with
    | none =>
      refine ih.congr (fun k => ?_) (fun k => ?_)
      · simp [Mentions, href]
      · simp [referenced, href]
    | some r =>
      have hstep := ih.add (fun a b => UInt64.ofNat_add a b) r.1 r.2.toNat
      rw [UInt64.ofNat_toNat] at hstep
      refine hstep.congr (fun k => ?_) (fun k => ?_)
      · have hr : Mentions [e] k ↔ k = r.1 := by
          simp only [Mentions, filterMap_cons, href, filterMap_nil, mem_singleton]
          exact ⟨fun ⟨_, h⟩ => h ▸ rfl, fun h => ⟨r.2, h ▸ rfl⟩⟩
        rw [mentions_append, hr]
      · simp [referenced, href, eq_comm]

theorem decodePairs_encode (sizes done : List (UInt64 × UInt64)) :
    decodePairs sizes.length (sizes.flatMap fun p => putVarint64 p.1 ++ putVarint64 p.2) done =
      some (sizes.foldl (fun m p => set p.1 p.2 m) done) := by
  induction sizes generalizing done with
  | nil => rfl
  | cons p sizes ih =>
    rw [length_cons, decodePairs, flatMap_cons, append_assoc, getVarint64_putVarint64]
    simp only [Option.bind_eq_bind, Option.bind_some, getVarint64_putVarint64]
    exact ih _

theorem decode_encode {sizes : List (UInt64 × UInt64)} (hordered : Ordered sizes)
    (hlength : sizes.length < 2 ^ 32) : decode (encode sizes) = some sizes := by
  rw [decode, encode, getVarint32_putVarint32]
  simp only [Option.bind_eq_bind, Option.bind_some]
  rw [UInt32.toNat_ofNat_of_lt' hlength, decodePairs_encode, foldl_set hordered]

/-- A table whose property can be written: it mentions fewer than `2 ^ 32` blob files. -/
def Table.FewFiles (t : Table) : Prop := (collect t.entries).length < 2 ^ 32

instance (t : Table) : Decidable t.FewFiles := by
  unfold Table.FewFiles
  infer_instance

theorem toInt64_eq (s : UInt64) : s.toInt64 = Int64.ofInt s.toNat := by
  rw [Int64.ofInt_eq_ofNat, ← UInt64.toInt64_ofNat', UInt64.ofNat_toNat]

/-- Extracting the property of a table adds or subtracts its references. -/
theorem extract_totals {t : Table} (hfew : t.FewFiles) (hfits : ∀ k, referenced t.entries k < 2 ^ 64)
    {keys : UInt64 → Prop} {total : UInt64 → ℤ} {diff : List (UInt64 × Int64)}
    (h : Totals Int64.ofInt keys total diff) (toAdd : Bool) :
    ∃ diff', extractGCStatsFromTableProperty t.userCollectedProperties toAdd diff = .ok diff' ∧
      Totals Int64.ofInt (fun k => keys k ∨ Mentions t.entries k)
        (fun k => total k + if toAdd then (referenced t.entries k : ℤ) else -referenced t.entries k)
        diff' := by
  have hcollect := collect_totals t.entries
  rw [extractGCStatsFromTableProperty, Table.userCollectedProperties, finish]
  by_cases hempty : (collect t.entries).isEmpty
  · rw [if_pos hempty]
    have hnone : ∀ k, ¬ Mentions t.entries k := by
      intro k hk
      have hpresent := hcollect.present k hk
      rw [List.isEmpty_iff.mp hempty] at hpresent
      cases hpresent
    refine ⟨diff, rfl, h.congr (fun k => ?_) (fun k => ?_)⟩
    · simp [hnone k]
    · simp [(hcollect.absent k (hnone k)).2]
  · rw [if_neg hempty, lookup_cons_self]
    dsimp only
    rw [decode_encode hcollect.ordered hfew]
    have hval : ∀ s : UInt64, (if toAdd then s.toInt64 else -s.toInt64) =
        Int64.ofInt (if toAdd then (s.toNat : ℤ) else -s.toNat) := by
      intro s
      rw [toInt64_eq]
      cases toAdd with
      | true => rfl
      | false => exact (Int64.ofInt_neg _).symm
    simp only [hval]
    have hall := h.addAll Int64.ofInt_add
      (fun s : UInt64 => if toAdd then (s.toNat : ℤ) else -s.toNat) hcollect.ordered
    refine ⟨_, rfl, hall.congr (fun k => ?_) (fun k => ?_)⟩
    · by_cases hk : Mentions t.entries k
      · simp [hcollect.present k hk, hk]
      · simp [(hcollect.absent k hk).1, hk]
    · by_cases hk : Mentions t.entries k
      · simp [hcollect.present k hk, UInt64.toNat_ofNat_of_lt' (hfits k)]
      · simp [hcollect.absent k hk]

end TitanGC.Accounting.SizeCollector
