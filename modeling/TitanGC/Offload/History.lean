import TitanGC.Offload.System

/-!
# The history of one key under reads and merges

What a careful merge does to the versions of one key: the leading write-backs
stay linked, the newest version keeps its meaning up to the separation of an
inline value, and no address appears that was not there, other than of records
the merge itself has written.
-/

namespace TitanGC.Offload.History

open Lib.ByteCoding Lib.Relocation List Format.BlobFormat Compaction.Merge Storage.BlobFiles
open Reads Offload.System

variable {K : Type}

abbrev versionsOf (es : List Entry) : List LsmVersion := es.map Entry.version

def ptrs (es : List Entry) : List BlobPtr := owns (versionsOf es)

def headTarget (es : List Entry) : Option (Target Bytes BlobPtr) :=
  es.head?.map fun e => e.version.denote

@[simp] theorem ptrs_nil : ptrs [] = [] := rfl

@[simp] theorem ptrs_value (v : Bytes) (es : List Entry) : ptrs (.value v :: es) = ptrs es := rfl

@[simp] theorem ptrs_blobIndex (b : BlobIndex) (es : List Entry) :
    ptrs (.blobIndex b :: es) = b.ptr :: ptrs es := by
  simp [ptrs, versionsOf, owns_cons, Entry.version]

@[simp] theorem ptrs_append (as bs : List Entry) : ptrs (as ++ bs) = ptrs as ++ ptrs bs := by
  simp [ptrs, versionsOf, owns]

variable {es : List Entry} {p : BlobPtr}

theorem mem_ptrs : p ∈ ptrs es ↔ ∃ b, .blobIndex b ∈ es ∧ b.ptr = p := by
  induction es with
  | nil => simp
  | cons e es ih => cases e <;> simp [ih, eq_comm]

@[simp] theorem denote_indexVersion (b : BlobIndex) : (indexVersion b).denote = .address b.ptr := by
  unfold indexVersion; split <;> rfl

/-! ## Links -/

/-- Below a version that is not a write-back nothing matters. -/
theorem leadLinked_append_congr {a b c : List LsmVersion} (h : ∃ x ∈ a, x.isMoved = false)
    (hl : LeadLinked loc (a ++ b)) : LeadLinked loc (a ++ c) := by
  induction a with
  | nil => simp at h
  | cons x a ih =>
    cases x with
    | value v => trivial
    | plain i => trivial
    | moved i o =>
      have ha : ∃ x ∈ a, x.isMoved = false := by simpa using h
      cases a with
      | nil => simp at ha
      | cons y a => exact ⟨hl.1, ih ha hl.2⟩

/-- A write-back is never linked to an inline value. -/
theorem eq_nil_of_leadLinked_value {a c : List LsmVersion} {v : Bytes}
    (ha : ∀ x ∈ a, x.isMoved = true) (hl : LeadLinked loc (a ++ .value v :: c)) : a = [] := by
  induction a with
  | nil => rfl
  | cons x a ih =>
    exfalso
    cases x with
    | value w => simp at ha
    | plain i => simp at ha
    | moved i o =>
      cases a with
      | nil =>
        obtain ⟨⟨j, hj, -⟩, -⟩ := hl
        simp at hj
      | cons y a =>
        have := ih (fun x hx => ha x (mem_cons_of_mem _ hx)) hl.2
        simp at this

variable {as : List Entry}

theorem allWriteBacks_versions (h : AllWriteBacks as) :
    ∀ x ∈ versionsOf as, x.isMoved = true := forall_mem_map.mpr h

theorem exists_not_moved (h : ¬ AllWriteBacks as) : ∃ x ∈ versionsOf as, x.isMoved = false := by
  simp only [AllWriteBacks, not_forall] at h
  obtain ⟨e, he, hm⟩ := h
  exact ⟨e.version, mem_map_of_mem he, by simpa using hm⟩

theorem firstValue_of_indexes (h : ∀ e ∈ es, e.type = .blobIndex) :
    firstValue (versionsOf es) = none := by
  refine firstValue_eq_none_iff.mpr fun x hx => ?_
  obtain ⟨e, he, rfl⟩ := mem_map.mp hx
  cases e with
  | value v => exact absurd (h _ he) (by simp [Entry.type])
  | blobIndex b => simp [Entry.version]

theorem mergeVersions_of_mergeEntries {run : List Entry} {m : Entry}
    (hm : mergeEntries run = some m) : mergeVersions (versionsOf run) = some m.version := by
  rw [← version_mergeEntries, hm, Option.map_some]

/-! ## Merges -/

section

variable {minBlobSize : Nat} {new : Files K} {k : K} {a run c : List Entry} {out : Option Entry}

/-- How the newest version may change its meaning: not at all, or an inline value
becomes the record that was just written for it. -/
def SameOrSeparated (new : Files K) (k : K) (before after : Option (Target Bytes BlobPtr)) : Prop :=
  after = before ∨ ∃ v p, before = some (.value v) ∧ after = some (.address p) ∧ Holds new p k v

variable (hb : Builds minBlobSize new k (mergeEntries run) out)

include hb

/-- A careful merge keeps the links and the meaning of the newest version. -/
theorem leadLinked_builds (hcond : AllWriteBacks a → InlineOnTop run)
    (hl : LeadLinked loc (versionsOf (a ++ (run ++ c)))) :
    LeadLinked loc (versionsOf (a ++ (out.toList ++ c))) ∧
      SameOrSeparated new k (headTarget (a ++ (run ++ c))) (headTarget (a ++ (out.toList ++ c))) := by
  simp only [versionsOf, map_append] at hl ⊢
  cases run with
  | nil =>
    obtain rfl : out = none := by cases hb; rfl
    exact ⟨hl, .inl rfl⟩
  | cons e es =>
    by_cases ha : AllWriteBacks a
    · rcases hcond ha with ⟨v, rest, hrun⟩ | hidx
      · -- an inline value on top: nothing can lie above it
        obtain ⟨rfl, rfl⟩ := List.cons.inj hrun
        obtain rfl : a = [] := by
          have := eq_nil_of_leadLinked_value (allWriteBacks_versions ha) hl
          simpa using this
        have hm : mergeEntries (.value v :: es) = some (.value v) := by
          have habs : ∀ xs : List Entry, xs.foldl Entry.absorb (.value v) = .value v := by
            intro xs
            induction xs with
            | nil => rfl
            | cons x xs ih => exact ih
          simp [mergeEntries, habs]
        rw [hm] at hb
        cases hb with
        | inline _ h => exact ⟨trivial, .inl rfl⟩
        | separated _ p h hp =>
          refine ⟨?_, .inr ⟨v, p, rfl, by simp [headTarget, Entry.version, Version.denote], hp⟩⟩
          simp [Entry.version, LeadLinked]
      · have hn := firstValue_of_indexes hidx
        cases hm : mergeEntries (e :: es) with
        | none => simp [mergeEntries] at hm
        | some m =>
          have hmv := mergeVersions_of_mergeEntries hm
          obtain ⟨hl', hhead⟩ := leadLinked_merge hmv hn (versionsOf a) hl
          -- without inline values the merged entry is an index, and is kept as it is
          obtain ⟨b, rfl⟩ : ∃ b, m = .blobIndex b := by
            cases m with
            | blobIndex b => exact ⟨b, rfl⟩
            | value v => have := (firstValue_mergeVersions hmv).trans hn; simp [firstValue,
                Entry.version] at this
          obtain ⟨b', rfl⟩ : ∃ b', e = .blobIndex b' := by
            cases e with
            | blobIndex b' => exact ⟨b', rfl⟩
            | value v => exact absurd (hidx _ mem_cons_self) (by simp [Entry.type])
          obtain rfl : out = some (.blobIndex b) := by
            rw [hm] at hb
            cases hb
            rfl
          refine ⟨hl', .inl ?_⟩
          cases a with
          | cons x a => rfl
          | nil =>
            have hptr : b.ptr = b'.ptr := by simpa [headPtr, Entry.version] using hhead
            simp [headTarget, Entry.version, hptr]
    · refine ⟨leadLinked_append_congr (exists_not_moved ha) hl, .inl ?_⟩
      cases a with
      | nil => exact absurd (by simp [AllWriteBacks]) ha
      | cons x a => rfl

theorem ptrs_builds (hp : p ∈ ptrs out.toList) : p ∈ ptrs run ∨ ∃ v, Holds new p k v := by
  cases hm : mergeEntries run with
  | none =>
    rw [hm] at hb
    cases hb
    simp at hp
  | some m =>
    rw [hm] at hb
    cases hb with
    | inline v h => simp at hp
    | separated v q h hq =>
      obtain rfl : p = q := by simpa using hp
      exact .inr ⟨v, hq⟩
    | index b =>
      obtain rfl : p = b.ptr := by simpa using hp
      exact .inl (own_mergeVersions (mergeVersions_of_mergeEntries hm) (by simp [Entry.version]))

/-- A merge refers to each record at most once if the history did. -/
theorem nodup_builds {fs : Files K} (hf : Fresh fs new)
    (hs : ∀ p ∈ ptrs (a ++ (run ++ c)), ∃ v, Holds fs p k v) (hd : (ptrs (a ++ (run ++ c))).Nodup) :
    (ptrs (a ++ (out.toList ++ c))).Nodup := by
  have hcases : ptrs out.toList = [] ∨ ∃ p, ptrs out.toList = [p] := by
    cases out with
    | none => exact .inl rfl
    | some e => cases e <;> simp
  simp only [ptrs_append] at hs hd ⊢
  rcases hcases with hnil | ⟨p, hp⟩
  · rw [hnil, nil_append]
    exact hd.sublist ((List.Sublist.refl _).append (sublist_append_right _ _))
  · rw [hp]
    rcases ptrs_builds hb (p := p) (by simp [hp]) with hmem | ⟨v, hv⟩
    · exact hd.sublist ((List.Sublist.refl _).append
        ((singleton_sublist.mpr hmem).append (List.Sublist.refl _)))
    · have hnot : ∀ q ∈ ptrs a ++ (ptrs run ++ ptrs c), q ≠ p := by
        rintro q hq rfl
        obtain ⟨w, hw⟩ := hs q hq
        obtain ⟨recs, hrecs, -⟩ := hv
        exact hw.file_ne_none (hf _ _ hrecs).1
      have hdac : (ptrs a ++ ptrs c).Nodup :=
        hd.sublist ((List.Sublist.refl _).append (sublist_append_right _ _))
      refine (nodup_middle.mpr (nodup_cons.mpr ⟨fun hin => ?_, hdac⟩))
      rcases mem_append.mp hin with hin | hin
      · exact hnot p (mem_append_left _ hin) rfl
      · exact hnot p (mem_append_right _ (mem_append_right _ hin)) rfl

end

/-! ## What a read sees -/

/-- What a read of the key stops at, before it follows an index. -/
def seen (s : State K) (k : K) : Option (Target Bytes BlobPtr) :=
  (lsmVisible (s.mem k) (s.imm.map (· k)) (s.ssts k)).map fun e => e.version.denote

/-- The leading write-backs of a key are linked, or the active memtable has a
write-back right above an inline value. -/
def Linked (s : State K) (k : K) : Prop :=
  LeadLinked loc (versionsOf (s.history k)) ∨
    ∃ b v rest, s.mem k = .blobIndex b :: .value v :: rest ∧ b.oldFileNumber ≠ 0

variable {s : State K}

theorem seen_of_leadLinked {k : K} (h : LeadLinked loc (versionsOf (s.history k))) :
    seen s k = headTarget (s.history k) := by
  unfold seen lsmVisible headTarget
  unfold State.history at h ⊢
  cases hm : s.mem k with
  | nil => simp [memVisible]
  | cons e rest =>
    rw [hm] at h
    cases e with
    | value v => rfl
    | blobIndex b =>
      by_cases hb : b.oldFileNumber = 0
      · simp [memVisible, hb]
      · cases rest with
        | nil => simp [memVisible, hb]
        | cons e' rest =>
          cases e' with
          | blobIndex b' => simp [memVisible, hb]
          | value v =>
            simp only [versionsOf, cons_append, map_cons, Entry.version,
              indexVersion, hb, ↓reduceIte] at h
            obtain ⟨⟨j, hj, -⟩, -⟩ := h
            simp at hj

theorem seen_of_pending {k : K} {b : BlobIndex} {v : Bytes} {rest : List Entry}
    (h : s.mem k = .blobIndex b :: .value v :: rest) (hb : b.oldFileNumber ≠ 0) :
    seen s k = some (.value v) := by
  simp [seen, lsmVisible, memVisible, h, hb, Entry.version, Version.denote]

/-- A read that sees an address sees one of the history. -/
theorem seen_address_mem {k : K} (h : seen s k = some (.address p)) (hl : Linked s k) :
    p ∈ ptrs (s.history k) := by
  rcases hl with hl | ⟨b, v, rest, hm, hb⟩
  · rw [seen_of_leadLinked hl] at h
    cases hh : s.history k with
    | nil => simp [headTarget, hh] at h
    | cons e es =>
      rw [hh] at h
      cases e with
      | value v => simp [headTarget, Entry.version, Version.denote] at h
      | blobIndex b =>
        have hp : b.ptr = p := by simpa [headTarget, Entry.version] using h
        simp [hp]
  · rw [seen_of_pending hm hb] at h
    cases h

/-- `TitanDBImpl::Get` follows what is seen. -/
theorem get_eq (s : State K) (k : K) :
    s.get k = (match seen s k with
      | none => .error ⟨.notFound, ""⟩
      | some (.value v) => .ok v
      | some (.address p) => storageGet s.present p) := by
  rw [State.get, getImpl_rows, seen]
  cases lsmVisible (s.mem k) (s.imm.map (· k)) (s.ssts k) with
  | none => rfl
  | some e =>
    cases e with
    | value v => rfl
    | blobIndex b => simp [entryResult, titanGet, Entry.type, Entry.bytes, Entry.version]

end TitanGC.Offload.History
