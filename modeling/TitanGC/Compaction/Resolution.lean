import TitanGC.Compaction.Merge

/-!
# What compaction makes of write-backs

`Preprocess` compares each version only with the one right above it, newest
first, and drops the old location at the first comparison. This module states
exactly for which histories the entry it leaves is the one the history resolves
to, and for which histories the order in which runs are merged does not matter.
-/

namespace TitanGC.Compaction.Resolution

open Lib.Relocation List Iterator Merge

variable {K : Type} [DecidableEq K]

/-! ## One pass -/

/-- The histories that one pass resolves. Either the newest version that is not
a write-back is inline; or no version is inline, and if the two newest versions
are write-backs then the second one was copied from where the older versions
still lead. -/
def OnePassResolves (xs : List LsmVersion) : Prop :=
  LeadsToValue xs ∨
    ((∀ x ∈ xs, x.isValue = false) ∧
      ∀ i o j p rest, xs = .moved i o :: .moved j p :: rest → ResolvesAt loc rest p)

theorem merge_resolves_of_onePass {xs : List LsmVersion} (hc : Complete xs)
    (h : OnePassResolves xs) : (mergeVersions xs).map Version.denote = resolve loc xs := by
  rcases h with hv | ⟨hn, hsecond⟩
  · obtain ⟨v, hv⟩ := (resolve_value_iff loc).mpr hv
    rw [mergeVersions_of_firstValue (firstValue_of_resolve loc hv), hv]
    rfl
  · have hnone := firstValue_eq_none_iff.mpr hn
    cases xs with
    | nil => rfl
    | cons x xs =>
      cases x with
      | value v => simp at hn
      | plain i =>
        have hrest : firstValue xs = none := hnone
        rw [mergeVersions_plain i hrest]
        rfl
      | moved i o =>
        cases xs with
        | nil => exact absurd hc (not_complete_moved i o)
        | cons y rest =>
          have hrest : firstValue rest = none :=
            firstValue_eq_none_iff.mpr fun x hx => hn x (by simp [hx])
          obtain ⟨j, hj⟩ := Version.exists_own_of_not_value (hn y (by simp))
          -- below the newest write-back the history resolves to the address of `y`
          have hy : resolve loc (y :: rest) = some (.address j) := by
            cases y with
            | value v => simp at hj
            | plain k => simp_all [resolve]
            | moved k p =>
              obtain rfl : k = j := by simpa using hj
              exact resolve_moved_of_at loc (hsecond i o k p rest rfl)
          rw [mergeVersions_moved hj hrest]
          simp only [Option.map_some, Version.denote, resolve, hy, eq_comm]

theorem onePass_of_merge_resolves {xs : List LsmVersion} (hc : Complete xs)
    (hd : DistinctLocs xs) (h : (mergeVersions xs).map Version.denote = resolve loc xs) :
    OnePassResolves xs := by
  obtain ⟨t, ht⟩ := Option.isSome_iff_exists.mp (resolve_isSome loc hc)
  cases t with
  | value v => exact .inl ((resolve_value_iff loc).mp ⟨v, ht⟩)
  | address q =>
    have hnone : firstValue xs = none := by
      cases hf : firstValue xs with
      | none => rfl
      | some v => rw [mergeVersions_of_firstValue hf, ht] at h; simp [Version.denote] at h
    refine .inr ⟨firstValue_eq_none_iff.mp hnone, ?_⟩
    rintro i o j p rest rfl
    have hrest : firstValue rest = none := hnone
    have hcr : Complete rest := by
      cases rest with
      | nil => exact absurd hc.tail (not_complete_moved j p)
      | cons z rest => exact hc.tail.tail
    obtain ⟨r, hr⟩ := resolve_of_complete loc hcr hrest
    by_contra hnot
    have hrp : loc r ≠ p := fun he => hnot ⟨r, hr, he⟩
    rw [mergeVersions_moved rfl hrest] at h
    simp only [Option.map_some, Version.denote, resolve, hr, hrp, ↓reduceIte, Option.some.injEq,
      Target.address.injEq] at h
    -- `r` is the address of a version older than both write-backs
    have hmem : loc r ∈ (owns rest).map loc := mem_map_of_mem (resolve_address_mem loc hr)
    simp only [DistinctLocs, owns_cons, Version.own_moved, Option.toList_some, singleton_append,
      map_cons, nodup_cons, mem_cons, not_or] at hd
    obtain ⟨⟨hij, hi⟩, hj, -⟩ := hd
    have hir : loc i ≠ loc r := fun he => hi (he ▸ hmem)
    have hjr : loc j ≠ loc r := fun he => hj (he ▸ hmem)
    by_cases ho : o = loc j
    · rw [if_pos ho, if_neg (by rw [ho]; exact hjr.symm)] at h
      exact hir (congrArg loc h)
    · rw [if_neg ho] at h
      split at h
      · exact hij (congrArg loc h.symm)
      · exact hjr (congrArg loc h)

/-- The single entry that `Preprocess` keeps for a key denotes what the history
resolves to for the histories of `OnePassResolves`, and only for these among the
histories whose versions are at distinct locations. -/
theorem preprocess_resolves_iff (k : K) (es : List (Nat × Entry)) (hc : Complete (versions es)) :
    (OnePassResolves (versions es) →
      (preprocess (rows k es)).map target = [resolve loc (versions es)]) ∧
    (DistinctLocs (versions es) →
      (preprocess (rows k es)).map target = [resolve loc (versions es)] →
      OnePassResolves (versions es)) := by
  have hne : es ≠ [] := by
    rintro rfl
    simp [Complete, versions] at hc
  obtain ⟨l, e, hp, hm⟩ := preprocess_rows k hne
  have hiff : (preprocess (rows k es)).map target = [resolve loc (versions es)] ↔
      (mergeVersions (versions es)).map Version.denote = resolve loc (versions es) := by
    simp [hp, hm]
  rw [hiff]
  exact ⟨merge_resolves_of_onePass hc, onePass_of_merge_resolves hc⟩

/-- A small value, then a large one that a flush has moved to file 5. -/
def largeOverSmall : List (Nat × Entry) :=
  [(2, .blobIndex { fileNumber := 5, blobHandle := ⟨12, 30, 0⟩ }), (1, .value [7])]

/-- The user's record is in file 5. A stale record of the same key was moved from
file 3 to file 6, and from there to file 7. -/
def staleMovedTwice : List (Nat × Entry) :=
  [(3, .blobIndex ⟨7, ⟨12, 30, 0⟩, 6, ⟨12, 30, 0⟩⟩),
   (2, .blobIndex ⟨6, ⟨12, 30, 0⟩, 3, ⟨12, 30, 0⟩⟩),
   (1, .blobIndex { fileNumber := 5, blobHandle := ⟨12, 30, 0⟩ })]

/-- One pass keeps the overwritten small value, and it keeps the stale record. -/
theorem preprocess_keeps_stale :
    (Complete (versions largeOverSmall) ∧ DistinctLocs (versions largeOverSmall) ∧
      (preprocess (rows 0 largeOverSmall)).map target = [some (.value [7])] ∧
      resolve loc (versions largeOverSmall) = some (.address ⟨5, ⟨12, 30, 0⟩⟩)) ∧
    (Complete (versions staleMovedTwice) ∧ DistinctLocs (versions staleMovedTwice) ∧
      (preprocess (rows 0 staleMovedTwice)).map target = [some (.address ⟨7, ⟨12, 30, 0⟩⟩)] ∧
      resolve loc (versions staleMovedTwice) = some (.address ⟨5, ⟨12, 30, 0⟩⟩)) := by
  refine ⟨⟨⟨_, rfl, rfl⟩, ?_, ?_, rfl⟩, ⟨⟨_, rfl, rfl⟩, ?_, ?_, rfl⟩⟩
  · unfold DistinctLocs; decide
  · decide
  · unfold DistinctLocs; decide
  · decide

/-- A record moved once, with nothing else in the history, is resolved. -/
theorem preprocess_resolves_moved_once :
    (preprocess (rows 0 (staleMovedTwice.drop 1))).map target
      = [resolve loc (versions (staleMovedTwice.drop 1))] := by
  refine (preprocess_resolves_iff 0 (staleMovedTwice.drop 1) ⟨_, rfl, rfl⟩).1 (.inr ⟨?_, ?_⟩)
  · decide
  · rintro i o j p rest h
    simp [staleMovedTwice, versions, Entry.version, indexVersion] at h

end TitanGC.Compaction.Resolution
