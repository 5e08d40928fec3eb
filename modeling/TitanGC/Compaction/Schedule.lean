import TitanGC.Compaction.Resolution
import TitanGC.Lib.Runs

/-!
# Merging the runs of a history in any order

Flushes and compactions merge adjacent runs of a key's versions, each leaving
one entry, until one is left. `VersionStep` is one such merge on versions; the
bytes follow it (`versionStep_of_mergeStep`). The result is the same for every
order exactly for the histories of `ScheduleFree`.
-/

namespace TitanGC.Compaction.Schedule

open Lib.Relocation Lib.Runs List
open Relation (ReflTransGen)
open Format.BlobFormat Iterator Merge
open Resolution (staleMovedTwice)

variable {K : Type} [DecidableEq K]

/-- One flush or compaction: a run of adjacent entries becomes the entry that
`Preprocess` leaves for it. -/
def MergeStep (s t : List (Kv K)) : Prop :=
  ∃ a run b, run ≠ [] ∧ s = a ++ run ++ b ∧ t = a ++ preprocess run ++ b

def VersionStep (s t : List LsmVersion) : Prop :=
  ∃ a run b m, mergeVersions run = some m ∧ s = a ++ run ++ b ∧ t = a ++ m :: b

variable {es : List (Nat × Entry)} {t s xs : List LsmVersion}

/-- The entries between two merges stay encoded versions of the key. -/
theorem versionStep_of_mergeStep {k : K} {t : List (Kv K)} (h : MergeStep (rows k es) t) :
    ∃ es', t = rows k es' ∧ VersionStep (versions es) (versions es') := by
  obtain ⟨a, run, b, hne, hs, rfl⟩ := h
  obtain ⟨fs, gs, rfl, hfs, rfl⟩ := rows_append_inv hs
  obtain ⟨ds, rs, rfl, rfl, rfl⟩ := rows_append_inv hfs.symm
  have hrs : rs ≠ [] := by
    rintro rfl
    exact hne rfl
  obtain ⟨l, e, hp, hm⟩ := preprocess_rows k hrs
  refine ⟨ds ++ (l, e) :: gs, by rw [hp]; simp [rows], versions ds, versions rs, versions gs, e.version,
    hm, by simp [versions], by simp [versions]⟩

theorem mergeStep_of_versionStep (k : K) (h : VersionStep (versions es) t) :
    ∃ es', t = versions es' ∧ MergeStep (rows k es) (rows k es') := by
  obtain ⟨a, run, b, m, hm, hs, rfl⟩ := h
  obtain ⟨fs, gs, rfl, hfs, rfl⟩ := versions_append_inv hs
  obtain ⟨ds, rs, rfl, rfl, rfl⟩ := versions_append_inv hfs.symm
  have hrs : rs ≠ [] := by
    rintro rfl
    simp [versions, mergeVersions] at hm
  obtain ⟨l, e, hp, hm'⟩ := preprocess_rows k hrs
  obtain rfl : m = e.version := by simpa [hm] using hm'
  refine ⟨ds ++ (l, e) :: gs, by simp [versions], rows k ds, rows k rs, rows k gs,
    by simpa [rows] using hrs, by simp [rows], by rw [hp]; simp [rows]⟩

theorem firstValue_versionStep (h : VersionStep s t) : firstValue t = firstValue s := by
  obtain ⟨a, run, b, m, hm, rfl, rfl⟩ := h
  have hrun := firstValue_mergeVersions hm
  have happ : ∀ (x y : List LsmVersion), firstValue x = firstValue y →
      firstValue (x ++ b) = firstValue (y ++ b) := by
    intro x y hxy
    cases hy : firstValue y with
    | none => rw [firstValue_append_of_none (hxy.trans hy), firstValue_append_of_none hy]
    | some v =>
      rw [firstValue_append_of_some (hxy.trans hy), firstValue_append_of_some hy]
  rw [show a ++ m :: b = (a ++ [m]) ++ b by simp]
  refine happ _ _ ?_
  cases ha : firstValue a with
  | none => rw [firstValue_append_of_none ha, firstValue_append_of_none ha, hrun]
  | some v => rw [firstValue_append_of_some ha, firstValue_append_of_some ha]

def onePassPtr : List LsmVersion → Option BlobPtr
  | .plain i :: _ => some i
  | .moved i o :: y :: _ => y.own.map fun j => if o = loc j then i else j
  | _ => none

theorem mergeVersions_of_onePassPtr {p : BlobPtr} (hn : firstValue xs = none) (h : onePassPtr xs = some p) :
    mergeVersions xs = some (.plain p) := by
  cases xs with
  | nil => simp [onePassPtr] at h
  | cons x xs =>
    cases x with
    | value v => simp [onePassPtr] at h
    | plain i =>
      have hxs : firstValue xs = none := hn
      obtain rfl : i = p := by simpa [onePassPtr] using h
      exact mergeVersions_plain i hxs
    | moved i o =>
      cases xs with
      | nil => simp [onePassPtr] at h
      | cons y ys =>
        have hall := firstValue_eq_none_iff.mp hn
        simp only [onePassPtr, Option.map_eq_some_iff] at h
        obtain ⟨j, hj, rfl⟩ := h
        exact mergeVersions_moved hj
          (firstValue_eq_none_iff.mpr fun x hx => hall x (by simp [hx]))

theorem onePassPtr_isSome (hc : Complete xs) (hn : firstValue xs = none) : ∃ p, onePassPtr xs = some p := by
  cases xs with
  | nil => simp [Complete] at hc
  | cons x xs =>
    cases x with
    | value v => simp [firstValue] at hn
    | plain i => exact ⟨i, rfl⟩
    | moved i o =>
      cases xs with
      | nil => exact absurd hc (not_complete_moved i o)
      | cons y ys =>
        have hall := firstValue_eq_none_iff.mp hn
        obtain ⟨j, hj⟩ := Version.exists_own_of_not_value (hall y (by simp))
        exact ⟨if o = loc j then i else j, by simp [onePassPtr, hj]⟩

/-- The histories for which the order of merges does not matter: some version is
inline, or every leading write-back but the newest was copied from the address
of the version right below it. -/
def ScheduleFree (xs : List LsmVersion) : Prop :=
  (∃ x ∈ xs, x.isValue = true) ∨ ∀ i o rest, xs = .moved i o :: rest → LeadLinked loc rest

/-- What every list of entries between two merges keeps when no version is inline. -/
structure Settled (p : BlobPtr) (xs : List LsmVersion) : Prop where
  noValue : firstValue xs = none
  ptr : onePassPtr xs = some p
  linked : ∀ i o rest, xs = .moved i o :: rest → LeadLinked loc rest

theorem settled_versionStep {p : BlobPtr} (hs : Settled p s) (h : VersionStep s t) : Settled p t := by
  have hn : firstValue t = none := (firstValue_versionStep h).trans hs.noValue
  obtain ⟨a, run, b, m, hm, rfl, rfl⟩ := h
  cases a with
  | nil =>
    cases run with
    | nil => simp [mergeVersions] at hm
    | cons x xs =>
      cases xs with
      | nil =>
        obtain rfl : m = x := by simpa [mergeVersions] using hm.symm
        exact hs
      | cons y ys =>
        -- the run holds the two versions that decide, so it ends with their address
        have hrun : firstValue (x :: y :: ys) = none := by
          have hall := firstValue_eq_none_iff.mp hs.noValue
          exact firstValue_eq_none_iff.mpr fun z hz => hall z (by simp at hz ⊢; tauto)
        have hptr : onePassPtr (x :: y :: ys) = some p := by
          have h := hs.ptr
          cases x with
          | value v => simp [onePassPtr] at h
          | plain i => exact h
          | moved i o => exact h
        obtain rfl : m = .plain p := by
          simpa [mergeVersions_of_onePassPtr hrun hptr] using hm.symm
        exact ⟨hn, rfl, by simp⟩
  | cons x a =>
    cases x with
    | value v => simp [firstValue] at hn
    | plain i => exact ⟨hn, hs.ptr, by simp⟩
    | moved i o =>
      have hrun : firstValue run = none := by
        have hall := firstValue_eq_none_iff.mp hs.noValue
        exact firstValue_eq_none_iff.mpr fun z hz => hall z (by simp [hz])
      have hlink : LeadLinked loc (a ++ (run ++ b)) :=
        hs.linked i o _ (by simp)
      obtain ⟨hl, hhead⟩ := leadLinked_merge hm hrun a hlink
      have hptr (xs : List LsmVersion) :
          onePassPtr (.moved i o :: xs) = (headPtr xs).map fun j => if o = loc j then i else j := by
        cases xs <;> rfl
      refine ⟨hn, ?_, ?_⟩
      · have h := hs.ptr
        simp only [cons_append, append_assoc] at h ⊢
        rw [hptr] at h ⊢
        rw [hhead, h]
      · rintro i' o' rest h
        obtain ⟨-, rfl⟩ := List.cons.inj h
        exact hl

/-- Every order of merges ends with what one pass leaves. -/
theorem denote_of_scheduleFree {m e : LsmVersion} (hc : Complete xs) (hf : ScheduleFree xs)
    (hrun : ReflTransGen VersionStep xs [m]) (he : mergeVersions xs = some e) : m = e := by
  cases hv : firstValue xs with
  | some v =>
    have hm : firstValue [m] = some v :=
      run_invariant (firstValue · = some v)
        (fun s t hs hst => (firstValue_versionStep hst).trans hs) hrun hv
    obtain rfl : m = .value v := by cases m <;> simp_all [firstValue]
    exact Option.some.inj ((mergeVersions_of_firstValue hv).symm.trans he)
  | none =>
    obtain ⟨p, hp⟩ := onePassPtr_isSome hc hv
    have hlink : ∀ i o rest, xs = .moved i o :: rest → LeadLinked loc rest := by
      rcases hf with ⟨x, hx, hxv⟩ | hl
      · rw [firstValue_eq_none_iff.mp hv x hx] at hxv
        cases hxv
      · exact hl
    have hm : Settled p [m] :=
      run_invariant (Settled p) (fun s t => settled_versionStep) hrun ⟨hv, hp, hlink⟩
    obtain rfl : m = .plain p := by
      have := hm.ptr
      cases m <;> simp_all [onePassPtr]
    exact Option.some.inj ((mergeVersions_of_onePassPtr hv hp).symm.trans he)

theorem versionStep_cons (x : LsmVersion) (h : VersionStep s t) : VersionStep (x :: s) (x :: t) := by
  obtain ⟨a, run, b, m, hm, rfl, rfl⟩ := h
  exact ⟨x :: a, run, b, m, hm, rfl, rfl⟩

theorem run_cons (x : LsmVersion) (h : ReflTransGen VersionStep s t) :
    ReflTransGen VersionStep (x :: s) (x :: t) :=
  h.lift (x :: ·) fun _ _ => versionStep_cons x

/-- Merging from the old end, a chain with a broken link loses its newest address. -/
theorem divert (hc : Complete t) (hn : firstValue t = none) (hd : DistinctLocs t) (hl : ¬ LeadLinked loc t) :
    ∃ q t', ReflTransGen VersionStep t (.plain q :: t') ∧ firstValue t' = none ∧
      loc q ∈ (owns t.tail).map loc := by
  induction t with
  | nil => exact absurd trivial hl
  | cons x rest ih =>
    cases x with
    | value v => exact absurd trivial hl
    | plain i => exact absurd trivial hl
    | moved n o =>
      cases rest with
      | nil => exact absurd hc (not_complete_moved n o)
      | cons y u =>
        have hn' : firstValue (y :: u) = none := hn
        have hall := firstValue_eq_none_iff.mp hn'
        have hu : firstValue u = none :=
          firstValue_eq_none_iff.mpr fun z hz => hall z (by simp [hz])
        obtain ⟨j, hj⟩ := Version.exists_own_of_not_value (hall y (by simp))
        have hd' : DistinctLocs (y :: u) := by
          simp only [DistinctLocs, owns_cons, Version.own_moved, Option.toList_some,
            singleton_append, map_cons, nodup_cons] at hd ⊢
          exact hd.2
        have hju : loc j ∉ (owns u).map loc := by
          simp only [DistinctLocs, owns_cons, hj, Option.toList_some,
            singleton_append, map_cons, nodup_cons] at hd'
          exact hd'.1
        by_cases ho : loc j = o
        · have hl' : ¬ LeadLinked loc (y :: u) := fun h => hl ⟨⟨j, hj, ho⟩, h⟩
          obtain ⟨q, t', hrun, ht', hq⟩ := ih hc.tail hn' hd' hl'
          have hqo : o ≠ loc q := by
            rintro rfl
            exact hju (ho ▸ hq)
          refine ⟨q, t', (run_cons (.moved n o) hrun).tail
            ⟨[], [.moved n o, .plain q], t', .plain q, ?_, rfl, rfl⟩, ht', ?_⟩
          · rw [mergeVersions_moved rfl rfl, if_neg hqo]
          · rw [tail_cons, owns_cons, map_append]
            exact mem_append_right _ hq
        · refine ⟨j, u, .single ⟨[], [.moved n o, y], u, .plain j, ?_, rfl, rfl⟩, hu, ?_⟩
          · rw [mergeVersions_moved hj rfl, if_neg (Ne.symm ho)]
          · simp [owns_cons, hj]

theorem scheduleFree_of_denote {e : LsmVersion} (hc : Complete xs) (hd : DistinctLocs xs)
    (he : mergeVersions xs = some e) (h : ∀ m, ReflTransGen VersionStep xs [m] → m.denote = e.denote) :
    ScheduleFree xs := by
  by_cases hv : ∃ x ∈ xs, x.isValue = true
  · exact .inl hv
  refine .inr ?_
  rintro i o rest rfl
  by_contra hl
  have hn : firstValue (.moved i o :: rest) = none :=
    firstValue_eq_none_iff.mpr fun x hx => Bool.eq_false_iff.mpr fun hx' => hv ⟨x, hx, hx'⟩
  cases rest with
  | nil => exact hl trivial
  | cons y u =>
    have hall := firstValue_eq_none_iff.mp hn
    obtain ⟨j, hj⟩ := Version.exists_own_of_not_value (hall y (by simp))
    have hu : firstValue u = none :=
      firstValue_eq_none_iff.mpr fun z hz => hall z (by simp [hz])
    simp only [DistinctLocs, owns_cons, Version.own_moved, hj, Option.toList_some,
      singleton_append, map_cons, nodup_cons, mem_cons, not_or] at hd
    obtain ⟨⟨hij, hi⟩, hju, hdu⟩ := hd
    have hd' : DistinctLocs (y :: u) := by
      simp only [DistinctLocs, owns_cons, hj, Option.toList_some, singleton_append,
        map_cons, nodup_cons]
      exact ⟨hju, hdu⟩
    obtain ⟨q, t', hrun, ht', hq⟩ := divert hc.tail hn hd' hl
    rw [tail_cons] at hq
    -- the other order: merge the broken chain first, then everything
    have hend : VersionStep (.moved i o :: .plain q :: t') [.plain (if o = loc q then i else q)] :=
      ⟨[], .moved i o :: .plain q :: t', [], _, mergeVersions_moved rfl ht', by simp, rfl⟩
    have hother := h _ ((run_cons (.moved i o) hrun).tail hend)
    rw [mergeVersions_moved hj hu] at he
    obtain rfl := Option.some.inj he
    simp only [Version.denote, Target.address.injEq] at hother
    have hiq : loc i ≠ loc q := fun heq => hi (heq ▸ hq)
    have hjq : loc j ≠ loc q := fun heq => hju (heq ▸ hq)
    by_cases ho : o = loc j
    · rw [if_pos ho, if_neg (by rw [ho]; exact hjq)] at hother
      exact hiq (congrArg loc hother.symm)
    · rw [if_neg ho] at hother
      split at hother
      · exact hij (congrArg loc hother)
      · exact hjq (congrArg loc hother.symm)

theorem versionRun_of_mergeRun {k : K} {t : List (Kv K)} (h : ReflTransGen MergeStep (rows k es) t) :
    ∃ es', t = rows k es' ∧ ReflTransGen VersionStep (versions es) (versions es') := by
  induction h with
  | refl => exact ⟨es, rfl, .refl⟩
  | tail _ hst ih =>
    obtain ⟨es', rfl, hrun⟩ := ih
    obtain ⟨es'', rfl, hstep⟩ := versionStep_of_mergeStep hst
    exact ⟨es'', rfl, hrun.tail hstep⟩

theorem mergeRun_of_versionRun (k : K) (h : ReflTransGen VersionStep (versions es) t) :
    ∃ es', t = versions es' ∧ ReflTransGen MergeStep (rows k es) (rows k es') := by
  induction h with
  | refl => exact ⟨es, rfl, .refl⟩
  | tail _ hst ih =>
    obtain ⟨es', rfl, hrun⟩ := ih
    obtain ⟨es'', rfl, hstep⟩ := mergeStep_of_versionStep k hst
    exact ⟨es'', rfl, hrun.tail hstep⟩

/-- Splitting a history into runs and merging adjacent runs step by step ends, in
whatever order, with an entry that denotes what one pass over the whole history
leaves, for the histories of `ScheduleFree`, and only for these among the histories
whose versions are at distinct locations. -/
theorem schedule_independent_iff (k : K) (es : List (Nat × Entry))
    (hc : Complete (versions es)) :
    (ScheduleFree (versions es) →
      ∀ kv, ReflTransGen MergeStep (rows k es) [kv] →
        [target kv] = (preprocess (rows k es)).map target) ∧
    (DistinctLocs (versions es) →
      (∀ kv, ReflTransGen MergeStep (rows k es) [kv] →
        [target kv] = (preprocess (rows k es)).map target) →
      ScheduleFree (versions es)) := by
  have hne : es ≠ [] := by
    rintro rfl
    simp [Complete, versions] at hc
  obtain ⟨l, e, hp, hm⟩ := preprocess_rows k hne
  constructor
  · intro hf kv hrun
    obtain ⟨es', hes', hrun'⟩ := versionRun_of_mergeRun hrun
    obtain ⟨l', e', rfl, rfl⟩ := eq_singleton_of_rows hes'
    have hv : e'.version = e.version := denote_of_scheduleFree hc hf hrun' hm
    simp [hp, hv]
  · intro hd h
    refine scheduleFree_of_denote hc hd hm fun m hrun => ?_
    obtain ⟨es', hes', hrun'⟩ := mergeRun_of_versionRun k hrun
    obtain ⟨l', e', rfl, rfl⟩ := eq_singleton_of_versions hes'
    have heq := h (e'.kv k l') hrun'
    simpa [hp] using heq

/-- A stale record moved twice above the user's record: one pass keeps the stale
record, merging the two older versions first keeps the user's. -/
theorem schedule_matters :
    Complete (versions staleMovedTwice) ∧ DistinctLocs (versions staleMovedTwice) ∧
    (preprocess (rows 0 staleMovedTwice)).map target = [some (.address ⟨7, ⟨12, 30, 0⟩⟩)] ∧
    ∃ kv, ReflTransGen MergeStep (rows 0 staleMovedTwice) [kv] ∧
      target kv = some (.address ⟨5, ⟨12, 30, 0⟩⟩) := by
  let user : Entry := .blobIndex { fileNumber := 5, blobHandle := ⟨12, 30, 0⟩ }
  let second : Entry := .blobIndex ⟨7, ⟨12, 30, 0⟩, 6, ⟨12, 30, 0⟩⟩
  refine ⟨⟨_, rfl, rfl⟩, by unfold DistinctLocs; decide, by decide, user.kv 0 3, ?_, by decide⟩
  have h1 : MergeStep (rows 0 staleMovedTwice) [second.kv 0 3, user.kv 0 2] :=
    ⟨[second.kv 0 3], rows 0 (staleMovedTwice.drop 1), [], by decide, by decide, by decide⟩
  have h2 : MergeStep [second.kv 0 3, user.kv 0 2] [user.kv 0 3] :=
    ⟨[], [second.kv 0 3, user.kv 0 2], [], by decide, by decide, by decide⟩
  exact (ReflTransGen.single h1).tail h2

/-- A record moved once is found by every order of merges. -/
theorem schedule_independent_moved_once :
    Complete (versions (staleMovedTwice.drop 1)) ∧
      ∀ kv, ReflTransGen MergeStep (rows 0 (staleMovedTwice.drop 1)) [kv] →
        [target kv] = (preprocess (rows 0 (staleMovedTwice.drop 1))).map target := by
  refine ⟨⟨_, rfl, rfl⟩,
    (schedule_independent_iff 0 (staleMovedTwice.drop 1) ⟨_, rfl, rfl⟩).1 (.inr ?_)⟩
  rintro i o rest h
  simp only [staleMovedTwice, versions, Entry.version, drop_succ_cons, drop_zero,
    map_cons, map_nil, List.cons.injEq] at h
  obtain ⟨-, rfl⟩ := h
  trivial

end TitanGC.Compaction.Schedule
