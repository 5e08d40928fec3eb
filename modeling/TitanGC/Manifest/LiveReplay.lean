import TitanGC.Manifest.Mirror

/-!
# Replay equals live application

Every operation of an open `BlobFileSet` keeps the manifest a mirror of the
storages, so the replay of the manifest always gives the live files. This needs
edits to be for open column families: `Seal` and `Apply` skip the others, while
their records are logged all the same. It also needs an edit that failed with a
durable record not to be tried again, because the replay sees both records.
-/

namespace TitanGC.Manifest.LiveReplay

open Lib.Runs Format.Coding List Function VersionEdits Families Logging Mirror OpenSet

variable {iterate : BlobStorage → List (UInt64 × StoredFile)} {s : State} {log : List VersionEdit}

/-! ## Logged edits -/

/-- What the invariant reads of a state. -/
theorem mirrors_congr (h : Mirrors s log) {t : State} (hmanifest : t.set.manifest = s.set.manifest)
    (hnext : t.set.nextFileNumber = s.set.nextFileNumber)
    (hfamilies : t.set.columnFamilies = s.set.columnFamilies) (hunused : t.unused = s.unused)
    (hfailed : t.failed = s.failed) : Mirrors t log where
  records := hmanifest ▸ h.records
  consistent := h.consistent
  paired := h.paired
  next := hnext ▸ h.next
  unused_lt := hnext ▸ hunused ▸ h.unused_lt
  unused_new := hfailed ▸ hunused ▸ h.unused_new
  familiesOnce := hfamilies ▸ h.familiesOnce
  storage := hnext ▸ hunused ▸ hfamilies ▸ h.storage
  agrees := hfailed ▸ hfamilies ▸ h.agrees

theorem mirrors_logAndApply (h : Mirrors s log) {w : Write} {edit : VersionEdit}
    (hkeys : edit.KeysFit) (hunused : ∀ f ∈ edit.addedFiles, f.fileNumber ∈ s.unused)
    (hknown : numbers edit = [] ∨ edit.columnFamilyId ∈ s.set.columnFamilies.map (·.1))
    (hrepeat : ∀ n ∈ numbers edit, Untouched s.failed n) :
    ∃ log', Mirrors (s.after edit (s.set.logAndApply w edit)) log' ∧
      (w = .ok → (s.after edit (s.set.logAndApply w edit)).failed = s.failed) := by
  rcases logAndApply_cases s.set w edit with
    ⟨status, hrefused⟩ | ⟨hown, hfits, ⟨⟨status, hfailed⟩, hw⟩ | happlied⟩
  · refine ⟨log, ?_, fun _ => ?_⟩
    · rw [hrefused]
      exact mirrors_congr h rfl rfl rfl rfl (by simp [State.after])
    · rw [hrefused]
      simp [State.after]
  all_goals
    have hadd : ∀ f ∈ edit.addedFiles, f.fileNumber ∈ s.unused ∧ Untouched s.failed f.fileNumber :=
      fun f hf => ⟨hunused f hf,
        hrepeat _ (mem_append_left _ (mem_map_of_mem hf))⟩
    have hdel := deletes_logged h hknown hrepeat hfits
  · refine ⟨log ++ [(numbered s.set edit).persistent], ?_, fun hok => absurd hok hw⟩
    rw [hfailed]
    exact mirrors_congr (mirrors_failed h hadd hown hdel hkeys) rfl rfl rfl rfl
      (by simp [State.after, addRecord])
  · refine ⟨log ++ [(numbered s.set edit).persistent], ?_, fun _ => ?_⟩
    · rw [happlied]
      exact mirrors_applied h hadd hown hdel hkeys hfits
    · rw [happlied]
      rfl

variable {st : BlobStorage}

section

variable {w : Write} {cf : UInt32} {q : Nat}

theorem dropColumnFamily_eq {id : UInt32}
    (hfind : s.set.columnFamilies.find? (·.1 == cf) = some (id, st)) :
    ∃ columns, s.after (dropEdit cf q (iterate st)) (s.set.dropColumnFamily iterate w cf q) =
      let t := s.after (dropEdit cf q (iterate st))
        (s.set.logAndApply w (dropEdit cf q (iterate st)))
      { t with set := { t.set with obsoleteColumns := columns } } := by
  rw [dropColumnFamily, hfind]
  dsimp only
  generalize s.set.logAndApply w (dropEdit cf q (iterate st)) = r
  obtain ⟨status, set⟩ := r
  cases status with
  | none => exact ⟨_, rfl⟩
  | some status => exact ⟨set.obsoleteColumns, rfl⟩

theorem mirrors_dropColumnFamily (hit : ∀ st, Iterates st (iterate st)) (h : Mirrors s log)
    (hrepeat : NotRepeated s (.dropColumnFamily w cf q)) :
    ∃ log', Mirrors (exec iterate s (.dropColumnFamily w cf q)) log' ∧
      (w = .ok → (exec iterate s (.dropColumnFamily w cf q)).failed = s.failed) := by
  rw [exec]
  cases hfind : s.set.columnFamilies.find? (·.1 == cf) with
  | none => exact ⟨log, h, fun _ => rfl⟩
  | some f =>
    obtain ⟨id, st⟩ := f
    dsimp only
    have hmem := mem_of_find?_eq_some hfind
    have hid : id = cf := by simpa using find?_some hfind
    obtain ⟨columns, heq⟩ := dropColumnFamily_eq (s := s) (w := w) (q := q) hfind
    rw [heq]
    have hkeys : (dropEdit cf q (iterate st)).KeysFit := fun f hf => by cases hf
    have huntouched : ∀ n ∈ numbers (dropEdit cf q (iterate st)), Untouched s.failed n := by
      intro n hn
      simp only [numbers, dropEdit, map_nil, nil_append, map_map,
        mem_map, comp_def] at hn
      obtain ⟨d, hd, rfl⟩ := hn
      obtain ⟨hmem', hlive⟩ := mem_filter.mp hd
      exact hrepeat (id, st) hmem hid d.1 d.2 (((hit st).2 d.1 d.2).mp hmem') (by simpa using hlive)
    obtain ⟨log', hlog', hfailed⟩ := mirrors_logAndApply (w := w) h hkeys
      (fun f hf => by cases hf) (.inr (mem_map.mpr ⟨(id, st), hmem, hid⟩)) huntouched
    exact ⟨log', mirrors_congr hlog' rfl rfl rfl rfl rfl, hfailed⟩

end

/-! ## The other operations -/

theorem toNat_succ {n : UInt64} (h : n.toNat + 1 < 2 ^ 64) : (n + 1).toNat = n.toNat + 1 := by
  rw [UInt64.toNat_add]
  exact Nat.mod_eq_of_lt h

theorem lt_succ_of_le {n m : UInt64} (h : m.toNat + 1 < 2 ^ 64) (hle : n ≤ m) : n < m + 1 := by
  rw [UInt64.lt_iff_toNat_lt, toNat_succ h]
  rw [UInt64.le_iff_toNat_le] at hle
  omega

variable {unused : List UInt64}

theorem storageOk_succ {next : UInt64} (h : StorageOk next unused st)
    (hwrap : next.toNat + 1 < 2 ^ 64) : StorageOk (next + 1) unused st :=
  { h with number := fun n g hg =>
      let ⟨hnum, hlt, hrest⟩ := h.number n g hg
      ⟨hnum, lt_succ_of_le hwrap (UInt64.le_of_lt hlt), hrest⟩ }

theorem mirrors_newFileNumber (h : Mirrors s log)
    (hwrap : s.set.nextFileNumber.toNat + 1 < 2 ^ 64) : Mirrors (exec iterate s .newFileNumber) log where
  __ := h
  next := by
    obtain ⟨n, hn, hle, hlt⟩ := h.next
    exact ⟨n, hn, UInt64.le_of_lt (lt_succ_of_le hwrap hle), hlt⟩
  unused_lt := by
    intro n hn
    rcases mem_cons.mp hn with rfl | hn
    · exact lt_succ_of_le hwrap (UInt64.le_refl _)
    · exact lt_succ_of_le hwrap (UInt64.le_of_lt (h.unused_lt n hn))
  unused_new := by
    intro n hn hu cf hmem
    rcases mem_cons.mp hn with rfl | hn
    · obtain ⟨f, hf, heq⟩ := mem_map.mp hmem
      obtain ⟨m, -, hle, hlt⟩ := h.next
      have := UInt64.lt_of_lt_of_le (hlt cf f hf) hle
      rw [heq] at this
      exact UInt64.lt_irrefl _ this
    · exact h.unused_new n hn hu cf hmem
  storage := by
    intro f hf
    refine { storageOk_succ (h.storage f hf) hwrap with number := fun n g hg => ?_ }
    obtain ⟨hnum, hlt, hnot, hkeys⟩ := (h.storage f hf).number n g hg
    refine ⟨hnum, lt_succ_of_le hwrap (UInt64.le_of_lt hlt), fun hin => ?_, hkeys⟩
    rcases mem_cons.mp hin with rfl | hin
    · exact UInt64.lt_irrefl _ hlt
    · exact hnot hin

/-- Opening column families keeps what holds of the open ones and of empty new ones. -/
theorem addColumnFamilies_invariant (P : UInt32 × BlobStorage → Prop) (ids : List UInt32)
    (set : BlobFileSet) (hset : ∀ f ∈ set, P f) (honce : (set.map (·.1)).Nodup)
    (hnew : ∀ cf ∈ ids, cf ∉ set.map (·.1) → P (cf, {})) :
    (∀ f ∈ ids.foldl addFamily set, P f) ∧
      ((ids.foldl addFamily set).map (·.1)).Nodup := by
  induction ids generalizing set with
  | nil => exact ⟨hset, honce⟩
  | cons id ids ih =>
    rw [foldl_cons, addFamily]
    by_cases hany : set.any (·.1 == id) = true
    · rw [if_pos hany]
      exact ih set hset honce fun cf hcf => hnew cf (mem_cons_of_mem _ hcf)
    · have hid : id ∉ set.map (·.1) := by
        intro hmem
        obtain ⟨f, hf, rfl⟩ := mem_map.mp hmem
        exact hany (any_eq_true.mpr ⟨f, hf, by simp⟩)
      rw [if_neg hany]
      refine ih _ ?_ ?_ ?_
      · intro f hf
        rcases mem_append.mp hf with hf | hf
        · exact hset f hf
        · rw [mem_singleton.mp hf]
          exact hnew id mem_cons_self hid
      · exact nodup_map_append_singleton honce hid
      · intro cf hcf hnot
        refine hnew cf (mem_cons_of_mem _ hcf) fun hin => hnot ?_
        rw [map_append]
        exact mem_append_left _ hin

theorem storageOk_empty (next : UInt64) (unused : List UInt64) : StorageOk next unused {} where
  number := fun n f hf => by cases hf
  obsolete := fun d hd => by cases hd
  obsoleteOnce := nodup_nil

theorem mirrors_addColumnFamilies {ids : List UInt32} (h : Mirrors s log)
    (hknown : KnownFamily s (.addColumnFamilies ids)) :
    Mirrors (exec iterate s (.addColumnFamilies ids)) log := by
  have hinv := addColumnFamilies_invariant
    (fun f => StorageOk s.set.nextFileNumber s.unused f.2 ∧ Agrees s.failed log f.1 f.2) ids
    s.set.columnFamilies (fun f hf => ⟨h.storage f hf, h.agrees f hf⟩) h.familiesOnce (by
      intro cf hcf hnew
      refine ⟨storageOk_empty _ _, fun n _ f => ⟨fun hf => ?_, fun hf => by cases hf.1⟩⟩
      obtain ⟨-, hmem, hnum, hdel⟩ := (replayed_files h.consistent cf n f).mp hf
      exact absurd (hnum ▸ hknown cf hcf hnew log h.records f.file hmem) hdel)
  exact { h with
    familiesOnce := hinv.2
    storage := fun f hf => (hinv.1 f hf).1
    agrees := fun f hf => (hinv.1 f hf).2 }

/-- Column families may go, and storages may lose obsolete files. -/
theorem mirrors_shrink (h : Mirrors s log) {families : BlobFileSet} {set : OpenSet}
    (hset : set.manifest = s.set.manifest ∧ set.nextFileNumber = s.set.nextFileNumber ∧
      set.columnFamilies = families)
    (honce : (families.map (·.1)).Nodup)
    (hshrink : ∀ f ∈ families, ∃ f₀ ∈ s.set.columnFamilies, f.1 = f₀.1 ∧
      StorageOk s.set.nextFileNumber s.unused f.2 ∧
      ∀ n g, g.isObsolete = false → (f.2.files n = some g ↔ f₀.2.files n = some g)) :
    Mirrors { s with set } log where
  records := hset.1 ▸ h.records
  consistent := h.consistent
  paired := h.paired
  next := hset.2.1 ▸ h.next
  unused_lt := hset.2.1 ▸ h.unused_lt
  unused_new := h.unused_new
  familiesOnce := hset.2.2 ▸ honce
  storage := by
    intro f hf
    obtain ⟨f₀, -, -, hst, -⟩ := hshrink f (hset.2.2 ▸ hf)
    exact hset.2.1 ▸ hst
  agrees := by
    intro f hf n hn g
    obtain ⟨f₀, hf₀, hid, -, hfiles⟩ := hshrink f (hset.2.2 ▸ hf)
    rw [hid, h.agrees f₀ hf₀ n hn g]
    constructor
    · exact fun ⟨hg, hlive⟩ => ⟨(hfiles n g hlive).mpr hg, hlive⟩
    · exact fun ⟨hg, hlive⟩ => ⟨(hfiles n g hlive).mp hg, hlive⟩

theorem mirrors_maybeDestroyColumnFamily {cf : UInt32} (h : Mirrors s log) :
    Mirrors (exec iterate s (.maybeDestroyColumnFamily cf)) log := by
  have hsame : ∀ f ∈ s.set.columnFamilies, ∃ f₀ ∈ s.set.columnFamilies, f.1 = f₀.1 ∧
      StorageOk s.set.nextFileNumber s.unused f.2 ∧
      ∀ n g, g.isObsolete = false → (f.2.files n = some g ↔ f₀.2.files n = some g) :=
    fun f hf => ⟨f, hf, rfl, h.storage f hf, fun _ _ _ => Iff.rfl⟩
  rw [exec, maybeDestroyColumnFamily]
  dsimp only
  cases s.set.columnFamilies.find? (·.1 == cf) with
  | none => exact mirrors_shrink h ⟨rfl, rfl, rfl⟩ h.familiesOnce hsame
  | some f =>
    dsimp only
    split
    · exact mirrors_shrink h ⟨rfl, rfl, rfl⟩ (h.familiesOnce.sublist (filter_sublist.map _))
        fun f hf => hsame f (mem_filter.mp hf).1
    · exact mirrors_shrink h ⟨rfl, rfl, rfl⟩ h.familiesOnce hsame

theorem map_filterMap_sublist {α β κ : Type} (p : α → Option β) (g : α → κ) (g' : β → κ)
    (hp : ∀ a b, p a = some b → g' b = g a) (l : List α) :
    ((l.filterMap p).map g').Sublist (l.map g) := by
  induction l with
  | nil => exact List.Sublist.slnil
  | cons a l ih =>
    cases hpa : p a with
    | none => simpa [hpa] using ih.cons (g a)
    | some b => simpa [hpa, hp a b hpa] using ih

/-- A purge takes obsolete files only. -/
theorem storageOk_getObsoleteFiles {next : UInt64} (h : StorageOk next unused st) (q : Nat) :
    StorageOk next unused (st.getObsoleteFiles q).1 ∧
      ∀ n g, g.isObsolete = false →
        ((st.getObsoleteFiles q).1.files n = some g ↔ st.files n = some g) := by
  have hgone : ∀ n, n ∈ (st.obsoleteFiles.filter fun f => f.2 < q).map (·.1) →
      ∃ d ∈ st.obsoleteFiles, d.2 < q ∧ d.1 = n := by
    intro n hn
    obtain ⟨d, hd, rfl⟩ := mem_map.mp hn
    exact ⟨d, (mem_filter.mp hd).1, by simpa using (mem_filter.mp hd).2, rfl⟩
  have hkept : ∀ n g, (st.getObsoleteFiles q).1.files n = some g → st.files n = some g := by
    intro n g hg
    simp only [BlobStorage.getObsoleteFiles] at hg
    split at hg
    · cases hg
    · exact hg
  refine ⟨⟨fun n g hg => h.number n g (hkept n g hg), ?_, ?_⟩, fun n g hlive => ⟨hkept n g, ?_⟩⟩
  · intro d hd
    obtain ⟨hmem, hlate⟩ := mem_filter.mp hd
    obtain ⟨f, hf, hob⟩ := h.obsolete d hmem
    refine ⟨f, ?_, hob⟩
    simp only [BlobStorage.getObsoleteFiles]
    rw [if_neg, hf]
    intro hin
    obtain ⟨d', hmem', hearly, heq⟩ := hgone _ hin
    rw [inj_on_of_nodup_map h.obsoleteOnce hmem' hmem heq] at hearly
    simp [hearly] at hlate
  · exact h.obsoleteOnce.sublist (filter_sublist.map _)
  · intro hg
    simp only [BlobStorage.getObsoleteFiles]
    rw [if_neg, hg]
    intro hin
    obtain ⟨d, hd, -, rfl⟩ := hgone n hin
    obtain ⟨f, hf, hob⟩ := h.obsolete d hd
    rw [hg] at hf
    cases hf
    rw [hob] at hlive
    cases hlive

theorem mirrors_getObsoleteFiles {q : Nat} (h : Mirrors s log) :
    Mirrors (exec iterate s (.getObsoleteFiles q)) log := by
  have hpurge : ∀ f f', s.set.purgeFamily q f = some f' →
      f'.1 = f.1 ∧ (f'.2 = f.2 ∨ f'.2 = (f.2.getObsoleteFiles q).1) := by
    intro f f' hf'
    rw [purgeFamily] at hf'
    split at hf'
    · cases hf'
      exact ⟨rfl, .inl rfl⟩
    · dsimp only at hf'
      split at hf'
      · cases hf'
      · cases hf'
        exact ⟨rfl, .inr rfl⟩
  refine mirrors_shrink h ⟨rfl, rfl, rfl⟩
    (h.familiesOnce.sublist (map_filterMap_sublist _ _ _ (fun f f' hf' => (hpurge f f' hf').1) _)) ?_
  intro f' hf'
  obtain ⟨f, hf, hff'⟩ := mem_filterMap.mp hf'
  obtain ⟨hid, hst⟩ := hpurge f f' hff'
  have hpurged := storageOk_getObsoleteFiles (h.storage f hf) q
  refine ⟨f, hf, hid, ?_⟩
  rcases hst with hst | hst
  · rw [hst]
    exact ⟨h.storage f hf, fun _ _ _ => Iff.rfl⟩
  · rw [hst]
    exact hpurged

/-! ## Snapshots -/

theorem decode_records {log : List VersionEdit} (h : ∀ e ∈ log, e.KeysFit) :
    (log.map (·.encodeTo)).mapM VersionEdit.decodeFrom = .ok (log.map (·.persistent)) := by
  induction log with
  | nil => rfl
  | cons e log ih =>
    rw [map_cons, mapM_cons, VersionEdit.decodeFrom_encodeTo (h e mem_cons_self),
      ok_bind, ih fun e' he' => h e' (mem_cons_of_mem _ he')]
    rfl

section

variable (hit : ∀ st, Iterates st (iterate st)) {set : OpenSet} {next : UInt64}
  {unused : List UInt64} (honce : (set.columnFamilies.map (·.1)).Nodup)
  (hst : ∀ f ∈ set.columnFamilies, StorageOk next unused f.2)

def liveFiles (iterate : BlobStorage → List (UInt64 × StoredFile)) (st : BlobStorage) : List BlobFileMeta :=
  ((iterate st).filter fun f => !f.2.isObsolete).map (·.2.file)

theorem addedTo_snapshot (cf : UInt32) :
    addedTo cf (set.writeSnapshot iterate) =
      set.columnFamilies.flatMap fun f => if f.1 = cf then liveFiles iterate f.2 else [] := by
  simp only [addedTo, writeSnapshot, flatMap_cons, ite_self, nil_append,
    flatMap_map]
  rfl

theorem deletedFrom_snapshot (cf : UInt32) : deletedFrom cf (set.writeSnapshot iterate) = [] := by
  simp only [deletedFrom, writeSnapshot, flatMap_cons, ite_self, nil_append,
    flatMap_map]
  refine flatMap_eq_nil_iff.mpr fun f _ => ?_
  exact ite_self _

theorem next_snapshot :
    (set.writeSnapshot iterate).filterMap (·.nextFileNumber) = [set.nextFileNumber] := by
  simp [writeSnapshot, familyRecord, filterMap_map]

theorem persistent_snapshot :
    (set.writeSnapshot iterate).map (·.persistent) = set.writeSnapshot iterate := by
  simp [writeSnapshot, familyRecord, VersionEdit.persistent]

include hit

theorem mem_liveFiles (hok : StorageOk next unused st) {file : BlobFileMeta} :
    file ∈ liveFiles iterate st ↔ st.files file.fileNumber = some ⟨file, false⟩ := by
  simp only [liveFiles, mem_map, mem_filter, Bool.not_eq_true']
  constructor
  · rintro ⟨⟨n, f, ob⟩, ⟨hmem, hlive⟩, rfl⟩
    have hfile := ((hit st).2 n _).mp hmem
    dsimp only at hlive ⊢
    rw [(hok.number n _ hfile).1, hfile, hlive]
  · intro hfile
    exact ⟨(file.fileNumber, ⟨file, false⟩), ⟨((hit st).2 _ _).mpr hfile, rfl⟩, rfl⟩

theorem liveFiles_once (hok : StorageOk next unused st) :
    ((liveFiles iterate st).map (·.fileNumber)).Nodup := by
  have hnumbers : (liveFiles iterate st).map (·.fileNumber)
      = ((iterate st).filter fun f => !f.2.isObsolete).map (·.1) := by
    rw [liveFiles, map_map]
    refine map_congr_left fun f hf => ?_
    exact (hok.number f.1 f.2 (((hit st).2 f.1 f.2).mp (mem_filter.mp hf).1)).1
  rw [hnumbers]
  exact (hit st).1.sublist (filter_sublist.map _)

include hst

/-- A file that the snapshot adds is a live file of an open column family. -/
theorem file_snapshot {cf : UInt32} {file : BlobFileMeta}
    (hfile : file ∈ addedTo cf (set.writeSnapshot iterate)) :
    file.fileNumber < next ∧ file.fileNumber ∉ unused := by
  rw [addedTo_snapshot] at hfile
  obtain ⟨f, hf, hin⟩ := mem_flatMap.mp hfile
  split at hin
  · have hlive := (mem_liveFiles hit (hst f hf)).mp hin
    obtain ⟨-, hlt, hnot, -⟩ := (hst f hf).number _ _ hlive
    exact ⟨hlt, hnot⟩
  · cases hin

include honce

theorem consistent_snapshot : Consistent (set.writeSnapshot iterate) where
  addedOnce cf := by
    rw [addedTo_snapshot, map_flatMap, nodup_flatMap]
    constructor
    · intro f hf
      split
      · exact liveFiles_once hit (hst f hf)
      · exact nodup_nil
    · have hids := pairwise_map.mp honce
      refine hids.imp fun {f g} hne => ?_
      -- at most one of two column families is the one asked for
      by_cases hcf : f.1 = cf
      · simp [onFun, hcf ▸ hne.symm]
      · simp [onFun, hcf]
  deletedOnce cf := by
    rw [deletedFrom_snapshot]
    exact nodup_nil
  numbered := by
    rw [next_snapshot]
    exact pairwise_singleton _ _

theorem agrees_snapshot {f : UInt32 × BlobStorage} (hf : f ∈ set.columnFamilies) :
    Agrees [] (set.writeSnapshot iterate) f.1 f.2 := by
  intro n _ g
  rw [replayed_files (consistent_snapshot hit honce hst), addedTo_snapshot, deletedFrom_snapshot]
  have hmem : g.file ∈ set.columnFamilies.flatMap
      (fun f' => if f'.1 = f.1 then liveFiles iterate f'.2 else []) ↔
      f.2.files g.file.fileNumber = some ⟨g.file, false⟩ := by
    rw [← mem_liveFiles hit (hst f hf), mem_flatMap]
    constructor
    · rintro ⟨f', hf', hin⟩
      split at hin
      · next hid => rwa [inj_on_of_nodup_map honce hf' hf hid] at hin
      · cases hin
    · intro hin
      exact ⟨f, hf, by rwa [if_pos rfl]⟩
  rw [hmem]
  constructor
  · rintro ⟨hob, hfile, hnum, -⟩
    refine ⟨?_, hob⟩
    cases g
    cases hob
    exact hnum ▸ hfile
  · rintro ⟨hfile, hob⟩
    have hnum := ((hst f hf).number n g hfile).1
    refine ⟨hob, ?_, hnum, by simp⟩
    cases g
    cases hob
    rw [hnum]
    exact hfile

end

/-- A snapshot mirrors the storages, whatever was logged before. -/
theorem mirrors_openManifest (hit : ∀ st, Iterates st (iterate st))
    (hwrap : s.set.nextFileNumber.toNat + 1 < 2 ^ 64)
    (honce : (s.set.columnFamilies.map (·.1)).Nodup)
    (hst : ∀ f ∈ s.set.columnFamilies, StorageOk s.set.nextFileNumber s.unused f.2)
    (hunused : ∀ n ∈ s.unused, n < s.set.nextFileNumber) :
    Mirrors (exec iterate s .openManifest) (s.set.newFileNumber.2.writeSnapshot iterate) where
  records := by
    have hkeys : ∀ e ∈ s.set.newFileNumber.2.writeSnapshot iterate, e.KeysFit := by
      intro e he file hfile
      rcases mem_cons.mp he with rfl | he
      · cases hfile
      · obtain ⟨f, hf, rfl⟩ := mem_map.mp he
        have hlive := (mem_liveFiles hit (hst f hf)).mp hfile
        exact ((hst f hf).number _ _ hlive).2.2.2
    have hdecode := decode_records hkeys
    rw [persistent_snapshot] at hdecode
    exact hdecode
  consistent := consistent_snapshot hit honce hst
  paired cf d hd := by
    rw [gathered, deletedFrom_snapshot] at hd
    cases hd
  next := by
    refine ⟨s.set.nextFileNumber + 1, by rw [lastNext, next_snapshot]; rfl, UInt64.le_refl _, ?_⟩
    exact fun cf file hfile =>
      lt_succ_of_le hwrap (UInt64.le_of_lt (file_snapshot hit hst hfile).1)
  unused_lt n hn := lt_succ_of_le hwrap (UInt64.le_of_lt (hunused n hn))
  unused_new := by
    intro n hn _ cf hmem
    obtain ⟨file, hfile, rfl⟩ := mem_map.mp hmem
    exact (file_snapshot hit hst hfile).2 hn
  familiesOnce := honce
  storage f hf := storageOk_succ (hst f hf) hwrap
  agrees f hf := agrees_snapshot hit honce hst hf

theorem mirrors_opened (hit : ∀ st, Iterates st (iterate st)) (ids : List UInt32) :
    ∃ log, Mirrors (opened iterate ids) log := by
  have hinv := addColumnFamilies_invariant (fun f => StorageOk 1 [] f.2) ids []
    (fun f hf => by cases hf) nodup_nil (fun _ _ _ => storageOk_empty 1 [])
  have hwrap : (1 : UInt64).toNat + 1 < 2 ^ 64 := by decide
  exact ⟨_, mirrors_openManifest hit (s := { set := ({} : OpenSet).addColumnFamilies ids }) hwrap
    hinv.2 hinv.1 (fun n hn => by cases hn)⟩

/-! ## Runs -/

/-- Every operation keeps the mirror. -/
theorem mirrors_exec (hit : ∀ st, Iterates st (iterate st)) (h : Mirrors s log) {op : Op}
    (halloc : Allocated s op) (hknown : KnownFamily s op) (hrepeat : NotRepeated s op) :
    ∃ log', Mirrors (exec iterate s op) log' := by
  cases op with
  | newFileNumber => exact ⟨log, mirrors_newFileNumber h halloc⟩
  | addColumnFamilies ids => exact ⟨log, mirrors_addColumnFamilies h hknown⟩
  | logAndApply w edit =>
    obtain ⟨log', hlog', -⟩ := mirrors_logAndApply (w := w) h halloc.1 halloc.2 hknown hrepeat
    exact ⟨log', hlog'⟩
  | dropColumnFamily w cf q =>
    obtain ⟨log', hlog', -⟩ := mirrors_dropColumnFamily hit h hrepeat
    exact ⟨log', hlog'⟩
  | maybeDestroyColumnFamily cf => exact ⟨log, mirrors_maybeDestroyColumnFamily h⟩
  | getObsoleteFiles q => exact ⟨log, mirrors_getObsoleteFiles h⟩
  | openManifest => exact ⟨_, mirrors_openManifest hit halloc h.familiesOnce h.storage h.unused_lt⟩

/-- What the mirror says of recovery with the column families that are open. -/
theorem recover_of_mirrors (h : Mirrors s log) :
    ∃ set next, recover (s.set.columnFamilies.map (·.1)) log = .ok (set, next) ∧
      List.Forall₂ (fun live replay => replay.1 = live.1 ∧
        ∀ n, Untouched s.failed n →
          replay.2.files n = (live.2.files n).filter fun f => !f.isObsolete) s.set.columnFamilies set ∧
      ∀ f ∈ set, ∀ n g, f.2.files n = some g → n < next := by
  obtain ⟨m, hm, -, hlt⟩ := h.next
  have hreplay : Replayable (s.set.columnFamilies.map (·.1)) log :=
    ⟨h.consistent, fun cf _ => h.paired cf, by rw [hm]; rfl⟩
  obtain ⟨next, hnext, hrecover⟩ := recover_ok hreplay
  rw [hm, Option.some.injEq] at hnext
  subst hnext
  refine ⟨_, _, hrecover, ?_, ?_⟩
  · rw [map_map, forall₂_map_right_iff, forall₂_same]
    refine fun f hf => ⟨rfl, fun n hn => Option.ext fun g => ?_⟩
    have hagrees := h.agrees f hf n hn g
    rw [Option.filter_eq_some_iff, Bool.not_eq_true']
    exact hagrees
  · intro f hf n g hg
    obtain ⟨cf, -, rfl⟩ := mem_map.mp hf
    obtain ⟨-, hmem, rfl, -⟩ := (replayed_files h.consistent cf n g).mp hg
    exact hlt cf _ hmem

def Succeeds : Op → Prop
  | .logAndApply w _ => w = .ok
  | .dropColumnFamily w _ _ => w = .ok
  | _ => True

/-- Without failed writes there is nothing to repeat. -/
theorem failed_exec (hit : ∀ st, Iterates st (iterate st)) (h : Mirrors s log)
    (hfailed : s.failed = []) {op : Op} (halloc : Allocated s op) (hknown : KnownFamily s op)
      (hrepeat : NotRepeated s op)
    (hwrite : Succeeds op) : (exec iterate s op).failed = [] := by
  cases op with
  | logAndApply w edit =>
    obtain ⟨-, -, hsame⟩ := mirrors_logAndApply (w := w) h halloc.1 halloc.2 hknown hrepeat
    exact (hsame hwrite).trans hfailed
  | dropColumnFamily w cf q =>
    obtain ⟨-, -, hsame⟩ := mirrors_dropColumnFamily hit h hrepeat
    exact (hsame hwrite).trans hfailed
  | openManifest => rfl
  | _ => exact hfailed

theorem notRepeated_of_none (h : s.failed = []) (op : Op) : NotRepeated s op := by
  have huntouched : ∀ n, Untouched s.failed n := by
    intro n e he
    rw [h] at he
    cases he
  cases op with
  | logAndApply w edit => exact fun n _ => huntouched n
  | dropColumnFamily w cf q => exact fun _ _ _ n _ _ _ => huntouched n
  | _ => trivial

/-- After any run whose writes succeed and whose edits are for open column
families, the replay of the manifest gives exactly the live files. -/
theorem replay_eq_live (hit : ∀ st, Iterates st (iterate st)) (ids : List UInt32) (ops : List Op)
    (hops : Along (exec iterate) (fun s op => Allocated s op ∧ Succeeds op ∧ KnownFamily s op)
      (opened iterate ids) ops) :
    ∃ log set next,
      (run iterate ids ops).set.manifest.mapM VersionEdit.decodeFrom = .ok log ∧
      recover ((run iterate ids ops).set.columnFamilies.map (·.1)) log = .ok (set, next) ∧
      List.Forall₂ (fun live replay => replay.1 = live.1 ∧
        ∀ n, replay.2.files n = (live.2.files n).filter fun f => !f.isObsolete)
        (run iterate ids ops).set.columnFamilies set ∧
      ∀ f ∈ set, ∀ n g, f.2.files n = some g → n < next := by
  obtain ⟨hfailed, log, hmirrors⟩ := foldl_invariant
    (fun s => s.failed = [] ∧ ∃ log, Mirrors s log)
    (fun s op ⟨hfailed, log, h⟩ ⟨halloc, hwrite, hknown⟩ => by
      have hrepeat := notRepeated_of_none hfailed op
      exact ⟨failed_exec hit h hfailed halloc hknown hrepeat hwrite,
        mirrors_exec hit h halloc hknown hrepeat⟩)
    ⟨rfl, mirrors_opened hit ids⟩ hops
  obtain ⟨set, next, hrecover, hfiles, hnext⟩ := recover_of_mirrors hmirrors
  refine ⟨log, set, next, hmirrors.records, hrecover, hfiles.imp ?_, hnext⟩
  intro live replay ⟨hid, hsame⟩
  refine ⟨hid, fun n => hsame n fun e he => ?_⟩
  rw [hfailed] at he
  cases he

theorem opened_byNumber : opened byNumber [0] =
    { set := { columnFamilies := [(0, {})], nextFileNumber := 2
               manifest := ([{ nextFileNumber := some 2 }, {}] : List VersionEdit).map (·.encodeTo) } } := by
  simp [opened, openManifest, writeSnapshot, familyRecord,
    OpenSet.newFileNumber, addColumnFamilies, addFamily, byNumber_empty]

def addFile : VersionEdit := { addedFiles := [{ fileNumber := 2 }] }

/-- A file is added to the default column family. -/
theorem replay_eq_live_one_file :
    ∃ log set next,
      (run byNumber [0] [.newFileNumber, .logAndApply .ok addFile]).set.manifest.mapM
        VersionEdit.decodeFrom = .ok log ∧
      recover [0] log = .ok (set, next) ∧
      List.Forall₂ (fun live replay => replay.1 = live.1 ∧
        ∀ n, replay.2.files n = (live.2.files n).filter fun f => !f.isObsolete)
        (run byNumber [0] [.newFileNumber, .logAndApply .ok addFile]).set.columnFamilies set ∧
      ∀ f ∈ set, ∀ n g, f.2.files n = some g → n < next :=
  replay_eq_live iterates_byNumber [0] [.newFileNumber, .logAndApply .ok addFile]
    ⟨⟨by change (2 : UInt64).toNat + 1 < 2 ^ 64; decide, trivial, trivial⟩,
      ⟨⟨by decide, by decide⟩, rfl, .inr (by decide)⟩, trivial⟩

theorem recover_rejects {manifest : List Lib.ByteCoding.Bytes} {edits : List VersionEdit} {cfs : List UInt32}
    (hmanifest : manifest = edits.map (·.encodeTo)) (hfit : ∀ e ∈ edits, e.KeysFit)
    (hbad : ¬ Replayable cfs (edits.map (·.persistent))) :
    ∃ log status, manifest.mapM VersionEdit.decodeFrom = .ok log ∧ recover cfs log = .error status ∧
      status.code = .corruption := by
  obtain ⟨status, herror, hcode⟩ := recover_error hbad
  exact ⟨_, status, hmanifest ▸ decode_records hfit, herror, hcode⟩

/-! ## Failed writes -/

/-- Writes may fail with or without a durable record. As long as no edit names a
file of a failed edit whose record is durable, the manifest can be replayed, and
the replay differs from the live files at most in the files of those edits. -/
theorem replay_after_failures (hit : ∀ st, Iterates st (iterate st)) (ids : List UInt32) (ops : List Op)
    (hops : Along (exec iterate) (fun s op => Allocated s op ∧ KnownFamily s op ∧ NotRepeated s op)
      (opened iterate ids) ops) :
    ∃ log set next,
      (run iterate ids ops).set.manifest.mapM VersionEdit.decodeFrom = .ok log ∧
      recover ((run iterate ids ops).set.columnFamilies.map (·.1)) log = .ok (set, next) ∧
      List.Forall₂ (fun live replay => replay.1 = live.1 ∧
        ∀ n, Untouched (run iterate ids ops).failed n →
          replay.2.files n = (live.2.files n).filter fun f => !f.isObsolete)
        (run iterate ids ops).set.columnFamilies set := by
  obtain ⟨log, hmirrors⟩ := foldl_invariant (fun s => ∃ log, Mirrors s log)
    (fun s op ⟨log, h⟩ ⟨halloc, hknown, hrepeat⟩ => mirrors_exec hit h halloc hknown hrepeat)
    (mirrors_opened hit ids) hops
  obtain ⟨set, next, hrecover, hfiles, -⟩ := recover_of_mirrors hmirrors
  exact ⟨log, set, next, hmirrors.records, hrecover, hfiles⟩

def ioError : Status := ⟨.ioError, "fsync"⟩

def deleteFile : VersionEdit := { deletedFiles := [(2, 0)] }

/-- A deletion whose sync fails with a durable record, and is not tried again. -/
theorem replay_after_failures_one_file :
    ∃ log set next,
      (run byNumber [0] [.newFileNumber, .logAndApply .ok addFile,
        .logAndApply (.failed ioError true) deleteFile]).set.manifest.mapM
        VersionEdit.decodeFrom = .ok log ∧
      recover [0] log = .ok (set, next) ∧
      List.Forall₂ (fun live replay => replay.1 = live.1 ∧
        ∀ n, Untouched [deleteFile] n →
          replay.2.files n = (live.2.files n).filter fun f => !f.isObsolete)
        (run byNumber [0] [.newFileNumber, .logAndApply .ok addFile,
          .logAndApply (.failed ioError true) deleteFile]).set.columnFamilies set :=
  replay_after_failures iterates_byNumber [0]
    [.newFileNumber, .logAndApply .ok addFile, .logAndApply (.failed ioError true) deleteFile]
    ⟨⟨by change (2 : UInt64).toNat + 1 < 2 ^ 64; decide, trivial, trivial⟩,
      ⟨⟨by decide, by decide⟩, .inr (by decide), fun n _ e he => by cases he⟩,
      ⟨⟨by decide, by decide⟩, .inr (by decide), fun n _ e he => by cases he⟩, trivial⟩

/-- The sync of a deletion fails although its record is durable; the caller tries
again and succeeds. -/
def retried : List Op :=
  [.newFileNumber, .logAndApply .ok addFile, .logAndApply (.failed ioError true) deleteFile,
    .logAndApply .ok deleteFile]

def retriedLog : List VersionEdit :=
  [{ nextFileNumber := some 2 }, {}, { addFile with nextFileNumber := some 3 },
    { deleteFile with nextFileNumber := some 3 }, { deleteFile with nextFileNumber := some 3 }]

theorem retried_manifest :
    (run byNumber [0] retried).set.manifest = retriedLog.map (·.encodeTo) := by
  rw [run, opened_byNumber]
  rfl

/-- The retry succeeds, and the database can no longer be opened. -/
theorem retry_makes_unrecoverable :
    Along (exec byNumber) (fun s op => Allocated s op ∧ KnownFamily s op) (opened byNumber [0]) retried ∧
    ∃ log status,
      (run byNumber [0] retried).set.manifest.mapM VersionEdit.decodeFrom = .ok log ∧
      recover [0] log = .error status ∧ status.code = .corruption := by
  constructor
  · rw [opened_byNumber]
    exact ⟨⟨by change (2 : UInt64).toNat + 1 < 2 ^ 64; decide, trivial⟩,
      ⟨⟨by decide, by decide⟩, .inr (by decide)⟩, ⟨⟨by decide, by decide⟩, .inr (by decide)⟩,
      ⟨⟨by decide, by decide⟩, .inr (by decide)⟩, trivial⟩
  · exact recover_rejects retried_manifest (by decide) fun h => absurd (h.deletedOnce 0) (by decide)

end TitanGC.Manifest.LiveReplay
