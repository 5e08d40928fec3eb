import TitanGC.Manifest.VersionEdits

/-!
# When a manifest can be replayed

`AddEdit` rejects a file that a column family gets or loses twice and a next file
number that decreases; `Seal` rejects, for the open column families only, the
deletion of a file that was never added. These checks are exactly `Replayable`,
and a manifest that passes them leaves the files that were added and not deleted.
-/

namespace TitanGC.Manifest.Families

open Format.Coding List Function VersionEdits CFEditCollector EditCollector

variable {ε β : Type} {e : VersionEdit} {cfs : List UInt32} {α : Type}

@[simp] theorem ok_bind (a : α) (f : α → Except ε β) :
    ((Except.ok a : Except ε α) >>= f) = f a := rfl

@[simp] theorem error_bind (e : ε) (f : α → Except ε β) :
    ((Except.error e : Except ε α) >>= f) = .error e := rfl

variable {f : α → Except ε β}

theorem bind_ok {x : Except ε α} {b : β} : x >>= f = .ok b ↔ ∃ a, x = .ok a ∧ f a = .ok b := by
  cases x <;> simp

def Corrupt {α : Type} (call : Except Status α) : Prop := ∃ s, call = .error s ∧ s.code = .corruption

theorem Corrupt.bind {call : Except Status α} (h : Corrupt call) (f : α → Except Status β) :
    Corrupt (call >>= f) := by
  obtain ⟨s, rfl, hcode⟩ := h
  exact ⟨s, rfl, hcode⟩

def addedTo (cf : UInt32) (log : List VersionEdit) : List BlobFileMeta :=
  log.flatMap fun e => if e.columnFamilyId = cf then e.addedFiles else []

def deletedFrom (cf : UInt32) (log : List VersionEdit) : List (UInt64 × Nat) :=
  log.flatMap fun e => if e.columnFamilyId = cf then e.deletedFiles else []

def lastNext (log : List VersionEdit) : Option UInt64 := (log.filterMap (·.nextFileNumber)).getLast?

@[simp] theorem addedTo_append (cf : UInt32) (log log' : List VersionEdit) :
    addedTo cf (log ++ log') = addedTo cf log ++ addedTo cf log' := by simp [addedTo]

@[simp] theorem deletedFrom_append (cf : UInt32) (log log' : List VersionEdit) :
    deletedFrom cf (log ++ log') = deletedFrom cf log ++ deletedFrom cf log' := by simp [deletedFrom]

@[simp] theorem addedTo_nil (cf : UInt32) : addedTo cf [] = [] := rfl

@[simp] theorem deletedFrom_nil (cf : UInt32) : deletedFrom cf [] = [] := rfl

theorem addedTo_singleton (cf : UInt32) (e : VersionEdit) :
    addedTo cf [e] = if e.columnFamilyId = cf then e.addedFiles else [] := by simp [addedTo]

theorem deletedFrom_singleton (cf : UInt32) (e : VersionEdit) :
    deletedFrom cf [e] = if e.columnFamilyId = cf then e.deletedFiles else [] := by simp [deletedFrom]

theorem mem_of_mem_addedTo {cf : UInt32} {f : BlobFileMeta} (hf : f ∈ addedTo cf [e]) :
    f ∈ e.addedFiles := by
  rw [addedTo_singleton] at hf
  split at hf
  · exact hf
  · cases hf

theorem lastNext_append_singleton (log : List VersionEdit) (e : VersionEdit) :
    lastNext (log ++ [e]) = e.nextFileNumber.or (lastNext log) := by
  cases h : e.nextFileNumber <;> simp [lastNext, h]

structure Consistent (log : List VersionEdit) : Prop where
  addedOnce : ∀ cf, ((addedTo cf log).map (·.fileNumber)).Nodup
  deletedOnce : ∀ cf, ((deletedFrom cf log).map (·.1)).Nodup
  numbered : (log.filterMap (·.nextFileNumber)).Pairwise (· ≤ ·)

/-- What recovery with these column families checks of the records. -/
structure Replayable (columnFamilies : List UInt32) (log : List VersionEdit) : Prop
    extends Consistent log where
  paired : ∀ cf ∈ columnFamilies, ∀ d ∈ deletedFrom cf log,
    d.1 ∈ (addedTo cf log).map (·.fileNumber)
  hasNext : (lastNext log).isSome

theorem Consistent.of_append {log log' : List VersionEdit} (h : Consistent (log ++ log')) :
    Consistent log where
  addedOnce cf := by
    have := h.addedOnce cf
    rw [addedTo_append, map_append] at this
    exact this.of_append_left
  deletedOnce cf := by
    have := h.deletedOnce cf
    rw [deletedFrom_append, map_append] at this
    exact this.of_append_left
  numbered := by
    have := h.numbered
    rw [filterMap_append] at this
    exact (pairwise_append.mp this).1

/-! ## Collecting -/

/-- A key that is new keeps the keys distinct. -/
theorem nodup_map_append_singleton {α κ : Type} {key : α → κ} {l : List α} {x : α}
    (h : (l.map key).Nodup) (hx : key x ∉ l.map key) : ((l ++ [x]).map key).Nodup := by
  rw [map_append, map_singleton, ← concat_eq_append]
  exact List.Nodup.concat hx h

section

/-! Adding elements one by one, where one whose key is there already is refused. -/

variable {C α κ : Type} {key : α → κ} (get : C → List α) (put : C → List α → C)
  {f : C → α → Except Status C}

theorem foldlM_distinct
    (hnew : ∀ c x, key x ∉ (get c).map key → f c x = .ok (put c (get c ++ [x])))
    (hget : ∀ c l, get (put c l) = l) (hput : ∀ c l l', put (put c l) l' = put c l')
    (hself : ∀ c, put c (get c) = c) (xs : List α) (c : C)
    (h : ((get c ++ xs).map key).Nodup) :
    xs.foldlM f c = .ok (put c (get c ++ xs)) := by
  induction xs generalizing c with
  | nil => rw [append_nil, hself]; rfl
  | cons x xs ih =>
    have hx : key x ∉ (get c).map key := by
      intro hmem
      rw [map_append, map_cons] at h
      exact (nodup_append.mp h).2.2 _ hmem _ mem_cons_self rfl
    rw [foldlM_cons, hnew c x hx, ok_bind, ih _ (by rw [hget]; simpa using h), hget, hput]
    simp

theorem foldlM_repeated
    (hnew : ∀ c x, key x ∉ (get c).map key → f c x = .ok (put c (get c ++ [x])))
    (hold : ∀ c x, key x ∈ (get c).map key → Corrupt (f c x))
    (hget : ∀ c l, get (put c l) = l) (xs : List α) (c : C) (hc : ((get c).map key).Nodup)
    (h : ¬ ((get c ++ xs).map key).Nodup) : Corrupt (xs.foldlM f c) := by
  induction xs generalizing c with
  | nil => exact absurd (by simpa using hc) h
  | cons x xs ih =>
    rw [foldlM_cons]
    by_cases hx : key x ∈ (get c).map key
    · exact (hold c x hx).bind _
    · rw [hnew c x hx, ok_bind]
      refine ih _ ?_ (by rw [hget]; simpa using h)
      rw [hget]
      exact nodup_map_append_singleton hc hx

end

variable (c : CFEditCollector)

theorem addFile_new (file : BlobFileMeta) (h : file.fileNumber ∉ c.addedFiles.map (·.fileNumber)) :
    c.addFile file = .ok { c with addedFiles := c.addedFiles ++ [file] } := by
  rw [addFile, if_neg]
  simpa using h

theorem addFile_old (file : BlobFileMeta) (h : file.fileNumber ∈ c.addedFiles.map (·.fileNumber)) :
    Corrupt (c.addFile file) :=
  ⟨_, by rw [addFile, if_pos (by simpa using h)], rfl⟩

variable (d : UInt64 × Nat)

theorem deleteFile_new (h : d.1 ∉ c.deletedFiles.map (·.1)) :
    c.deleteFile d = .ok { c with deletedFiles := c.deletedFiles ++ [d] } := by
  rw [deleteFile, if_neg]
  simpa using h

theorem deleteFile_old (h : d.1 ∈ c.deletedFiles.map (·.1)) : Corrupt (c.deleteFile d) :=
  ⟨_, by rw [deleteFile, if_pos (by simpa using h)], rfl⟩

theorem addNextFileNumber_ok {current next : Option UInt64}
    (h : ∀ n, next = some n → current.getD 0 ≤ n) :
    addNextFileNumber current next = .ok (next.or current) := by
  cases next with
  | none => simp [addNextFileNumber]
  | some n =>
    have : ¬ n < current.getD 0 := by
      rw [UInt64.not_lt]
      exact h n rfl
    simp [addNextFileNumber, this]

theorem addNextFileNumber_error {current : Option UInt64} {n : UInt64} (h : n < current.getD 0) :
    Corrupt (addNextFileNumber current (some n)) :=
  ⟨_, by rw [addNextFileNumber, if_pos h], rfl⟩

variable {log : List VersionEdit}

theorem numbered_append_singleton (h : (log.filterMap (·.nextFileNumber)).Pairwise (· ≤ ·)) :
    ((log ++ [e]).filterMap (·.nextFileNumber)).Pairwise (· ≤ ·) ↔
      ∀ n, e.nextFileNumber = some n → (lastNext log).getD 0 ≤ n := by
  cases he : e.nextFileNumber with
  | none => simp [he, h]
  | some n =>
    simp only [filterMap_append, filterMap_cons, he, filterMap_nil,
      Option.some.injEq, forall_eq', lastNext]
    cases hl : log.filterMap (·.nextFileNumber) using List.reverseRecOn with
    | nil => simp
    | append_singleton xs x =>
      rw [hl] at h
      have hx := (pairwise_append.mp h).2.2
      simp only [pairwise_append, h, getLast?_concat, Option.getD_some, true_and]
      constructor
      · intro hle
        exact hle.2 x (by simp) n (by simp)
      · intro hle
        refine ⟨by simp, fun a ha b hb => ?_⟩
        rw [mem_singleton.mp hb]
        rcases mem_append.mp ha with ha | ha
        · exact UInt64.le_trans (hx a ha x (by simp)) hle
        · exact mem_singleton.mp ha ▸ hle

def gathered (log : List VersionEdit) (cf : UInt32) : CFEditCollector :=
  ⟨addedTo cf log, deletedFrom cf log⟩

structure Collects (log : List VersionEdit) (c : EditCollector) : Prop where
  consistent : Consistent log
  notSealed : c.isSealed = false
  families : ∀ cf, c.columnFamilies cf = gathered log cf
  next : c.nextFileNumber = lastNext log

theorem collects_nil : Collects [] {} where
  consistent := ⟨by simp, by simp, by simp⟩
  notSealed := rfl
  families _ := rfl
  next := rfl

theorem consistent_append (h : Consistent log)
    (hadd : ((addedTo e.columnFamilyId log ++ e.addedFiles).map (·.fileNumber)).Nodup)
    (hdel : ((deletedFrom e.columnFamilyId log ++ e.deletedFiles).map (·.1)).Nodup)
    (hnext : ∀ n, e.nextFileNumber = some n → (lastNext log).getD 0 ≤ n) :
    Consistent (log ++ [e]) where
  addedOnce cf := by
    rw [addedTo_append, addedTo_singleton]
    by_cases hcf : e.columnFamilyId = cf
    · rw [if_pos hcf]
      exact hcf ▸ hadd
    · rw [if_neg hcf, append_nil]
      exact h.addedOnce cf
  deletedOnce cf := by
    rw [deletedFrom_append, deletedFrom_singleton]
    by_cases hcf : e.columnFamilyId = cf
    · rw [if_pos hcf]
      exact hcf ▸ hdel
    · rw [if_neg hcf, append_nil]
      exact h.deletedOnce cf
  numbered := (numbered_append_singleton h.numbered).mpr hnext

section

variable {log : List VersionEdit} {cf : UInt32} {files : List BlobFileMeta}
  {numbers : List (UInt64 × Nat)}

theorem gather_added (h : ((addedTo cf log ++ files).map (·.fileNumber)).Nodup) :
    files.foldlM addFile (gathered log cf)
      = .ok ⟨addedTo cf log ++ files, deletedFrom cf log⟩ :=
  foldlM_distinct CFEditCollector.addedFiles (fun c l => { c with addedFiles := l }) addFile_new
    (fun _ _ => rfl) (fun _ _ _ => rfl) (fun _ => rfl) files (gathered log cf) h

theorem gather_deleted (h : ((deletedFrom cf log ++ numbers).map (·.1)).Nodup) :
    numbers.foldlM deleteFile ⟨addedTo cf log ++ files, deletedFrom cf log⟩
      = .ok ⟨addedTo cf log ++ files, deletedFrom cf log ++ numbers⟩ :=
  foldlM_distinct CFEditCollector.deletedFiles (fun c l => { c with deletedFiles := l }) deleteFile_new
    (fun _ _ => rfl) (fun _ _ _ => rfl) (fun _ => rfl) numbers
    ⟨addedTo cf log ++ files, deletedFrom cf log⟩ h

theorem gather_added_error (hlog : Consistent log)
    (h : ¬ ((addedTo cf log ++ files).map (·.fileNumber)).Nodup) :
    Corrupt (files.foldlM addFile (gathered log cf)) :=
  foldlM_repeated CFEditCollector.addedFiles (fun c l => { c with addedFiles := l }) addFile_new addFile_old
    (fun _ _ => rfl) files (gathered log cf) (hlog.addedOnce cf) h

theorem gather_deleted_error (hlog : Consistent log)
    (h : ¬ ((deletedFrom cf log ++ numbers).map (·.1)).Nodup) :
    Corrupt (numbers.foldlM deleteFile ⟨addedTo cf log ++ files, deletedFrom cf log⟩) :=
  foldlM_repeated CFEditCollector.deletedFiles (fun c l => { c with deletedFiles := l }) deleteFile_new
    deleteFile_old (fun _ _ => rfl) numbers ⟨addedTo cf log ++ files, deletedFrom cf log⟩
    (hlog.deletedOnce cf) h

end

variable {e : VersionEdit}

section

variable {log : List VersionEdit} {c : EditCollector} (h : Collects log c)
include h

theorem addEdit_eq (e : VersionEdit) : c.addEdit e = (do
    let cf ← e.addedFiles.foldlM addFile (gathered log e.columnFamilyId)
    let cf ← e.deletedFiles.foldlM deleteFile cf
    let next ← addNextFileNumber c.nextFileNumber e.nextFileNumber
    pure { c with columnFamilies := update c.columnFamilies e.columnFamilyId cf
                  nextFileNumber := next }) := by
  simp only [addEdit, h.notSealed, h.families]
  rfl

/-- One record that keeps the log consistent is collected. -/
theorem addEdit_ok (he : Consistent (log ++ [e])) :
    ∃ c', c.addEdit e = .ok c' ∧ Collects (log ++ [e]) c' := by
  have hadd := he.addedOnce e.columnFamilyId
  have hdel := he.deletedOnce e.columnFamilyId
  rw [addedTo_append, addedTo_singleton, if_pos rfl] at hadd
  rw [deletedFrom_append, deletedFrom_singleton, if_pos rfl] at hdel
  have hnext := (numbered_append_singleton h.consistent.numbered).mp he.numbered
  rw [← h.next] at hnext
  refine ⟨{ c with
    columnFamilies := update c.columnFamilies e.columnFamilyId
      ⟨addedTo e.columnFamilyId log ++ e.addedFiles, deletedFrom e.columnFamilyId log ++ e.deletedFiles⟩
    nextFileNumber := e.nextFileNumber.or c.nextFileNumber }, ?_, he, h.notSealed, ?_, ?_⟩
  · rw [addEdit_eq h, gather_added hadd, ok_bind, gather_deleted hdel, ok_bind,
      addNextFileNumber_ok hnext]
    rfl
  · intro cf
    by_cases hcf : e.columnFamilyId = cf
    · subst hcf
      simp [gathered, addedTo_singleton, deletedFrom_singleton]
    · simp [gathered, update_of_ne (Ne.symm hcf), h.families, addedTo_singleton,
        deletedFrom_singleton, hcf]
  · rw [lastNext_append_singleton, h.next]

/-- One that does not is refused as corruption. -/
theorem addEdit_error (he : ¬ Consistent (log ++ [e])) : Corrupt (c.addEdit e) := by
  rw [addEdit_eq h]
  -- the first of the three checks that fails decides
  by_cases hadd : ((addedTo e.columnFamilyId log ++ e.addedFiles).map (·.fileNumber)).Nodup
  · rw [gather_added hadd, ok_bind]
    by_cases hdel : ((deletedFrom e.columnFamilyId log ++ e.deletedFiles).map (·.1)).Nodup
    · rw [gather_deleted hdel, ok_bind]
      have hlast : ∃ n, e.nextFileNumber = some n ∧ n < c.nextFileNumber.getD 0 := by
        by_contra hle
        push Not at hle
        rw [h.next] at hle
        exact he (consistent_append h.consistent hadd hdel fun n hn => UInt64.not_lt.mp (hle n hn))
      obtain ⟨n, hn, hlt⟩ := hlast
      rw [hn]
      exact (addNextFileNumber_error hlt).bind _
    · exact (gather_deleted_error h.consistent hdel).bind _
  · exact (gather_added_error h.consistent hadd).bind _

end

theorem addEdits_ok (h : Consistent log) : ∃ c, log.foldlM addEdit {} = .ok c ∧ Collects log c := by
  induction log using List.reverseRecOn with
  | nil => exact ⟨{}, rfl, collects_nil⟩
  | append_singleton log e ih =>
    obtain ⟨c, hc, hcollects⟩ := ih h.of_append
    obtain ⟨c', hc', hcollects'⟩ := addEdit_ok hcollects h
    refine ⟨c', ?_, hcollects'⟩
    rw [foldlM_append, hc, ok_bind, foldlM_cons, hc']
    rfl

theorem addEdits_error (h : ¬ Consistent log) : Corrupt (log.foldlM addEdit {}) := by
  induction log using List.reverseRecOn with
  | nil => exact absurd collects_nil.consistent h
  | append_singleton log e ih =>
    rw [foldlM_append]
    by_cases hlog : Consistent log
    · obtain ⟨c, hc, hcollects⟩ := addEdits_ok hlog
      rw [hc, ok_bind, foldlM_cons]
      exact (addEdit_error hcollects h).bind _
    · exact (ih hlog).bind _

/-! ## Checking and applying -/

variable {xs : List α}

theorem forM_ok {f : α → Except ε Unit} (h : ∀ x ∈ xs, f x = .ok ()) : xs.forM f = .ok () := by
  induction xs with
  | nil => rfl
  | cons x xs ih =>
    change (f x >>= fun _ => xs.forM f) = .ok ()
    rw [h x mem_cons_self, ok_bind]
    exact ih fun y hy => h y (mem_cons_of_mem _ hy)

/-- An iteration fails with the error of one of its elements. -/
theorem forM_error {f : α → Except Status Unit} {x : α}
    (hall : ∀ y ∈ xs, f y = .ok () ∨ Corrupt (f y)) (hx : x ∈ xs) (hfail : Corrupt (f x)) :
    Corrupt (xs.forM f) := by
  induction xs with
  | nil => cases hx
  | cons y ys ih =>
    change Corrupt (f y >>= fun _ => ys.forM f)
    rcases hall y mem_cons_self with hy | hy
    · rcases mem_cons.mp hx with rfl | hx
      · exact hfail.bind _
      · rw [hy, ok_bind]
        exact ih (fun z hz => hall z (mem_cons_of_mem _ hz)) hx
    · exact hy.bind _

theorem any_added {files : List BlobFileMeta} {f : UInt64} :
    files.any (·.fileNumber == f) = true ↔ f ∈ files.map (·.fileNumber) := by
  simp

section

variable {c : CFEditCollector}

/-- Every deletion is of a file that the batch adds. -/
def Paired (c : CFEditCollector) : Prop := ∀ d ∈ c.deletedFiles, d.1 ∈ c.addedFiles.map (·.fileNumber)

theorem check_added_empty (c : CFEditCollector) :
    c.addedFiles.forM (checkAdded {}) = .ok () := forM_ok fun _ _ => rfl

theorem check_empty (hp : Paired c) : c.check {} = .ok () := by
  rw [CFEditCollector.check, check_added_empty, ok_bind]
  refine forM_ok fun d hd => ?_
  rw [checkDeleted, if_pos (any_added.mpr (hp d hd))]

theorem check_empty_error (hp : ¬ Paired c) : Corrupt (c.check {}) := by
  unfold Paired at hp
  push Not at hp
  obtain ⟨d, hd, hnot⟩ := hp
  rw [CFEditCollector.check, check_added_empty, ok_bind]
  have hfail : ∀ x, ¬ (c.addedFiles.any (·.fileNumber == x.1) = true) → Corrupt (c.checkDeleted {} x) :=
    fun x hx => ⟨_, by rw [checkDeleted, if_neg hx], rfl⟩
  refine forM_error (fun x _ => ?_) hd (hfail d (mt any_added.mp hnot))
  by_cases hx : c.addedFiles.any (·.fileNumber == x.1) = true
  · exact .inl (by rw [checkDeleted, if_pos hx])
  · exact .inr (hfail x hx)

theorem apply_empty (hp : Paired c) : c.apply {} = .ok (c.applyAdded {}) := by
  have hskip : ∀ (ds : List (UInt64 × Nat)) (st : BlobStorage), (∀ d ∈ ds, d ∈ c.deletedFiles) →
      ds.foldlM c.applyDeleted st = .ok st := by
    intro ds st hds
    induction ds with
    | nil => rfl
    | cons d ds ih =>
      have hd : c.applyDeleted st d = .ok st := by
        rw [applyDeleted, if_pos (any_added.mpr (hp d (hds d mem_cons_self)))]
      rw [foldlM_cons, hd, ok_bind]
      exact ih fun d' hd' => hds d' (mem_cons_of_mem _ hd')
  exact hskip c.deletedFiles _ fun _ h => h

/-- Adding distinct files to a storage that has none of them. -/
theorem files_foldl_add (skip : BlobFileMeta → Bool) (files : List BlobFileMeta) (st : BlobStorage)
    (hnew : ∀ file ∈ files, st.files file.fileNumber = none)
    (hnodup : (files.map (·.fileNumber)).Nodup) (n : UInt64) (f : StoredFile) :
    (files.foldl (fun st file => if skip file then st else st.addBlobFile file) st).files n = some f ↔
      st.files n = some f ∨
        ∃ file ∈ files, skip file = false ∧ file.fileNumber = n ∧ f = ⟨file, false⟩ := by
  induction files generalizing st with
  | nil => simp
  | cons file files ih =>
    rw [map_cons, nodup_cons] at hnodup
    have hfile := hnew file mem_cons_self
    have hrest : ∀ g ∈ files, st.files g.fileNumber = none :=
      fun g hg => hnew g (mem_cons_of_mem _ hg)
    rw [foldl_cons]
    cases hskip : skip file with
    | true =>
      rw [if_pos rfl, ih st hrest hnodup.2]
      simp [hskip]
    | false =>
      have hother : ∀ g ∈ files, (st.addBlobFile file).files g.fileNumber = none := by
        intro g hg
        have hne : g.fileNumber ≠ file.fileNumber := by
          intro heq
          exact hnodup.1 (heq ▸ mem_map_of_mem hg)
        exact (update_of_ne hne _ _).trans (hrest g hg)
      rw [if_neg (by simp), ih _ hother hnodup.2]
      simp only [BlobStorage.addBlobFile, hfile, Option.getD_none, exists_mem_cons_iff,
        hskip, true_and]
      by_cases hn : file.fileNumber = n
      · subst hn
        simp only [update_self, Option.some.injEq, hfile, true_and]
        constructor
        · rintro (rfl | h)
          · exact .inr (.inl rfl)
          · exact .inr (.inr h)
        · rintro (h | rfl | h)
          · cases h
          · exact .inl rfl
          · exact .inr h
      · rw [update_of_ne (Ne.symm hn)]
        simp [hn]

theorem obsoleteFiles_applyAdded (c : CFEditCollector) (st : BlobStorage) :
    (c.applyAdded st).obsoleteFiles = st.obsoleteFiles := by
  rw [applyAdded]
  generalize c.addedFiles = files
  induction files generalizing st with
  | nil => rfl
  | cons file files ih =>
    rw [foldl_cons, ih]
    split
    · rfl
    · rfl

theorem getObsoleteFiles_applyAdded (q : Nat) :
    ((c.applyAdded {}).getObsoleteFiles q).1 = c.applyAdded {} := by
  have h := obsoleteFiles_applyAdded c {}
  generalize c.applyAdded {} = st at h ⊢
  cases st
  cases h
  simp [BlobStorage.getObsoleteFiles]

theorem files_applyAdded (hnodup : (c.addedFiles.map (·.fileNumber)).Nodup) (n : UInt64)
    (f : StoredFile) :
    (c.applyAdded {}).files n = some f ↔
      f.isObsolete = false ∧ f.file ∈ c.addedFiles ∧ f.file.fileNumber = n ∧
        n ∉ c.deletedFiles.map (·.1) := by
  rw [applyAdded, files_foldl_add _ _ _ (fun _ _ => rfl) hnodup]
  simp only [reduceCtorEq, false_or, any_eq_false, beq_iff_eq]
  constructor
  · rintro ⟨file, hfile, hdel, rfl, rfl⟩
    refine ⟨rfl, hfile, rfl, fun hmem => ?_⟩
    obtain ⟨d, hd, heq⟩ := mem_map.mp hmem
    exact hdel d hd heq
  · rintro ⟨hob, hfile, rfl, hdel⟩
    refine ⟨f.file, hfile, fun d hd heq => hdel (heq ▸ mem_map_of_mem hd), rfl, ?_⟩
    cases f
    cases hob
    rfl

end

/-! ## Recovery -/

def replayed (log : List VersionEdit) (cf : UInt32) : BlobStorage :=
  (gathered log cf).applyAdded {}

theorem replayed_files (h : Consistent log) (cf : UInt32) (n : UInt64) (f : StoredFile) :
    (replayed log cf).files n = some f ↔
      f.isObsolete = false ∧ f.file ∈ addedTo cf log ∧ f.file.fileNumber = n ∧
        n ∉ (deletedFrom cf log).map (·.1) :=
  files_applyAdded (h.addedOnce cf) n f

theorem mapM_ok {g : α → β} (h : ∀ x ∈ xs, f x = .ok (g x)) : xs.mapM f = .ok (xs.map g) := by
  induction xs with
  | nil => rfl
  | cons x xs ih =>
    rw [mapM_cons, h x mem_cons_self, ok_bind,
      ih fun y hy => h y (mem_cons_of_mem _ hy)]
    rfl

/-- What recovery does once the records are collected. -/
theorem recover_eq {c : EditCollector} (hc : log.foldlM addEdit {} = .ok c) :
    recover cfs log = (do
      let collector ← c.checkEdits (cfs.map fun cf => (cf, {}))
      let set ← collector.apply (cfs.map fun cf => (cf, {}))
      let next ← collector.getNextFileNumber
      pure (set.map fun s => (s.1, (s.2.getObsoleteFiles kMaxSequenceNumber).1), next)) := by
  rw [recover, hc, ok_bind]

theorem checkEdits_ok {c : EditCollector} (hc : Collects log c)
    (hp : ∀ cf ∈ cfs, Paired (gathered log cf)) :
    c.checkEdits (cfs.map fun cf => (cf, {})) = .ok { c with isSealed := true } := by
  have hforM : (cfs.map fun cf => (cf, ({} : BlobStorage))).forM
      (fun s => (c.columnFamilies s.1).check s.2) = .ok () := by
    refine forM_ok fun s hs => ?_
    obtain ⟨cf, hcf, rfl⟩ := mem_map.mp hs
    rw [hc.families]
    exact check_empty (hp cf hcf)
  rw [checkEdits, hforM, ok_bind]
  rfl

theorem checkEdits_error {c : EditCollector} (hc : Collects log c) {cf : UInt32} (hcf : cf ∈ cfs)
    (hp : ¬ Paired (gathered log cf)) : Corrupt (c.checkEdits (cfs.map fun cf => (cf, {}))) := by
  rw [checkEdits]
  refine Corrupt.bind (forM_error (fun y hy => ?_) (mem_map_of_mem hcf) ?_) _
  · obtain ⟨cf', -, rfl⟩ := mem_map.mp hy
    rw [hc.families]
    by_cases hp' : Paired (gathered log cf')
    · exact .inl (check_empty hp')
    · exact .inr (check_empty_error hp')
  · rw [hc.families]
    exact check_empty_error hp

theorem apply_ok {c : EditCollector} (hc : Collects log c)
    (hp : ∀ cf ∈ cfs, Paired (gathered log cf)) :
    EditCollector.apply { c with isSealed := true } (cfs.map fun cf => (cf, {}))
      = .ok (cfs.map fun cf => (cf, replayed log cf)) := by
  rw [EditCollector.apply, if_pos rfl, mapM_ok (g := fun s : UInt32 × BlobStorage => (s.1, replayed log s.1))]
  · simp
  · intro s hs
    obtain ⟨cf, hcf, rfl⟩ := mem_map.mp hs
    rw [hc.families, apply_empty (hp cf hcf), ok_bind]
    rfl

/-- A replayable manifest is replayed, and leaves what was added and not deleted. -/
theorem recover_ok (h : Replayable cfs log) :
    ∃ next, lastNext log = some next ∧
      recover cfs log = .ok (cfs.map fun cf => (cf, replayed log cf), next) := by
  obtain ⟨c, hrun, hc⟩ := addEdits_ok h.toConsistent
  obtain ⟨next, hnext⟩ := Option.isSome_iff_exists.mp h.hasNext
  refine ⟨next, hnext, ?_⟩
  rw [recover_eq hrun, checkEdits_ok hc h.paired, ok_bind, apply_ok hc h.paired, ok_bind]
  have hnum : getNextFileNumber { c with isSealed := true } = .ok next := by
    simp [getNextFileNumber, hc.next, hnext]
  rw [hnum, ok_bind, map_map]
  simp only [comp_def, replayed, getObsoleteFiles_applyAdded]
  rfl

/-- Any other manifest is reported as corrupt. -/
theorem recover_error (h : ¬ Replayable cfs log) :
    ∃ s, recover cfs log = .error s ∧ s.code = .corruption := by
  by_cases hlog : Consistent log
  · obtain ⟨c, hrun, hc⟩ := addEdits_ok hlog
    rw [recover_eq hrun]
    by_cases hp : ∀ cf ∈ cfs, Paired (gathered log cf)
    · rw [checkEdits_ok hc hp, ok_bind, apply_ok hc hp, ok_bind]
      have hnone : lastNext log = none := by
        by_contra hsome
        exact h ⟨hlog, hp, Option.isSome_iff_ne_none.mpr hsome⟩
      refine ⟨corruption "No next file number in manifest file", ?_, rfl⟩
      simp only [getNextFileNumber, hc.next, hnone, error_bind]
    · push Not at hp
      obtain ⟨cf, hcf, hp⟩ := hp
      exact (checkEdits_error hc hcf hp).bind _
  · rw [recover]
    exact (addEdits_error hlog).bind _

end TitanGC.Manifest.Families
