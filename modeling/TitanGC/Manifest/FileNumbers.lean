import TitanGC.Manifest.LiveReplay
import TitanGC.Manifest.Recovery

/-!
# File numbers across crashes

`NewFileNumber` hands out numbers without logging them. `LogAndApply` writes the
counter of the moment into every record, `Recover` continues from the counter of
the last record it reads, and a crash may lose the records after the last sync.
A number is therefore handed out again only if no record that survives names it.

The calls of `LogAndApply` exclude each other, but other threads may call
`NewFileNumber` between the moment it reads the counter and the moment its record
is written, so it is two steps here. Records stand as the edits that are read
back from them.
-/

namespace TitanGC.Manifest.FileNumbers

open Lib.Runs Format.Coding Function
open List hiding set
open VersionEdits Families Logging Mirror Recovery LiveReplay

/-! ## The system -/

/-- `born` is ghost: it tells which call of `NewFileNumber` a number comes from, and
so which of the blob files that may have had the number is meant. -/
structure Record where
  edit : VersionEdit
  born : UInt64 → Nat

structure Process where
  set : OpenSet
  /-- A call of `LogAndApply` that has sealed its edit and not yet written the record. -/
  logging : Option (Record × EditCollector) := none
  /-- Ghost: the numbers that this process handed out. -/
  handedOut : List UInt64 := []
  born : UInt64 → Nat

structure State where
  /-- The current manifest; a crash may lose what is not synced. -/
  records : List Record
  synced : Nat
  process : Option Process
  /-- Ghost: the calls of `NewFileNumber` so far. -/
  calls : Nat

/-- How the append and the sync of a record end. -/
inductive Append where
  | failed | notSynced | ok
  deriving Repr, DecidableEq

inductive Op where
  | newFileNumber
  | beginLogAndApply (edit : VersionEdit)
  | endLogAndApply (w : Append)
  /-- The machine stops; so many records survive, the synced ones in any case. -/
  | crash (kept : Nat)
  /-- `Open` with these column families; the new manifest may fail to be written. -/
  | recover (ids : List UInt32) (written : Bool)

def Adds (e : VersionEdit) (n : UInt64) : Prop := ∃ f ∈ e.addedFiles, f.fileNumber = n

instance (e : VersionEdit) (n : UInt64) : Decidable (Adds e n) :=
  inferInstanceAs (Decidable (∃ f ∈ e.addedFiles, f.fileNumber = n))

/-- The call that a file of the manifest has its number from. -/
def owner (records : List Record) (n : UInt64) : Nat :=
  match records.find? fun r => Adds r.edit n with
  | some r => r.born n
  | none => 0

def Process.newFileNumber (p : Process) (calls : Nat) : Process :=
  { p with
    set := p.set.newFileNumber.2
    handedOut := p.set.newFileNumber.1 :: p.handedOut
    born := update p.born p.set.newFileNumber.1 calls }

def Process.beginLogAndApply (p : Process) (edit : VersionEdit) : Process :=
  match p.logging, p.set.checked (numbered p.set edit) with
  | none, .ok collector => { p with logging := some (⟨(numbered p.set edit).persistent, p.born⟩, collector) }
  | _, _ => p

def Process.applyEdits (p : Process) (collector : EditCollector) : Process :=
  match collector.apply p.set.columnFamilies with
  | .ok families => { p with set := { p.set with columnFamilies := families }, logging := none }
  | .error _ => { p with logging := none }

def State.endLogAndApply (s : State) (p : Process) (w : Append) : State :=
  match p.logging with
  | none => s
  | some (record, collector) =>
    match w with
    | .failed => { s with process := some { p with logging := none } }
    | .notSynced =>
      { s with records := s.records ++ [record], process := some { p with logging := none } }
    | .ok =>
      { s with records := s.records ++ [record], synced := s.records.length + 1
               process := some (p.applyEdits collector) }

section

variable (iterate : BlobStorage → List (UInt64 × StoredFile))

/-- A number is taken for the new manifest, and the snapshot is written and synced before
`CURRENT` names it. -/
def State.reopened (s : State) (set : BlobFileSet) (next : UInt64) : State :=
  let opened := ({ columnFamilies := set, nextFileNumber := next } : OpenSet).newFileNumber.2
  { records := (opened.writeSnapshot iterate).map (⟨·, owner s.records⟩)
    synced := (opened.writeSnapshot iterate).length
    process := some
      { set := { opened with
          columnFamilies := set.map fun f => (f.1, (f.2.getObsoleteFiles kMaxSequenceNumber).1) }
        born := owner s.records }
    calls := s.calls + 1 }

def State.recover (s : State) (ids : List UInt32) (written : Bool) : State :=
  match (s.records.map (·.edit)).foldlM EditCollector.addEdit {} >>= build ids with
  | .error _ => s
  | .ok (set, next) => if written then s.reopened iterate set next else { s with calls := s.calls + 1 }

def exec (s : State) : Op → State
  | .newFileNumber =>
    match s.process with
    | none => s
    | some p => { s with process := some (p.newFileNumber s.calls), calls := s.calls + 1 }
  | .beginLogAndApply edit =>
    match s.process with
    | none => s
    | some p => { s with process := some (p.beginLogAndApply edit) }
  | .endLogAndApply w =>
    match s.process with
    | none => s
    | some p => s.endLogAndApply p w
  | .crash kept => { s with records := s.records.take (max kept s.synced), process := none }
  | .recover ids written =>
    match s.process with
    | none => s.recover iterate ids written
    | some _ => s

def opened (ids : List UInt32) : State :=
  let set := (({} : OpenSet).addColumnFamilies ids).newFileNumber.2
  { records := (set.writeSnapshot iterate).map (⟨·, fun _ => 0⟩)
    synced := (set.writeSnapshot iterate).length
    process := some { set := set, born := fun _ => 0 }
    calls := 1 }

def run (ids : List UInt32) (ops : List Op) : State := ops.foldl (exec iterate) (opened iterate ids)

end

/-- The file that got its number `n` from call `b` is live in the manifest: a synced record
adds it, and none deletes it. -/
def Live (s : State) (cf : UInt32) (n : UInt64) (b : Nat) : Prop :=
  ∃ r ∈ s.records.take s.synced, r.edit.columnFamilyId = cf ∧ Adds r.edit n ∧ r.born n = b ∧
    n ∉ (deletedFrom cf ((s.records.take s.synced).map (·.edit))).map (·.1)

/-! ## The counter in the records -/

/-- The counter after the records: that of the last one that has one. -/
def reached (log : List VersionEdit) (next : UInt64) : UInt64 :=
  log.foldl (fun next e => e.nextFileNumber.getD next) next

/-- The counter does not go down, and the files of a record have numbers below it. -/
def Ordered : UInt64 → List VersionEdit → Prop
  | _, [] => True
  | next, e :: log => next ≤ e.nextFileNumber.getD next ∧
      (∀ n, Adds e n → n < e.nextFileNumber.getD next) ∧ Ordered (e.nextFileNumber.getD next) log

variable {e : VersionEdit} {n : UInt64}

section

variable {next : UInt64} {log log' : List VersionEdit}

theorem reached_append : reached (log ++ log') next = reached log' (reached log next) := foldl_append

theorem ordered_append : Ordered next (log ++ log') ↔ Ordered next log ∧ Ordered (reached log next) log' := by
  induction log generalizing next with
  | nil => exact ⟨fun h => ⟨trivial, h⟩, fun h => h.2⟩
  | cons e log ih =>
    rw [cons_append, Ordered, Ordered, ih, and_assoc, and_assoc]
    rfl

theorem Ordered.le_reached (h : Ordered next log) : next ≤ reached log next := by
  induction log generalizing next with
  | nil => exact UInt64.le_refl next
  | cons e log ih => exact UInt64.le_trans h.1 (ih h.2.2)

theorem Ordered.lt_reached (h : Ordered next log) (he : e ∈ log) (hn : Adds e n) :
    n < reached log next := by
  obtain ⟨l, l', rfl⟩ := append_of_mem he
  obtain ⟨-, hle, hlt, hrest⟩ := ordered_append.mp h
  rw [reached_append]
  exact UInt64.lt_of_lt_of_le (hlt n hn) hrest.le_reached

theorem reached_eq_lastNext (log : List VersionEdit) (next : UInt64) :
    reached log next = (lastNext log).getD next := by
  induction log using List.reverseRecOn with
  | nil => rfl
  | append_singleton log e ih =>
    rw [reached_append, ih, lastNext_append_singleton]
    cases h : e.nextFileNumber <;> simp [reached, h]

end

/-! ## The invariant -/

def Process.pending (p : Process) : List Record := (p.logging.map (·.1)).toList

def State.all (s : State) : List Record := s.records ++ (s.process.map Process.pending).getD []

structure RecordsOk (all : List Record) : Prop where
  ordered : Ordered 0 (all.map (·.edit))
  /-- A number stands for one file only. -/
  once : ∀ r ∈ all, ∀ r' ∈ all, ∀ n, Adds r.edit n → Adds r'.edit n → r.born n = r'.born n

/-- The files of the storages are under their numbers, which the counter has passed. -/
def Passed (set : BlobFileSet) (next : UInt64) : Prop :=
  ∀ f ∈ set, ∀ n g, f.2.files n = some g → g.file.fileNumber = n ∧ n < next

structure ProcessOk (all : List Record) (p : Process) : Prop where
  next : reached (all.map (·.edit)) 0 ≤ p.set.nextFileNumber
  handed : ∀ n ∈ p.handedOut, n < p.set.nextFileNumber
  storage : Passed p.set.columnFamilies p.set.nextFileNumber
  born : ∀ r ∈ all, ∀ n ∈ p.handedOut, Adds r.edit n → r.born n = p.born n
  checked : ∀ l ∈ p.logging, ∃ e : VersionEdit, l.1.edit = e.persistent ∧ p.set.checked e = .ok l.2

structure Inv (s : State) : Prop where
  records : RecordsOk s.all
  synced : s.synced ≤ s.records.length
  process : ∀ p ∈ s.process, ProcessOk s.all p

/-- What stays true of a file that was live once. -/
structure Remembered (n : UInt64) (b : Nat) (s : State) : Prop where
  passed : n < reached ((s.records.take s.synced).map (·.edit)) 0
  records : ∀ r ∈ s.all, Adds r.edit n → r.born n = b
  process : ∀ p ∈ s.process, n ∈ p.handedOut → p.born n = b

variable {l l' : List Record} {r : Record}

theorem RecordsOk.of_append (h : RecordsOk (l ++ l')) : RecordsOk l where
  ordered := by
    have hordered := h.ordered
    rw [map_append] at hordered
    exact (ordered_append.mp hordered).1
  once r hr r' hr' := h.once r (mem_append_left _ hr) r' (mem_append_left _ hr')

theorem RecordsOk.lt_reached {all : List Record} (h : RecordsOk all) (hr : r ∈ all)
    (hn : Adds r.edit n) : n < reached (all.map (·.edit)) 0 :=
  h.ordered.lt_reached (mem_map_of_mem hr) hn

theorem RecordsOk.reached_le (h : RecordsOk (l ++ l')) :
    reached (l.map (·.edit)) 0 ≤ reached ((l ++ l').map (·.edit)) 0 := by
  have hordered := h.ordered
  rw [map_append] at hordered ⊢
  rw [reached_append]
  exact (ordered_append.mp hordered).2.le_reached

theorem RecordsOk.take (h : RecordsOk l) (i : Nat) : RecordsOk (l.take i) := by
  rw [← take_append_drop i l] at h
  exact h.of_append

theorem RecordsOk.reached_take_le (h : RecordsOk l) (i : Nat) :
    reached ((l.take i).map (·.edit)) 0 ≤ reached (l.map (·.edit)) 0 := by
  have hsplit := take_append_drop i l
  rw [← hsplit] at h
  exact UInt64.le_trans h.reached_le (by rw [hsplit]; exact UInt64.le_refl _)

theorem edits_map (log : List VersionEdit) (born : UInt64 → Nat) :
    (log.map fun e => (⟨e, born⟩ : Record)).map (·.edit) = log := by
  rw [map_map]
  exact map_id log

variable {p : Process}

/-- No call is under way. -/
theorem ProcessOk.idle {all : List Record} (h : ProcessOk all p) :
    ProcessOk all { p with logging := none } :=
  ⟨h.next, h.handed, h.storage, h.born, fun l hl => by cases hl⟩

theorem ProcessOk.of_append (h : ProcessOk (l ++ l') p) (hrecords : RecordsOk (l ++ l')) :
    ProcessOk l p :=
  ⟨UInt64.le_trans hrecords.reached_le h.next, h.handed, h.storage,
    fun r hr => h.born r (mem_append_left _ hr), h.checked⟩

theorem all_idle (records : List Record) (synced : Nat) (hp : p.logging = none) (calls : Nat) :
    State.all ⟨records, synced, some p, calls⟩ = records := by
  rw [State.all, Option.map_some, Process.pending, hp]
  exact append_nil records

theorem Inv.idle {records : List Record} {synced : Nat} (hp : p.logging = none) (calls : Nat)
    (hrecords : RecordsOk records) (hsynced : synced ≤ records.length) (hok : ProcessOk records p) :
    Inv ⟨records, synced, some p, calls⟩ := by
  have hall := all_idle records synced hp calls
  refine ⟨?_, hsynced, fun q hq => ?_⟩
  · rw [hall]
    exact hrecords
  · obtain rfl := Option.some.inj hq
    rw [hall]
    exact hok

variable {b : Nat}

theorem Remembered.mono {s t : State} (h : Remembered n b s)
    (hpassed : reached ((s.records.take s.synced).map (·.edit)) 0
      ≤ reached ((t.records.take t.synced).map (·.edit)) 0) (hrecords : ∀ r ∈ t.all, r ∈ s.all)
    (hprocess : ∀ p ∈ t.process, n ∈ p.handedOut → p.born n = b) : Remembered n b t :=
  ⟨UInt64.lt_of_lt_of_le h.passed hpassed, fun r hr => h.records r (hrecords r hr), hprocess⟩

/-! ### Snapshots -/

section

variable {iterate : BlobStorage → List (UInt64 × StoredFile)} {set : OpenSet}

theorem reached_snapshot : reached (set.writeSnapshot iterate) 0 = set.nextFileNumber := by
  rw [reached_eq_lastNext, lastNext, next_snapshot]
  rfl

variable (hit : ∀ st, Iterates st (iterate st)) (hset : Passed set.columnFamilies set.nextFileNumber)
include hit hset

theorem adds_snapshot (he : e ∈ set.writeSnapshot iterate) (hn : Adds e n) :
    ∃ f ∈ set.columnFamilies, ∃ g, f.2.files n = some g := by
  obtain ⟨file, hfile, rfl⟩ := hn
  rcases mem_cons.mp he with rfl | he
  · cases hfile
  · obtain ⟨f, hf, rfl⟩ := mem_map.mp he
    obtain ⟨entry, hentry, rfl⟩ := mem_map.mp hfile
    have hstored := ((hit f.2).2 entry.1 entry.2).mp (mem_filter.mp hentry).1
    refine ⟨f, hf, entry.2, ?_⟩
    rw [(hset f hf _ _ hstored).1]
    exact hstored

theorem ordered_snapshot : Ordered 0 (set.writeSnapshot iterate) := by
  refine ⟨Nat.zero_le _, fun n hn => ?_, ?_⟩
  · obtain ⟨f, hf, -⟩ := hn
    cases hf
  -- the records of the column families carry no counter
  have hfamilies : ∀ log : List VersionEdit, (∀ e ∈ log, e.nextFileNumber = none ∧
      ∀ n, Adds e n → n < set.nextFileNumber) → Ordered set.nextFileNumber log := by
    intro log
    induction log with
    | nil => exact fun _ => trivial
    | cons e log ih =>
      intro h
      obtain ⟨hnone, hlt⟩ := h e mem_cons_self
      rw [Ordered, hnone]
      exact ⟨UInt64.le_refl _, hlt, ih fun e' he' => h e' (mem_cons_of_mem _ he')⟩
  refine hfamilies _ fun e he => ⟨?_, fun n hn => ?_⟩
  · obtain ⟨f, -, rfl⟩ := mem_map.mp he
    rfl
  · obtain ⟨f, hf, g, hg⟩ := adds_snapshot hit hset (mem_cons_of_mem _ he) hn
    exact (hset f hf n g hg).2

theorem recordsOk_snapshot (born : UInt64 → Nat) :
    RecordsOk ((set.writeSnapshot iterate).map (⟨·, born⟩)) where
  ordered := by
    rw [edits_map]
    exact ordered_snapshot hit hset
  once r hr r' hr' n _ _ := by
    obtain ⟨e, -, rfl⟩ := mem_map.mp hr
    obtain ⟨e', -, rfl⟩ := mem_map.mp hr'
    rfl

end

/-! ### Steps -/

/-- What the callers see to: an edit adds files whose numbers this process handed out. The
counter does not wrap around. -/
def Promised (s : State) : Op → Prop
  | .newFileNumber => ∀ p ∈ s.process, p.set.nextFileNumber.toNat + 1 < 2 ^ 64
  | .beginLogAndApply edit => ∀ p ∈ s.process, ∀ n, Adds edit n → n ∈ p.handedOut
  | .recover _ _ => (reached (s.records.map (·.edit)) 0).toNat + 1 < 2 ^ 64
  | _ => True

theorem Passed.mono {set : BlobFileSet} {next next' : UInt64} (h : Passed set next) (hle : next ≤ next') :
    Passed set next' :=
  fun f hf n g hg => ⟨(h f hf n g hg).1, UInt64.lt_of_lt_of_le (h f hf n g hg).2 hle⟩

variable {p : Process}

theorem remembered_newFileNumber {b calls : Nat} (hlt : n < p.set.nextFileNumber)
    (h : n ∈ p.handedOut → p.born n = b) (hn : n ∈ (p.newFileNumber calls).handedOut) :
    (p.newFileNumber calls).born n = b := by
  have hne : n ≠ p.set.nextFileNumber := fun heq => UInt64.lt_irrefl _ (heq ▸ hlt)
  exact (update_of_ne hne _ _).trans (h ((mem_cons.mp hn).resolve_left hne))

theorem ProcessOk.newFileNumber {all : List Record} (h : ProcessOk all p) (hrecords : RecordsOk all)
    (hwrap : p.set.nextFileNumber.toNat + 1 < 2 ^ 64) (calls : Nat) :
    ProcessOk all (p.newFileNumber calls) := by
  have hle : p.set.nextFileNumber ≤ (p.newFileNumber calls).set.nextFileNumber :=
    UInt64.le_of_lt (lt_succ_of_le hwrap (UInt64.le_refl _))
  refine ⟨UInt64.le_trans h.next hle, fun n hn => ?_, h.storage.mono hle, fun r hr n hn hadds => ?_,
    h.checked⟩
  · rcases mem_cons.mp hn with rfl | hn
    · exact lt_succ_of_le hwrap (UInt64.le_refl _)
    · exact UInt64.lt_of_lt_of_le (h.handed n hn) hle
  · -- no record names the new number, and the earlier ones keep their calls
    have hlt := UInt64.lt_of_lt_of_le (hrecords.lt_reached hr hadds) h.next
    have hne : n ≠ p.set.nextFileNumber := fun heq => UInt64.lt_irrefl _ (heq ▸ hlt)
    rw [Process.newFileNumber]
    exact (h.born r hr n ((mem_cons.mp hn).resolve_left hne) hadds).trans (update_of_ne hne _ _).symm

/-- A call of `LogAndApply` begins, or is refused. -/
theorem beginLogAndApply_cases (p : Process) (edit : VersionEdit) :
    p.beginLogAndApply edit = p ∨ p.logging = none ∧ ∃ collector,
      p.set.checked (numbered p.set edit) = .ok collector ∧ p.beginLogAndApply edit
        = { p with logging := some (⟨(numbered p.set edit).persistent, p.born⟩, collector) } := by
  rw [Process.beginLogAndApply]
  split
  · next collector hlogging hchecked => exact .inr ⟨hlogging, collector, hchecked, rfl⟩
  · exact .inl rfl

theorem Passed.applyEdits {p : Process} {collector : EditCollector}
    (h : Passed p.set.columnFamilies p.set.nextFileNumber) (hedit : r.edit = e.persistent)
    (hchecked : p.set.checked e = .ok collector)
    (hlt : ∀ n, Adds r.edit n → n < p.set.nextFileNumber) :
    Passed (p.applyEdits collector).set.columnFamilies p.set.nextFileNumber := by
  rw [Process.applyEdits, apply_checked hchecked]
  intro f hf n g hg
  obtain ⟨f', hf', rfl⟩ := mem_map.mp hf
  rcases mem_applied hg with ⟨g', hg', hsame⟩ | ⟨hmem, rfl⟩
  · rw [hsame]
    exact h f' hf' n g' hg'
  · refine ⟨rfl, hlt _ ?_⟩
    rw [hedit]
    exact ⟨g.file, mem_of_mem_addedTo hmem, rfl⟩

/-- The record of a call that ends is written, and applied if it is synced. -/
theorem ProcessOk.applyEdits {all : List Record} {p : Process} {collector : EditCollector}
    (h : ProcessOk all p) (hrecords : RecordsOk all) (hlogging : p.logging = some (r, collector))
    (hr : r ∈ all) : ProcessOk all (p.applyEdits collector) := by
  obtain ⟨e, hedit, hchecked⟩ := h.checked (r, collector) hlogging
  have hlt : ∀ n, Adds r.edit n → n < p.set.nextFileNumber := fun n hn =>
    UInt64.lt_of_lt_of_le (hrecords.lt_reached hr hn) h.next
  have hstorage := h.storage.applyEdits hedit hchecked hlt
  rw [Process.applyEdits, apply_checked hchecked] at hstorage ⊢
  exact ⟨h.next, h.handed, hstorage, h.born, fun l hl => by cases hl⟩

/-- A record that carries the counter is appended. -/
theorem RecordsOk.append_singleton (h : RecordsOk l) {next : UInt64}
    (hnext : r.edit.nextFileNumber = some next) (hle : reached (l.map (·.edit)) 0 ≤ next)
    (hlt : ∀ n, Adds r.edit n → n < next)
    (hborn : ∀ r' ∈ l, ∀ n, Adds r.edit n → Adds r'.edit n → r'.born n = r.born n) :
    RecordsOk (l ++ [r]) where
  ordered := by
    rw [map_append, ordered_append]
    refine ⟨h.ordered, ?_, ?_, trivial⟩
    · rw [hnext]
      exact hle
    · rw [hnext]
      exact hlt
  once r₁ hr₁ r₂ hr₂ n hn₁ hn₂ := by
    rcases mem_append.mp hr₁ with hold₁ | hnew₁ <;> rcases mem_append.mp hr₂ with hold₂ | hnew₂
    · exact h.once r₁ hold₁ r₂ hold₂ n hn₁ hn₂
    · obtain rfl := mem_singleton.mp hnew₂
      exact hborn r₁ hold₁ n hn₂ hn₁
    · obtain rfl := mem_singleton.mp hnew₁
      exact (hborn r₂ hold₂ n hn₁ hn₂).symm
    · rw [mem_singleton.mp hnew₁, mem_singleton.mp hnew₂]

/-! ### Recovery -/

section

variable {log : List VersionEdit} {next : UInt64}

theorem adds_of_replayed (h : Consistent log) {cf : UInt32} {g : StoredFile}
    (hg : (replayed log cf).files n = some g) : g.file.fileNumber = n ∧ ∃ e ∈ log, Adds e n := by
  obtain ⟨-, hadded, hnum, -⟩ := (replayed_files h cf n g).mp hg
  obtain ⟨e, he, hfile⟩ := mem_flatMap.mp hadded
  split at hfile
  · exact ⟨hnum, e, he, g.file, hfile, hnum⟩
  · cases hfile

theorem passed_replayed (ids : List UInt32) (h : Consistent log) (hordered : Ordered 0 log)
    (hnext : lastNext log = some next) :
    Passed (ids.map fun cf => (cf, replayed log cf)) next := by
  intro f hf n g hg
  obtain ⟨cf, -, rfl⟩ := mem_map.mp hf
  obtain ⟨hnum, e, he, hn⟩ := adds_of_replayed h hg
  have hlt := hordered.lt_reached he hn
  rw [reached_eq_lastNext, hnext] at hlt
  exact ⟨hnum, hlt⟩

theorem owner_eq {records : List Record} (h : ∀ r ∈ records, Adds r.edit n → r.born n = b)
    (hadds : ∃ e ∈ records.map (·.edit), Adds e n) : owner records n = b := by
  obtain ⟨e, he, hn⟩ := hadds
  obtain ⟨r, hr, rfl⟩ := mem_map.mp he
  rw [owner]
  cases hfind : records.find? fun r => Adds r.edit n with
  | some r' => exact h r' (mem_of_find?_eq_some hfind) (by simpa using find?_some hfind)
  | none => exact absurd hn (by simpa using find?_eq_none.mp hfind r hr)

theorem recover_cases (iterate : BlobStorage → List (UInt64 × StoredFile)) (s : State) (ids : List UInt32)
    (written : Bool) :
    (∃ calls, s.recover iterate ids written = { s with calls := calls }) ∨
      ∃ next, Replayable ids (s.records.map (·.edit)) ∧ lastNext (s.records.map (·.edit)) = some next ∧
        s.recover iterate ids written = s.reopened iterate
          (ids.map fun cf => (cf, replayed (s.records.map (·.edit)) cf)) next := by
  rw [State.recover]
  cases hbuild : (s.records.map (·.edit)).foldlM EditCollector.addEdit {} >>= build ids with
  | error status => exact .inl ⟨s.calls, rfl⟩
  | ok r =>
    have hreplay := replayable_of_build hbuild
    obtain ⟨next, hnext, hok⟩ := build_ok hreplay
    rw [hok] at hbuild
    obtain rfl := Except.ok.inj hbuild
    cases written with
    | false => exact .inl ⟨s.calls + 1, rfl⟩
    | true => exact .inr ⟨next, hreplay, hnext, rfl⟩

end

section

variable {iterate : BlobStorage → List (UInt64 × StoredFile)} (hit : ∀ st, Iterates st (iterate st))
  {s : State} (h : Inv s)

theorem all_eq {p : Process} (hp : s.process = some p) : s.all = s.records ++ p.pending := by
  rw [State.all, hp]
  rfl

/-- What `Recover` builds, with the number of the new manifest taken. -/
def State.rebuilt (s : State) (ids : List UInt32) (next : UInt64) : OpenSet where
  columnFamilies := ids.map fun cf => (cf, replayed (s.records.map (·.edit)) cf)
  nextFileNumber := next + 1

section

variable {ids : List UInt32} {next : UInt64} (hreplay : Replayable ids (s.records.map (·.edit)))
  (hnext : lastNext (s.records.map (·.edit)) = some next) (hwrap : next.toNat + 1 < 2 ^ 64)
include h hreplay hnext hwrap

theorem Inv.rebuilt : Passed (s.rebuilt ids next).columnFamilies (s.rebuilt ids next).nextFileNumber :=
  (passed_replayed ids hreplay.toConsistent h.records.of_append.ordered hnext).mono
    (UInt64.le_of_lt (lt_succ_of_le hwrap (UInt64.le_refl next)))

include hit in
theorem Inv.reopened : Inv (s.reopened iterate (s.rebuilt ids next).columnFamilies next) := by
  have hpassed := h.rebuilt hreplay hnext hwrap
  refine Inv.idle rfl _ (recordsOk_snapshot hit hpassed (owner s.records)) (length_map _).ge ?_
  refine ⟨?_, fun n hn => ?_, fun f hf n g hg => ?_, fun r _ n hn => ?_, fun l hl => ?_⟩
  · rw [edits_map, reached_snapshot]
    exact UInt64.le_refl _
  · cases hn
  · obtain ⟨f', hf', rfl⟩ := mem_map.mp hf
    dsimp only [BlobStorage.getObsoleteFiles] at hg
    split at hg
    · cases hg
    · exact hpassed f' hf' n g hg
  · cases hn
  · cases hl

include hit in
/-- The snapshot lists a file that was live before as the same file. -/
theorem Remembered.reopened (hmem : Remembered n b s) :
    Remembered n b (s.reopened iterate (s.rebuilt ids next).columnFamilies next) := by
  have hall : (s.reopened iterate (s.rebuilt ids next).columnFamilies next).all
      = ((s.rebuilt ids next).writeSnapshot iterate).map (⟨·, owner s.records⟩) := all_idle _ _ rfl _
  refine ⟨?_, fun r hr hn => ?_, fun p hp hn => ?_⟩
  · have hle := h.records.of_append.reached_take_le s.synced
    rw [reached_eq_lastNext (s.records.map _), hnext] at hle
    have htake : ((s.reopened iterate (s.rebuilt ids next).columnFamilies next).records.take
        (s.reopened iterate (s.rebuilt ids next).columnFamilies next).synced).map (·.edit)
        = (s.rebuilt ids next).writeSnapshot iterate :=
      (congrArg (List.map _) (take_of_length_le (length_map _).le)).trans (edits_map _ _)
    rw [htake, reached_snapshot]
    exact lt_succ_of_le hwrap (UInt64.le_of_lt (UInt64.lt_of_lt_of_le hmem.passed hle))
  · rw [hall] at hr
    obtain ⟨e, he, rfl⟩ := mem_map.mp hr
    obtain ⟨f, hf, g, hg⟩ := adds_snapshot hit (h.rebuilt hreplay hnext hwrap) he hn
    obtain ⟨cf, -, rfl⟩ := mem_map.mp hf
    exact owner_eq (fun r hr => hmem.records r (mem_append_left _ hr))
      (adds_of_replayed hreplay.toConsistent hg).2
  · obtain rfl := Option.some.inj hp
    cases hn

end

variable {n : UInt64} {b : Nat}

theorem applyEdits_logging (p : Process) (collector : EditCollector) :
    (p.applyEdits collector).logging = none := by
  rw [Process.applyEdits]
  split <;> rfl

theorem applyEdits_ghost (p : Process) (collector : EditCollector) :
    (p.applyEdits collector).handedOut = p.handedOut ∧ (p.applyEdits collector).born = p.born := by
  rw [Process.applyEdits]
  split <;> exact ⟨rfl, rfl⟩

/-- How a call ends: nothing was under way, or its record is written or not. -/
theorem endLogAndApply_cases (s : State) (p : Process) (w : Append) :
    s.endLogAndApply p w = s ∨ ∃ r collector, p.logging = some (r, collector) ∧
      (s.endLogAndApply p w = { s with process := some { p with logging := none } } ∨
        s.endLogAndApply p w
          = { s with records := s.records ++ [r], process := some { p with logging := none } } ∨
        s.endLogAndApply p w = { s with records := s.records ++ [r], synced := s.records.length + 1
                                        process := some (p.applyEdits collector) }) := by
  rw [State.endLogAndApply]
  cases hlogging : p.logging with
  | none => exact .inl rfl
  | some l =>
    refine .inr ⟨l.1, l.2, rfl, ?_⟩
    cases w with
    | failed => exact .inl rfl
    | notSynced => exact .inr (.inl rfl)
    | ok => exact .inr (.inr rfl)

theorem Remembered.unique {cf : UInt32} {b' : Nat} (hmem : Remembered n b s) (hlive : Live s cf n b') :
    b = b' := by
  obtain ⟨r, hr, -, hadds, rfl, -⟩ := hlive
  exact (hmem.records r (mem_append_left _ (mem_of_mem_take hr)) hadds).symm

/-- What a step keeps: the invariant, and what is true of the files that were live. -/
structure Kept (s t : State) : Prop where
  inv : Inv t
  remembered : ∀ {n b}, Remembered n b s → Remembered n b t

include h

theorem Remembered.lt_next (hmem : Remembered n b s) (hp : s.process = some p) :
    n < p.set.nextFileNumber := by
  refine UInt64.lt_of_lt_of_le hmem.passed (UInt64.le_trans ?_ (h.process p hp).next)
  exact UInt64.le_trans (h.records.of_append.reached_take_le s.synced) h.records.reached_le

/-- A file that is live is remembered. -/
theorem remembered_of_live {cf : UInt32} (hlive : Live s cf n b) : Remembered n b s := by
  obtain ⟨r, hr, -, hadds, rfl, -⟩ := hlive
  have hmem : r ∈ s.all := mem_append_left _ (mem_of_mem_take hr)
  exact ⟨(h.records.of_append.take s.synced).lt_reached hr hadds,
    fun r' hr' hadds' => h.records.once r' hr' r hmem n hadds' hadds,
    fun p hp hn => ((h.process p hp).born r hmem n hn hadds).symm⟩

theorem kept_newFileNumber (hpromised : Promised s .newFileNumber) :
    Kept s (exec iterate s .newFileNumber) := by
  rw [exec]
  cases hp : s.process with
  | none => exact ⟨h, id⟩
  | some p =>
    have hrecords := h.records
    have hprocess := h.process p hp
    rw [all_eq hp] at hrecords hprocess
    refine ⟨⟨hrecords, h.synced, fun q hq => ?_⟩, fun hmem => ?_⟩
    · obtain rfl := Option.some.inj hq
      exact hprocess.newFileNumber hrecords (hpromised p hp) s.calls
    · refine hmem.mono (UInt64.le_refl _) (fun r hr => ?_) fun q hq hn => ?_
      · rw [all_eq hp]
        exact hr
      · obtain rfl := Option.some.inj hq
        exact remembered_newFileNumber (hmem.lt_next h hp) (hmem.process p hp) hn

theorem kept_beginLogAndApply {edit : VersionEdit} (hpromised : Promised s (.beginLogAndApply edit)) :
    Kept s (exec iterate s (.beginLogAndApply edit)) := by
  rw [exec]
  cases hp : s.process with
  | none => exact ⟨h, id⟩
  | some p =>
    have hok := h.process p hp
    dsimp only
    rcases beginLogAndApply_cases p edit with hsame | ⟨hlogging, collector, hchecked, heq⟩
    · rw [hsame, ← hp]
      exact ⟨h, id⟩
    · rw [heq]
      have hall : s.all = s.records := by
        rw [all_eq hp, Process.pending, hlogging]
        exact append_nil _
      have hrecords := h.records
      rw [hall] at hok hrecords
      have hnew : RecordsOk (s.records ++ [⟨(numbered p.set edit).persistent, p.born⟩]) :=
        hrecords.append_singleton rfl hok.next (fun n hn => hok.handed n (hpromised p hp n hn))
          fun r hr n hn => hok.born r hr n (hpromised p hp n hn)
      refine ⟨⟨hnew, h.synced, fun q hq => ?_⟩, fun {n b} hmem =>
        ⟨hmem.passed, fun r hr hn => ?_, fun q hq => ?_⟩⟩
      · obtain rfl := Option.some.inj hq
        refine ⟨?_, hok.handed, hok.storage, fun r hr n hn hadds => ?_, fun l hl => ?_⟩
        · show reached ((s.records ++ [_]).map Record.edit) 0 ≤ _
          rw [map_append, reached_append]
          exact UInt64.le_refl _
        · rcases mem_append.mp hr with hr | hr
          · exact hok.born r hr n hn hadds
          · rw [mem_singleton.mp hr]
        · obtain rfl := Option.some.inj hl
          exact ⟨_, rfl, hchecked⟩
      · rcases mem_append.mp hr with hr | hr
        · exact hmem.records r (mem_append_left _ hr) hn
        · obtain rfl := mem_singleton.mp hr
          exact hmem.process p hp (hpromised p hp n hn)
      · obtain rfl := Option.some.inj hq
        exact hmem.process p hp

theorem kept_endLogAndApply (w : Append) : Kept s (exec iterate s (.endLogAndApply w)) := by
  rw [exec]
  cases hp : s.process with
  | none => exact ⟨h, id⟩
  | some p =>
    dsimp only
    rcases endLogAndApply_cases s p w with heq | ⟨r, collector, hlogging, hcases⟩
    · rw [heq]
      exact ⟨h, id⟩
    · have hall : s.all = s.records ++ [r] := by
        rw [all_eq hp, Process.pending, hlogging]
        rfl
      have hrecords := h.records
      have hok := h.process p hp
      rw [hall] at hrecords hok
      have hlength : s.records.length + 1 = (s.records ++ [r]).length := by simp
      -- the records stay a beginning of what was written or about to be
      have hmore : ∀ {t : State} (l : List Record), t.all = l → (∀ r' ∈ l, r' ∈ s.records ++ [r]) →
          ∀ r' ∈ t.all, r' ∈ s.all := by
        intro t l ht hl r' hr'
        rw [hall]
        exact hl r' (ht ▸ hr')
      rcases hcases with heq | heq | heq
      · rw [heq]
        refine ⟨Inv.idle rfl _ hrecords.of_append h.synced (hok.of_append hrecords).idle, fun hmem => ?_⟩
        refine hmem.mono (UInt64.le_refl _) (hmore _ (all_idle _ _ rfl _) fun r' hr' =>
          mem_append_left _ hr') fun q hq => ?_
        obtain rfl := Option.some.inj hq
        exact hmem.process p hp
      · rw [heq]
        refine ⟨Inv.idle rfl _ hrecords (hlength ▸ Nat.le_succ_of_le h.synced) hok.idle, fun hmem => ?_⟩
        refine hmem.mono ?_ (hmore _ (all_idle _ _ rfl _) fun r' hr' => hr') fun q hq => ?_
        · rw [take_append_of_le_length h.synced]
          exact UInt64.le_refl _
        · obtain rfl := Option.some.inj hq
          exact hmem.process p hp
      · rw [heq]
        have hidle := applyEdits_logging p collector
        refine ⟨Inv.idle hidle _ hrecords hlength.le (hok.applyEdits hrecords hlogging
          (mem_append_right _ (mem_singleton_self r))), fun hmem => ?_⟩
        refine hmem.mono ?_ (hmore _ (all_idle _ _ hidle _) fun r' hr' => hr') fun q hq => ?_
        · have hle := hrecords.reached_take_le s.synced
          rw [take_append_of_le_length h.synced] at hle
          dsimp only
          rw [take_of_length_le hlength.ge]
          exact hle
        · obtain rfl := Option.some.inj hq
          obtain ⟨hhanded, hborn⟩ := applyEdits_ghost p collector
          rw [hhanded, hborn]
          exact hmem.process p hp

theorem kept_crash (kept : Nat) : Kept s (exec iterate s (.crash kept)) := by
  refine ⟨⟨?_, ?_, fun p hp => by cases hp⟩, fun hmem => hmem.mono ?_ (fun r hr => ?_) fun p hp =>
    by cases hp⟩
  · rw [State.all, exec]
    exact (append_nil _).symm ▸ h.records.of_append.take _
  · rw [exec, length_take]
    exact le_min (le_max_right _ _) h.synced
  · rw [exec]
    dsimp only
    rw [take_take, min_eq_left (le_max_right kept s.synced)]
    exact UInt64.le_refl _
  · rcases mem_append.mp hr with hr | hr
    · exact mem_append_left _ (mem_of_mem_take hr)
    · cases hr

include hit

/-- A process that is opened took over, or `Open` failed and left the manifest; it is not
called while a process runs. -/
theorem kept_recover {ids : List UInt32} {written : Bool} (hpromised : Promised s (.recover ids written)) :
    Kept s (exec iterate s (.recover ids written)) := by
  rw [exec]
  cases hp : s.process with
  | some p => exact ⟨h, id⟩
  | none =>
    dsimp only
    rcases recover_cases iterate s ids written with ⟨calls, heq⟩ | ⟨next, hreplay, hnext, heq⟩
    · rw [heq]
      exact ⟨⟨h.records, h.synced, h.process⟩, fun hmem => ⟨hmem.passed, hmem.records, hmem.process⟩⟩
    · rw [Promised, reached_eq_lastNext, hnext] at hpromised
      rw [heq]
      exact ⟨h.reopened hit hreplay hnext hpromised, Remembered.reopened hit h hreplay hnext hpromised⟩

theorem kept_exec (op : Op) (hpromised : Promised s op) : Kept s (exec iterate s op) := by
  cases op with
  | newFileNumber => exact kept_newFileNumber h hpromised
  | beginLogAndApply edit => exact kept_beginLogAndApply h hpromised
  | endLogAndApply w => exact kept_endLogAndApply h w
  | crash kept => exact kept_crash h kept
  | recover ids written => exact kept_recover hit h hpromised

end

/-! ## Runs -/

section

variable {iterate : BlobStorage → List (UInt64 × StoredFile)} (hit : ∀ st, Iterates st (iterate st))
include hit

theorem inv_opened (ids : List UInt32) : Inv (opened iterate ids) := by
  have hempty := addColumnFamilies_invariant (fun f => ∀ n, f.2.files n = none) ids []
    (fun f hf => by cases hf) nodup_nil fun _ _ _ _ => rfl
  have hpassed : Passed (({} : OpenSet).addColumnFamilies ids).newFileNumber.2.columnFamilies 2 := by
    intro f hf n g hg
    rw [hempty.1 f hf n] at hg
    cases hg
  refine Inv.idle rfl _ (recordsOk_snapshot hit hpassed fun _ => 0) (length_map _).ge ?_
  refine ⟨?_, fun n hn => ?_, hpassed, fun r _ n hn => ?_, fun l hl => ?_⟩
  · rw [edits_map, reached_snapshot]
    exact UInt64.le_refl _
  · cases hn
  · cases hn
  · cases hl

variable {ids : List UInt32} {ops : List Op} (hops : Along (exec iterate) Promised (opened iterate ids) ops)
include hops

theorem inv_run : Inv (run iterate ids ops) :=
  foldl_invariant Inv (fun _ op h hpromised => (kept_exec hit h op hpromised).inv) (inv_opened hit ids) hops

/-- A file that is live at some point of a run is remembered ever after. -/
theorem remembered_run {past : List Op} (hpast : past <+: ops) {cf : UInt32}
    (hlive : Live (run iterate ids past) cf n b) : Remembered n b (run iterate ids ops) := by
  obtain ⟨rest, rfl⟩ := hpast
  obtain ⟨hbefore, hafter⟩ := along_append.mp hops
  have hinv := inv_run hit hbefore
  have hboth := foldl_invariant (fun s => Inv s ∧ Remembered n b s)
    (fun s op h hpromised =>
      let hkept := kept_exec hit h.1 op hpromised
      ⟨hkept.inv, hkept.remembered h.2⟩)
    ⟨hinv, remembered_of_live hinv hlive⟩ hafter
  rw [run, foldl_append]
  exact hboth.2

/-- In every run of allocations, logged edits, crashes and recoveries: `NewFileNumber` does not
return the number of a file that is in the set, nor of one that was ever live in the manifest;
and two files that are ever live in the manifest and have the same number are one file. -/
theorem file_numbers_not_reused :
    (∀ earlier later, ops = earlier ++ .newFileNumber :: later →
      ∀ p, (run iterate ids earlier).process = some p →
        (∀ f ∈ p.set.columnFamilies, f.2.files p.set.newFileNumber.1 = none) ∧
        ∀ past, past <+: earlier → ∀ cf b, ¬ Live (run iterate ids past) cf p.set.newFileNumber.1 b) ∧
    ∀ past now, past <+: now → now <+: ops → ∀ cf cf' n b b',
      Live (run iterate ids past) cf n b → Live (run iterate ids now) cf' n b' → b = b' := by
  constructor
  · rintro earlier later rfl p hp
    have hbefore := (along_append.mp hops).1
    have hinv := inv_run hit hbefore
    constructor
    · intro f hf
      rw [Option.eq_none_iff_forall_ne_some]
      intro g hg
      exact UInt64.lt_irrefl _ ((hinv.process p hp).storage f hf _ g hg).2
    · intro past hpast cf b hlive
      exact UInt64.lt_irrefl _ ((remembered_run hit hbefore hpast hlive).lt_next hinv hp)
  · rintro past now hpast ⟨later, rfl⟩ cf cf' n b b' hlive hlive'
    exact (remembered_run hit (along_append.mp hops).1 hpast hlive).unique hlive'

end

/-- File 2 is logged; another thread takes a number while its record is written. -/
def logged : List Op :=
  [.newFileNumber, .beginLogAndApply { addedFiles := [{ fileNumber := 2 }] }, .newFileNumber,
    .endLogAndApply .ok]

def reopenedRun : List Op := logged ++ [.crash 0, .recover [0] true]

theorem reopenedRun_promised : Along (exec byNumber) Promised (opened byNumber [0]) reopenedRun := by
  refine ⟨fun p hp => ?_, fun p hp n hn => ?_, fun p hp => ?_, trivial, trivial, ?_, trivial⟩
  · obtain rfl := Option.some.inj hp
    decide
  · obtain rfl := Option.some.inj hp
    obtain ⟨f, hf, rfl⟩ := hn
    obtain rfl := mem_singleton.mp hf
    decide
  · obtain rfl := Option.some.inj hp
    decide
  · rw [Promised]
    decide

theorem reopenedRun_not_reused : Live (run byNumber [0] logged) 0 2 1 ∧
    ∀ cf b, Live (run byNumber [0] reopenedRun) cf 2 b → 1 = b := by
  have hlive : Live (run byNumber [0] logged) 0 2 1 :=
    ⟨_, .tail _ (.tail _ (.head _)), rfl, ⟨_, mem_singleton_self _, rfl⟩, rfl, by decide⟩
  exact ⟨hlive, fun cf b =>
    (file_numbers_not_reused iterates_byNumber reopenedRun_promised).2 logged reopenedRun
    (prefix_append _ _) (prefix_refl _) 0 cf 2 1 b hlive⟩

end TitanGC.Manifest.FileNumbers
