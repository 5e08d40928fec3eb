import Mathlib.Data.Finset.SDiff
import TitanGC.Format.Coding

/-!
# The blob file manager

`TitanDBImpl::FileManager`: a new file is on disk and pending until it is finished, which
registers it in the version, or deleted. A batch that cannot be synced is given up
before the pending outputs are erased.
-/

namespace TitanGC.Storage.FileManager

open Format.Coding List

/-- What the file system and the manifest return: `Sync` and `Close` of each file, the
directory's `Fsync`, `LogAndApply` for a batch, and `DeleteFile`. -/
structure Io where
  sync : UInt64 → Option Status
  close : UInt64 → Option Status
  fsync : List UInt64 → Option Status
  logAndApply : List UInt64 → Option Status
  deleteFile : UInt64 → Option Status

/-- The blob files on disk, `pending_outputs_`, and the files of the version. -/
structure DbFiles where
  onDisk : Finset UInt64 := ∅
  pendingOutputs : Finset UInt64 := ∅
  registered : Finset UInt64 := ∅

def newFile (db : DbFiles) (number : UInt64) : DbFiles :=
  { db with
    onDisk := insert number db.onDisk
    pendingOutputs := insert number db.pendingOutputs }

/-- The files are synced and closed one by one, up to the first that fails. -/
def syncFiles (io : Io) : List UInt64 → Option Status
  | [] => none
  | number :: rest =>
    match (io.sync number).or (io.close number) with
    | some e => some e
    | none => syncFiles io rest

/-- What stops a batch before `LogAndApply`. -/
def syncStatus (io : Io) (numbers : List UInt64) : Option Status :=
  (syncFiles io numbers).or (io.fsync numbers)

/-- The edit is applied if `LogAndApply` returns OK; the pending outputs are erased in
either case. -/
def batchFinishFiles (io : Io) (db : DbFiles) (numbers : List UInt64) : Option Status × DbFiles :=
  match syncStatus io numbers with
  | some e => (some e, db)
  | none =>
    let s := io.logAndApply numbers
    (s, { db with
      registered := if s.isNone then db.registered ∪ numbers.toFinset else db.registered
      pendingOutputs := db.pendingOutputs \ numbers.toFinset })

/-- The status is that of the last deletion. -/
def batchDeleteFiles (io : Io) (db : DbFiles) (numbers : List UInt64) : Option Status × DbFiles :=
  ((numbers.map io.deleteFile).getLast?.getD none,
    { db with
      onDisk := db.onDisk \ (numbers.filter fun n => (io.deleteFile n).isNone).toFinset
      pendingOutputs := db.pendingOutputs \ numbers.toFinset })

def finishStatus (io : Io) (numbers : List UInt64) : Option Status :=
  (syncStatus io numbers).or (io.logAndApply numbers)

variable (io : Io)

theorem batchFinishFiles_registered (db : DbFiles) (numbers : List UInt64) :
    (batchFinishFiles io db numbers).2.registered =
      if (finishStatus io numbers).isNone then db.registered ∪ numbers.toFinset else db.registered := by
  rw [batchFinishFiles, finishStatus]
  cases syncStatus io numbers <;> rfl

/-! ## Requests -/

/-- `BatchFinishFiles` and `BatchDeleteFiles`. -/
inductive Release where
  | finish (numbers : List UInt64)
  | delete (numbers : List UInt64)
  deriving Repr, DecidableEq

def Release.numbers : Release → List UInt64
  | .finish numbers => numbers
  | .delete numbers => numbers

def Release.apply (io : Io) (db : DbFiles) : Release → DbFiles
  | .finish numbers => (batchFinishFiles io db numbers).2
  | .delete numbers => (batchDeleteFiles io db numbers).2

/-- The file is registered, or deleted. -/
def Release.SucceedsFor (io : Io) (n : UInt64) : Release → Prop
  | .finish numbers => finishStatus io numbers = none
  | .delete _ => io.deleteFile n = none

def Release.Succeeds (io : Io) (r : Release) : Prop := ∀ n ∈ r.numbers, r.SucceedsFor io n

/-- What builders and jobs ask for. A `NewFile` that fails makes no file. -/
inductive Request where
  | newFile (number : UInt64)
  | release (r : Release)
  deriving Repr, DecidableEq

def exec (io : Io) (db : DbFiles) : Request → DbFiles
  | .newFile number => newFile db number
  | .release r => r.apply io db

def Request.mentions (n : UInt64) : Request → Bool
  | .newFile number => number == n
  | .release r => r.numbers.contains n

def granted (newFile : Nat → Except Status UInt64) (count : Nat) : List UInt64 :=
  (List.range count).filterMap fun k => (newFile k).toOption

theorem granted_succ (newFile : Nat → Except Status UInt64) (count : Nat) :
    granted newFile (count + 1) = granted newFile count ++ (newFile count).toOption.toList := by
  rw [granted, range_succ, filterMap_append, filterMap_cons, filterMap_nil]
  cases (newFile count).toOption <;> rfl

/-- What a builder or job has done when it is destroyed: the handles it has got, and then
the requests that have taken some of them. -/
structure Ended where
  obtained : List UInt64 := []
  releases : List Release := []
  deriving Repr, DecidableEq

def Ended.released (e : Ended) : List UInt64 := e.releases.flatMap Release.numbers

/-- Every handle has been passed on exactly once. -/
def Ended.Follows (e : Ended) : Prop := e.released.Perm e.obtained

def Ended.trace (e : Ended) : List Request := e.obtained.map .newFile ++ e.releases.map .release

/-! ## One file -/

/-- What is known of a file: whether it is on disk, pending, and in the version. -/
def view (db : DbFiles) (n : UInt64) : Bool × Bool × Bool :=
  (decide (n ∈ db.onDisk), decide (n ∈ db.pendingOutputs), decide (n ∈ db.registered))

/-- A file is pending, or on disk without being in the version. -/
def Left (db : DbFiles) (n : UInt64) : Prop :=
  n ∈ db.pendingOutputs ∨ (n ∈ db.onDisk ∧ n ∉ db.registered)

variable {db db' : DbFiles} {n : UInt64}

theorem left_congr (h : view db n = view db' n) : Left db n ↔ Left db' n := by
  simp only [view, Prod.mk.injEq, decide_eq_decide] at h
  rw [Left, Left, h.1, h.2.1, h.2.2]

/-- A request does to a file what it does to what is known of it. -/
theorem exec_view_congr (h : view db n = view db' n) (r : Request) :
    view (exec io db r) n = view (exec io db' r) n := by
  simp only [view, Prod.mk.injEq, decide_eq_decide] at h ⊢
  cases r with
  | newFile number => simp [exec, newFile, h]
  | release r =>
    cases r with
    | delete numbers => simp [exec, Release.apply, batchDeleteFiles, h]
    | finish numbers =>
      simp only [exec, Release.apply, batchFinishFiles]
      cases syncStatus io numbers with
      | some e => exact h
      | none => cases io.logAndApply numbers <;> simp [h]

theorem exec_view_other (db : DbFiles) {r : Request} (h : r.mentions n = false) :
    view (exec io db r) n = view db n := by
  simp only [view, Prod.mk.injEq, decide_eq_decide]
  cases r with
  | newFile number =>
    have hne : ¬ n = number := fun heq => by simp [Request.mentions, heq] at h
    simp [exec, newFile, hne]
  | release r =>
    have hnot : n ∉ r.numbers := by simpa [Request.mentions] using h
    cases r with
    | delete numbers =>
      rw [Release.numbers] at hnot
      simp [exec, Release.apply, batchDeleteFiles, hnot]
    | finish numbers =>
      rw [Release.numbers] at hnot
      simp only [exec, Release.apply, batchFinishFiles]
      cases syncStatus io numbers with
      | some e => simp
      | none => cases io.logAndApply numbers <;> simp [hnot]

/-- Only the requests that mention a file matter to it. -/
theorem run_view (h : view db n = view db' n) (rs : List Request) :
    view (rs.foldl (exec io) db) n = view ((rs.filter (·.mentions n)).foldl (exec io) db') n := by
  induction rs generalizing db db' with
  | nil => exact h
  | cons r rs ih =>
    rw [filter_cons]
    split
    · exact ih (exec_view_congr io h r)
    · rename_i hmentions
      exact ih ((exec_view_other io db (Bool.eq_false_iff.mpr hmentions)).trans h)

/-- A new file is left behind exactly if the request that takes its handle does not
succeed for it. -/
theorem release_left_iff {r : Release} (h : n ∈ r.numbers) :
    ¬ Left (r.apply io (newFile {} n)) n ↔ r.SucceedsFor io n := by
  cases r with
  | delete numbers =>
    have hmem : n ∈ numbers := h
    simp [Left, Release.apply, batchDeleteFiles, newFile, hmem, Release.SucceedsFor]
  | finish numbers =>
    have hmem : n ∈ numbers := h
    simp only [Release.apply, batchFinishFiles, Release.SucceedsFor, finishStatus]
    cases syncStatus io numbers with
    | some e => simp [Left, newFile]
    | none => cases io.logAndApply numbers <;> simp [Left, newFile, hmem]

/-! ## One builder or job -/

theorem filter_length_le (n : UInt64) (rs : List Release) :
    (rs.filter fun r => r.numbers.contains n).length ≤ (rs.flatMap Release.numbers).count n := by
  induction rs with
  | nil => exact Nat.zero_le _
  | cons r rs ih =>
    rw [flatMap_cons, count_append, filter_cons]
    split
    · rename_i hmem
      have hpos : 0 < r.numbers.count n := count_pos_iff.mpr (contains_iff_mem.mp hmem)
      rw [length_cons]
      omega
    · omega

theorem filter_newFile {ns : List UInt64} (hnodup : ns.Nodup) (hn : n ∈ ns) :
    (ns.map Request.newFile).filter (·.mentions n) = [.newFile n] := by
  rw [filter_map]
  have hone : ns.filter (fun m => m == n) = [n] := by
    rw [filter_beq, count_eq_one_of_mem hnodup hn]
    rfl
  exact congrArg (List.map Request.newFile) hone

/-- A handle is got first and then passed on once. -/
theorem Ended.Follows.mentions {e : Ended} (h : e.Follows) (hnodup : e.obtained.Nodup) {r : Release}
    (hr : r ∈ e.releases) (hn : n ∈ r.numbers) :
    e.trace.filter (·.mentions n) = [.newFile n, .release r] := by
  have hreleased : n ∈ e.released := mem_flatMap.mpr ⟨r, hr, hn⟩
  have hobtained : n ∈ e.obtained := h.mem_iff.mp hreleased
  have hone : e.released.count n = 1 := by
    rw [h.count_eq]
    exact count_eq_one_of_mem hnodup hobtained
  have hle := filter_length_le n e.releases
  have hmem : r ∈ e.releases.filter fun r => r.numbers.contains n :=
    mem_filter.mpr ⟨hr, contains_iff_mem.mpr hn⟩
  have hfilter : e.releases.filter (fun r => r.numbers.contains n) = [r] := by
    obtain ⟨x, hx⟩ := length_eq_one_iff.mp
      ((hle.trans hone.le).antisymm (length_pos_of_mem hmem))
    rw [hx, mem_singleton] at hmem
    rw [hx, hmem]
  rw [Ended.trace, filter_append, filter_newFile hnodup hobtained, filter_map]
  exact congrArg (fun rs => [Request.newFile n] ++ rs.map Request.release) hfilter

/-! ## All of them -/

/-- The requests of any number of builders and jobs, interleaved in any way. The numbers of
new files are new. -/
structure History {ι : Type*} [DecidableEq ι] (ended : ι → Ended) where
  events : List (ι × Request)
  inOrder : ∀ i, (events.filter fun e => e.1 = i).map Prod.snd = (ended i).trace
  nodup : ∀ i, (ended i).obtained.Nodup
  distinct : ∀ i j n, n ∈ (ended i).obtained → n ∈ (ended j).obtained → i = j

variable {ι : Type*} [DecidableEq ι] {ended : ι → Ended}

def History.final (H : History ended) (io : Io) : DbFiles :=
  (H.events.map Prod.snd).foldl (exec io) {}

/-- No file is pending, and none on disk that is not in the version. -/
def NothingLeft (db : DbFiles) : Prop := ∀ n, ¬ Left db n

theorem Ended.Follows.mem_obtained {e : Ended} (h : e.Follows) {r : Request} (hr : r ∈ e.trace)
    (hn : r.mentions n = true) : n ∈ e.obtained := by
  rcases mem_append.mp hr with hnew | hrelease
  · obtain ⟨m, hm, rfl⟩ := mem_map.mp hnew
    rw [Request.mentions, beq_iff_eq] at hn
    exact hn ▸ hm
  · obtain ⟨r, hr', rfl⟩ := mem_map.mp hrelease
    exact h.mem_iff.mp (mem_flatMap.mpr ⟨r, hr', contains_iff_mem.mp hn⟩)

/-- The requests that mention a file are those of the builder or job that made it. -/
theorem History.mentions (H : History ended) (hfollows : ∀ i, (ended i).Follows) {i : ι}
    (hn : n ∈ (ended i).obtained) :
    (H.events.map Prod.snd).filter (·.mentions n) = (ended i).trace.filter (·.mentions n) := by
  rw [← H.inOrder i, filter_map, filter_map, filter_filter]
  refine congrArg (List.map Prod.snd) (filter_congr fun e he => ?_)
  rw [Function.comp_apply, Bool.eq_iff_iff, Bool.and_eq_true, decide_eq_true_iff]
  refine ⟨fun hmentions => ⟨hmentions, ?_⟩, fun h => h.1⟩
  have htrace : e.2 ∈ (ended e.1).trace := by
    rw [← H.inOrder e.1]
    exact mem_map.mpr ⟨e, mem_filter.mpr ⟨he, decide_eq_true rfl⟩, rfl⟩
  exact H.distinct e.1 i n ((hfollows e.1).mem_obtained htrace hmentions) hn

/-- Where every handle is passed on once, nothing is left exactly if every such request
succeeds. -/
theorem History.nothingLeft_iff (H : History ended) (hfollows : ∀ i, (ended i).Follows) (io : Io) :
    NothingLeft (H.final io) ↔ ∀ i, ∀ r ∈ (ended i).releases, r.Succeeds io := by
  have hfile : ∀ i, ∀ r ∈ (ended i).releases, ∀ n ∈ r.numbers,
      (¬ Left (H.final io) n ↔ r.SucceedsFor io n) := by
    intro i r hr n hn
    have hobtained : n ∈ (ended i).obtained :=
      (hfollows i).mem_iff.mp (mem_flatMap.mpr ⟨r, hr, hn⟩)
    have hview := run_view io (show view {} n = view {} n from rfl) (H.events.map Prod.snd)
    rw [H.mentions hfollows hobtained, (hfollows i).mentions (H.nodup i) hr hn] at hview
    rw [← release_left_iff io hn]
    exact not_congr (left_congr hview)
  constructor
  · intro h i r hr n hn
    exact (hfile i r hr n hn).mp (h n)
  · intro h n
    by_cases hmade : ∃ i, n ∈ (ended i).obtained
    · obtain ⟨i, hi⟩ := hmade
      obtain ⟨r, hr, hn⟩ := mem_flatMap.mp ((hfollows i).mem_iff.mpr hi)
      exact (hfile i r hr n hn).mpr (h i r hr n hn)
    · -- no request mentions a file that nobody has made
      have hnone : (H.events.map Prod.snd).filter (·.mentions n) = [] := by
        rw [filter_eq_nil_iff]
        intro r hr hmentions
        obtain ⟨e, he, rfl⟩ := mem_map.mp hr
        have htrace : e.2 ∈ (ended e.1).trace := by
          rw [← H.inOrder e.1]
          exact mem_map.mpr ⟨e, mem_filter.mpr ⟨he, decide_eq_true rfl⟩, rfl⟩
        exact hmade ⟨e.1, (hfollows e.1).mem_obtained htrace hmentions⟩
      have hview := run_view io (show view {} n = view {} n from rfl) (H.events.map Prod.snd)
      rw [hnone] at hview
      rw [History.final, left_congr hview]
      simp [Left]

end TitanGC.Storage.FileManager
