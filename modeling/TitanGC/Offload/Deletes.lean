import TitanGC.Offload.DeleteSystem
import TitanGC.Offload.LastWrite

/-!
# Deleted keys in offload mode

A delete puts a tombstone on top of the history of its key, and merges keep it
there. A write-back puts an index above it: from then on reads find the index,
and `Preprocess` decodes the tombstone as an index of file 0. When no write-back
goes to a deleted key, the newest version of a deleted key is its tombstone and no
write-back ever lies right above a tombstone, so both effects are excluded.
-/

namespace TitanGC.Offload.Deletes

open Function (update)
open Relation (ReflTransGen)
open Lib.Runs List Format.BlobFormat
open Compaction.Iterator (preprocess)
open Storage.BlobFiles Tombstones DeleteSystem

variable {K : Type}

/-! ## Tombstones in a history -/

/-- Two adjacent versions, the newer one first: not a write-back above a tombstone. -/
def Apart (a b : Versioned) : Prop := ¬ (a.2.IsWriteBack ∧ b.2 = .tombstone)

def TombstoneOnTop (es : List Versioned) : Prop := ∃ n rest, es = (n, .tombstone) :: rest

variable {e a : Versioned}

theorem tombstoneOnTop_cons {es : List Versioned} : TombstoneOnTop (e :: es) ↔ e.2 = .tombstone := by
  constructor
  · intro h
    obtain ⟨n, rest, h⟩ := h
    rw [(List.cons.inj h).1]
  · intro h
    exact ⟨e.1, es, by rw [← h]⟩

theorem absorb_not_tombstone (b : Versioned) (h : a.2 ≠ .tombstone) : (absorb a b).2 ≠ .tombstone := by
  obtain ⟨m, a⟩ := a
  obtain ⟨n, b⟩ := b
  cases a with
  | tombstone => exact absurd rfl h
  | value v => simp [absorb]
  | index p => cases b <;> simp only [absorb] <;> (try split) <;> (try split) <;> simp

variable (es : List Versioned)

theorem foldl_absorb_not_tombstone (h : a.2 ≠ .tombstone) : (es.foldl absorb a).2 ≠ .tombstone := by
  induction es generalizing a with
  | nil => exact h
  | cons e es ih => exact ih (absorb_not_tombstone e h)

/-- A merge leaves a tombstone exactly if the newest version of the run is one. -/
theorem merge_tombstone_iff {run : List Versioned} (h : merge run = some e) :
    e.2 = .tombstone ↔ TombstoneOnTop run := by
  cases run with
  | nil => cases h
  | cons a run =>
    obtain rfl := Option.some.inj h
    rw [tombstoneOnTop_cons]
    constructor
    · intro ht
      by_contra hne
      exact foldl_absorb_not_tombstone run hne ht
    · intro ht
      obtain ⟨n, a⟩ := a
      obtain rfl : a = .tombstone := ht
      rw [foldl_absorb_tombstone]

/-- Absorbing anything ends a write-back: what is left has no old location. -/
theorem absorb_not_writeBack (a b : Versioned) : ¬ (absorb a b).2.IsWriteBack := by
  obtain ⟨m, a⟩ := a
  obtain ⟨n, b⟩ := b
  cases a with
  | value v => exact id
  | tombstone => exact id
  | index p =>
    by_cases hp : p.oldFileNumber = 0
    · cases b with
      | value v => exact id
      | index c => simp [absorb, hp, Stored.IsWriteBack]
      | tombstone => simp [absorb, hp, Stored.IsWriteBack]
    · cases b with
      | value v => exact id
      | index c => simp [absorb_writeBack_index hp, Stored.IsWriteBack]
      | tombstone => simp [absorb_writeBack_tombstone hp, Stored.IsWriteBack]

theorem foldl_absorb_not_writeBack (h : ¬ a.2.IsWriteBack) :
    ¬ (es.foldl absorb a).2.IsWriteBack := by
  induction es generalizing a with
  | nil => exact h
  | cons e es ih => exact ih (absorb_not_writeBack a e)

theorem merge_writeBack {run : List Versioned} (h : merge run = some e) (hw : e.2.IsWriteBack) :
    run = [e] := by
  cases run with
  | nil => cases h
  | cons a run =>
    obtain rfl := Option.some.inj h
    cases run with
    | nil => rfl
    | cons b run =>
      rw [foldl_cons] at hw
      exact absurd hw (foldl_absorb_not_writeBack run (absorb_not_writeBack a b))

/-- Where no write-back lies above a tombstone, the index that a merge leaves is at
a location that an index of the run has. -/
theorem merge_index {run : List Versioned} {n : Nat} {b : BlobIndex}
    (h : merge run = some (n, .index b)) (hrun : run.IsChain Apart) :
    ∃ c ∈ run, c.2.ptr? = some b.ptr := by
  have hplain : ∀ (m : Nat) {p : BlobIndex} (es : List Versioned), p.oldFileNumber = 0 →
      es.foldl absorb (m, .index p) = (n, .index b) → p.ptr = b.ptr := by
    intro m p es hp heq
    rw [foldl_absorb_plain hp] at heq
    cases hv : firstValue es with
    | none =>
      rw [hv] at heq
      obtain ⟨-, heq⟩ := Prod.mk.inj heq
      rw [Stored.index.inj heq]
    | some mv =>
      rw [hv] at heq
      cases heq
  cases run with
  | nil => cases h
  | cons a run =>
    have heq := Option.some.inj h
    obtain ⟨m, a⟩ := a
    cases a with
    | value v =>
      rw [foldl_absorb_value] at heq
      cases heq
    | tombstone =>
      rw [foldl_absorb_tombstone] at heq
      cases heq
    | index p =>
      by_cases hp : p.oldFileNumber = 0
      · have hptr := hplain m run hp heq
        exact ⟨_, mem_cons_self, by rw [← hptr]; rfl⟩
      · cases run with
        | nil =>
          obtain ⟨-, hpb⟩ := Prod.mk.inj heq
          exact ⟨_, mem_cons_self, by rw [← Stored.index.inj hpb]; rfl⟩
        | cons c run =>
          obtain ⟨l, c⟩ := c
          rw [foldl_cons] at heq
          cases c with
          | value v =>
            have habs : absorb (m, .index p) (l, .value v) = (l, .value v) := rfl
            rw [habs, foldl_absorb_value] at heq
            cases heq
          | index c =>
            rw [absorb_writeBack_index hp] at heq
            have hptr := hplain m run rfl heq
            rw [BlobPtr.ptr_plain] at hptr
            unfold settled at hptr
            split at hptr
            · exact ⟨_, mem_cons_self, by rw [← hptr]; rfl⟩
            · exact ⟨_, mem_cons_of_mem _ mem_cons_self, by rw [← hptr]; rfl⟩
          | tombstone =>
            have hapart := (isChain_cons_cons.mp hrun).1
            exact absurd ⟨hp, rfl⟩ hapart

/-! ## The invariant -/

section

variable {minBlobSize : Nat} {new : Files K} {k : K} {bottom : Prop}
  {newer run older : List Versioned} {out : Option Versioned}

/-- What a built version has in common with the run it replaces. -/
theorem built_cases (hout : Builds minBlobSize new k bottom (merge run) out) :
    (run = [] ∧ out = none) ∨
      ∃ e, out = some e ∧ run ≠ [] ∧ (e.2 = .tombstone ↔ TombstoneOnTop run) ∧
        (e.2.IsWriteBack → ∃ m, run = [(m, e.2)]) := by
  generalize hm : merge run = kept at hout
  cases hout with
  | empty =>
    cases run with
    | nil => exact .inl ⟨rfl, rfl⟩
    | cons a run => cases hm
  | entry n n' e e' hn he =>
    refine .inr ⟨(n', e'), rfl, ?_, ?_, ?_⟩
    · intro hnil
      rw [hnil] at hm
      cases hm
    · rw [← merge_tombstone_iff hm]
      cases he <;> simp
    · intro hw
      cases he with
      | inline v h => exact hw.elim
      | separated v p h hp => exact absurd rfl hw
      | index b => exact ⟨n, merge_writeBack hm hw⟩
      | tombstone => exact hw.elim

theorem tombstoneOnTop_append {es fs : List Versioned} (h : es ≠ []) :
    TombstoneOnTop (es ++ fs) ↔ TombstoneOnTop es := by
  cases es with
  | nil => exact absurd rfl h
  | cons e es => rw [cons_append, tombstoneOnTop_cons, tombstoneOnTop_cons]

theorem tombstoneOnTop_merged (hout : Builds minBlobSize new k bottom (merge run) out) :
    TombstoneOnTop (newer ++ (out.toList ++ older)) ↔ TombstoneOnTop (newer ++ (run ++ older)) := by
  rcases built_cases hout with ⟨rfl, rfl⟩ | ⟨e, rfl, hne, htop, -⟩
  · rfl
  · cases newer with
    | nil =>
      show TombstoneOnTop (e :: older) ↔ TombstoneOnTop (run ++ older)
      rw [tombstoneOnTop_append hne, tombstoneOnTop_cons, htop]
    | cons a newer => rw [cons_append, cons_append, tombstoneOnTop_cons, tombstoneOnTop_cons]

theorem apart_merged (hout : Builds minBlobSize new k bottom (merge run) out)
    (h : (newer ++ (run ++ older)).IsChain Apart) :
    (newer ++ (out.toList ++ older)).IsChain Apart := by
  rcases built_cases hout with ⟨rfl, rfl⟩ | ⟨e, rfl, hne, htop, hback⟩
  · exact h
  · obtain ⟨hnewer, hlow, hcross⟩ := isChain_append.mp h
    obtain ⟨-, holder, hjoin⟩ := isChain_append.mp hlow
    refine isChain_append.mpr ⟨hnewer, ?_, ?_⟩
    · refine isChain_append.mpr ⟨isChain_singleton e, holder, ?_⟩
      intro x hx y hy hbad
      obtain rfl : e = x := by simpa using hx
      obtain ⟨m, hrun⟩ := hback hbad.1
      exact hjoin (m, e.2) (by simp [hrun]) y hy hbad
    · intro x hx y hy hbad
      obtain rfl : e = y := by simpa using hy
      obtain ⟨n, rest, hrun⟩ := htop.mp hbad.2
      exact hcross x hx (n, .tombstone) (by simp [hrun]) ⟨hbad.1, rfl⟩

end

/-- A key is deleted exactly while its newest version is a tombstone, and no
write-back lies right above a tombstone. -/
structure Inv (s : State K) : Prop where
  ordered : Ordered s
  deleted : ∀ k, TombstoneOnTop (s.history k) ↔ s.lastOp k = some .delete
  apart : ∀ k, (s.history k).IsChain Apart

/-- The steps that keep deletes: no write-back to a key whose latest user operation
is a delete. -/
def Careful (s : State K) : Action K → Prop
  | .writeBack k _ => s.lastOp k ≠ some .delete
  | _ => True

theorem inv_init : Inv (init : State K) where
  ordered := ordered_init
  deleted k := by
    constructor
    · intro h
      obtain ⟨n, rest, h⟩ := h
      cases h
    · intro h
      cases h
  apart k := isChain_nil

/-- A new version that is not a write-back above a tombstone keeps the chain. -/
theorem apart_cons {es : List Versioned} (hes : es.IsChain Apart)
    (h : e.2.IsWriteBack → ¬ TombstoneOnTop es) : (e :: es).IsChain Apart := by
  refine isChain_cons.mpr ⟨?_, hes⟩
  intro y hy hbad
  cases es with
  | nil => cases hy
  | cons x es =>
    obtain rfl : x = y := by simpa using hy
    exact h hbad.1 (tombstoneOnTop_cons.mpr hbad.2)

variable [DecidableEq K] {minBlobSize : Nat}

theorem inv_step {s t : State K} {a : Action K} (hs : Inv s) (h : Step minBlobSize s a t)
    (hc : Careful s a) : Inv t := by
  refine ⟨ordered_step hs.ordered h, ?_, ?_⟩
  · intro k
    cases step_effect h k with
    | same hh ho hl => rw [hh, ho, hs.deleted]
    | put v hh ho hl => simp [hh, ho, tombstoneOnTop_cons]
    | delete hh ho hl => simp [hh, ho, tombstoneOnTop_cons]
    | writeBack b ha hh ho hl =>
      subst ha
      have hnot : s.lastOp k ≠ some .delete := hc
      simp [hh, ho, tombstoneOnTop_cons, hnot]
    | merged new newer run older out hsplit hh hout ho hl =>
      rw [hh, ho, tombstoneOnTop_merged hout, ← hsplit, hs.deleted]
  · intro k
    cases step_effect h k with
    | same hh ho hl => exact hh ▸ hs.apart k
    | put v hh ho hl => exact hh ▸ apart_cons (hs.apart k) False.elim
    | delete hh ho hl => exact hh ▸ apart_cons (hs.apart k) False.elim
    | writeBack b ha hh ho hl =>
      subst ha
      have hnot : s.lastOp k ≠ some .delete := hc
      exact hh ▸ apart_cons (hs.apart k) fun _ htop => hnot ((hs.deleted k).mp htop)
    | merged new newer run older out hsplit hh hout ho hl =>
      exact hh ▸ apart_merged hout (hsplit ▸ hs.apart k)

def CarefulStep (minBlobSize : Nat) (s t : State K) : Prop :=
  ∃ a, Step minBlobSize s a t ∧ Careful s a

variable {s : State K}

theorem inv_of_run (h : ReflTransGen (CarefulStep minBlobSize) init s) : Inv s := by
  refine run_invariant Inv ?_ h inv_init
  intro t u ht hstep
  obtain ⟨a, hstep, hcare⟩ := hstep
  exact inv_step ht hstep hcare

/-! ## Deleted keys -/

omit [DecidableEq K] in
theorem get_of_tombstoneOnTop (hs : Ordered s) {k : K} (h : TombstoneOnTop (s.history k)) :
    s.get k = .error notFound := by
  have hmem : visible s.lastSequence (s.mem k) = (s.mem k).map (·.2) :=
    visible_of_bounded fun e he => hs.bounded k e (by simp [State.history, he])
  have hrest : visible s.lastSequence ((s.imm.map (· k)).flatten ++ s.ssts k)
      = ((s.imm.map (· k)).flatten ++ s.ssts k).map (·.2) :=
    visible_of_bounded fun e he => hs.bounded k e (mem_append_right _ he)
  obtain ⟨n, rest, htop⟩ := h
  rw [State.get, getAt_eq, hmem, hrest]
  rw [State.history] at htop
  cases hm : s.mem k with
  | nil =>
    rw [hm, nil_append] at htop
    rw [htop]
    rfl
  | cons e es =>
    rw [hm, cons_append] at htop
    rw [(List.cons.inj htop).1]
    rfl

def Input (s : State K) (k : K) (run : List Versioned) : Prop :=
  (∃ keep, run = flushRun s keep k) ∨ ∃ newer older, s.ssts k = newer ++ (run ++ older)

omit [DecidableEq K] in
theorem infix_of_input {k : K} {run : List Versioned} (h : Input s k run) :
    ∃ newer older, s.history k = newer ++ (run ++ older) := by
  rcases h with ⟨keep, rfl⟩ | ⟨newer, older, hssts⟩
  · exact ⟨_, _, history_flush s keep k⟩
  · exact ⟨s.mem k ++ ((s.imm.map (· k)).flatten ++ newer), older, by simp [State.history, hssts]⟩

/-- In every state that careful steps reach, a key whose latest user operation is a
delete is not found, and every index that `Preprocess` emits for it is at a location
that an index of its input has. -/
theorem deleted_stay_deleted {s : State K}
    (hrun : ReflTransGen (CarefulStep minBlobSize) init s) {k : K}
    (hk : s.lastOp k = some .delete) :
    s.get k = .error notFound ∧
      ∀ run, Input s k run → ∀ e ∈ preprocess (run.map (kv k)), e.key.type = .blobIndex →
        ∃ c ∈ run, ∃ b rest, BlobIndex.decodeFrom e.value = .ok (b, rest) ∧
          c.2.ptr? = some b.ptr := by
  have hs := inv_of_run hrun
  refine ⟨get_of_tombstoneOnTop hs.ordered ((hs.deleted k).mpr hk), ?_⟩
  intro run hinput e he htype
  obtain ⟨newer, older, hsplit⟩ := infix_of_input hinput
  have hchain : run.IsChain Apart := by
    have h := hs.apart k
    rw [hsplit] at h
    exact (isChain_append.mp (isChain_append.mp h).2.1).1
  rw [preprocess_kv] at he
  obtain ⟨⟨n, e⟩, hmerge, rfl⟩ := mem_map.mp he
  cases e with
  | value v => cases htype
  | tombstone => cases htype
  | index b =>
    obtain ⟨c, hc, hptr⟩ := merge_index (Option.mem_toList.mp hmerge) hchain
    refine ⟨c, hc, b.normal, [], BlobIndex.decodeFrom_encodeTo b, ?_⟩
    rw [BlobIndex.ptr_normal, hptr]

/-! ## One job on one key -/

open LastWrite (oneRecord fresh_oneRecord moved)

def flushedVersion (k : Nat) : Option Versioned :=
  if k = 0 then some (1, .index (BlobPtr.plain ⟨1, ⟨12, 14, 0⟩⟩)) else none

def copied : State Nat :=
  { (init : State Nat) with
      ssts := fun k => (flushedVersion k).toList ++ []
      lastSequence := 1
      files := add (add (fun _ => none) (oneRecord 1)) (oneRecord 2)
      jobs := update (update (fun _ => none) 0 (some ⟨[1], .copying fun _ _ => false⟩)) 0
        (some ⟨[1], .writing 2 [(0, moved)]⟩)
      lastOp := update (fun _ => none) 0 (some (.put [1, 1])) }

theorem builds_flushedVersion (k : Nat) :
    Builds 1 (oneRecord 1) k False
      (merge (update (fun _ : Nat => ([] : List Versioned)) 0 [(1, .value [1, 1])] k))
      (flushedVersion k) := by
  by_cases hk : k = 0
  · subst hk
    exact .entry 1 1 _ _ (.inl rfl)
      (.separated [1, 1] ⟨1, ⟨12, 14, 0⟩⟩ (by decide) ⟨_, rfl, mem_cons_self⟩)
  · simp only [flushedVersion, hk, ne_eq, not_false_eq_true, Function.update_of_ne, ↓reduceIte]
    exact .empty

theorem run_copied : ReflTransGen (CarefulStep 1) init copied := by
  let written : State Nat := { (init : State Nat) with
    mem := update (fun _ => []) 0 [(1, .value [1, 1])]
    lastSequence := 1
    lastOp := update (fun _ => none) 0 (some (.put [1, 1])) }
  let switched : State Nat := { written with mem := fun _ => [], imm := [written.mem] }
  let flushed : State Nat := { written with
    mem := fun _ => []
    ssts := fun k => (flushedVersion k).toList ++ []
    files := add (fun _ => none) (oneRecord 1) }
  let started : State Nat := { flushed with
    jobs := update (fun _ => none) 0 (some ⟨[1], .copying fun _ _ => false⟩) }
  have hput : CarefulStep 1 init written := ⟨_, .put _ 0 [1, 1], trivial⟩
  have hswitch : CarefulStep 1 written switched := ⟨_, .switchMem _, trivial⟩
  have hflush : CarefulStep 1 switched flushed := by
    refine ⟨_, .flush _ 0 (oneRecord 1) flushedVersion (fresh_oneRecord rfl (by decide)) ?_, trivial⟩
    intro k
    simpa [flushRun, switched, written] using builds_flushedVersion k
  have hstart : CarefulStep 1 flushed started := by
    refine ⟨_, .startGc _ 0 [1] (fun _ _ => false) rfl ?_, trivial⟩
    intro f hf
    obtain rfl := mem_singleton.mp hf
    exact ⟨by decide, rfl, by simp [flushed, written, init]⟩
  have hcopy : CarefulStep 1 started copied :=
    ⟨_, .copyGc started 0 [1] (fun _ _ => false) 2 _ rfl (fresh_oneRecord rfl (by decide)) rfl, trivial⟩
  exact ((((ReflTransGen.single hput).tail hswitch).tail hflush).tail hstart).tail hcopy

def deletedAfterCopy : State Nat :=
  { copied.push 0 .tombstone with lastOp := update copied.lastOp 0 (some .delete) }

theorem run_deletedAfterCopy : ReflTransGen (CarefulStep 1) init deletedAfterCopy :=
  run_copied.tail ⟨_, .delete _ 0, trivial⟩

/-- The key is deleted while a job holds a copy of its record. -/
theorem deleted_stay_deleted_afterCopy :
    deletedAfterCopy.lastOp 0 = some .delete ∧ deletedAfterCopy.get 0 = .error notFound :=
  ⟨rfl, (deleted_stay_deleted run_deletedAfterCopy rfl).1⟩

/-- The job then writes its index back above the tombstone. Once the memtable is
switched the deleted key is read again, and its flush emits an index of file 0. -/
theorem write_back_revives :
    ∃ s : State Nat, ReflTransGen (SomeStep 1) init s ∧ s.lastOp 0 = some .delete ∧
      s.get 0 = .ok [1, 1] ∧ Input s 0 [(3, .index moved), (2, .tombstone)] ∧
      preprocess ([(3, .index moved), (2, .tombstone)].map (kv 0))
        = [kv 0 (3, .index (BlobPtr.plain {}))] := by
  have hdeleted : ReflTransGen (SomeStep 1) init deletedAfterCopy := by
    refine ReflTransGen.mono ?_ _ _ run_deletedAfterCopy
    intro s t h
    obtain ⟨a, h, -⟩ := h
    exact ⟨a, h⟩
  let back : State Nat := { deletedAfterCopy.push 0 (.index moved) with
    jobs := update deletedAfterCopy.jobs 0 (some ⟨[1], .writing 2 []⟩) }
  let switched : State Nat := { back with mem := fun _ => [], imm := [back.mem] }
  have hback : SomeStep 1 deletedAfterCopy back :=
    ⟨_, .writeBack deletedAfterCopy 0 [1] 2 0 moved [] rfl⟩
  have hswitch : SomeStep 1 back switched := ⟨_, .switchMem _⟩
  refine ⟨switched, (hdeleted.tail hback).tail hswitch, rfl, ?_, .inl ⟨0, rfl⟩, ?_⟩
  · rw [State.get, getAt_eq]
    rfl
  · rw [preprocess_kv]
    rfl

end TitanGC.Offload.Deletes
