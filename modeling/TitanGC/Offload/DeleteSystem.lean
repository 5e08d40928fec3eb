import TitanGC.Lib.Runs
import TitanGC.Offload.System
import TitanGC.Offload.Tombstones

/-!
# A database with deletes and offloaded garbage collection

The system of `Offload.System` with user deletes, sequence numbers and reads at a
snapshot. Which records a job finds marked invalid is left open. `step_effect` says
once what a step does to the versions of a key: nothing, one new version on top, or
one run of adjacent versions replaced by what a flush or a compaction leaves of it.
-/

namespace TitanGC.Offload.DeleteSystem

open Function (update update_self update_of_ne)
open Relation (ReflTransGen)
open Lib.ByteCoding Lib.Runs List Format.Coding Format.BlobFormat Storage.BlobFiles
open Reads (getImpl titanGet)
open Offload.System (Job survivors writeBackIndex)
open Tombstones

inductive UserOp where
  | put (v : Bytes)
  | delete
  deriving Repr, DecidableEq

structure State (K : Type) where
  mem : K → List Versioned
  imm : List (K → List Versioned)
  ssts : K → List Versioned
  lastSequence : Nat
  files : Files K
  obsolete : UInt64 → Bool
  purged : UInt64 → Bool
  jobs : Nat → Option (Job K)
  /-- The latest user operation on each key. -/
  lastOp : K → Option UserOp

variable {K : Type}

def init : State K where
  mem _ := []
  imm := []
  ssts _ := []
  lastSequence := 0
  files _ := none
  obsolete _ := false
  purged _ := false
  jobs _ := none
  lastOp _ := none

/-- The versions that a read at the snapshot can see, as rows. -/
def visibleRows (snapshot : Nat) (es : List Versioned) :=
  (es.filter fun e => e.1 ≤ snapshot).map fun e => e.2.row

namespace State

def history (s : State K) (k : K) : List Versioned :=
  s.mem k ++ ((s.imm.map (· k)).flatten ++ s.ssts k)

def present (s : State K) : Files K := fun f => if s.purged f then none else s.files f

def getAt (s : State K) (snapshot : Nat) (k : K) : Except Status Bytes :=
  titanGet s.present (getImpl (visibleRows snapshot (s.mem k))
    ((s.imm.map (· k)).map (visibleRows snapshot)) (visibleRows snapshot (s.ssts k)))

def get (s : State K) (k : K) : Except Status Bytes := s.getAt s.lastSequence k

def Pickable (s : State K) (f : UInt64) : Prop :=
  s.files f ≠ none ∧ s.obsolete f = false ∧
    ∀ j job, s.jobs j = some job → f ∉ job.inputs ∧ ∀ out pending, job.phase = .writing out pending → f ≠ out

/-- `Put`, `Delete` and the write of a blob index give the new version the next
sequence number. -/
def push [DecidableEq K] (s : State K) (k : K) (e : Stored) : State K :=
  { s with mem := update s.mem k ((s.lastSequence + 1, e) :: s.mem k),
           lastSequence := s.lastSequence + 1 }

end State

/-- `TitanTableBuilder::Add` in the normal run mode: large inline values are
separated, everything else passes. -/
inductive Separates (minBlobSize : Nat) (new : Files K) (k : K) : Stored → Stored → Prop
  | inline (v : Bytes) (h : v.length < minBlobSize) :
      Separates minBlobSize new k (.value v) (.value v)
  | separated (v : Bytes) (p : BlobPtr) (h : minBlobSize ≤ v.length) (hp : Holds new p k v) :
      Separates minBlobSize new k (.value v) (.index p.plain)
  | index (b : BlobIndex) : Separates minBlobSize new k (.index b) (.index b)
  | tombstone : Separates minBlobSize new k .tombstone .tombstone

/-- What becomes of the version that `Preprocess` keeps. `PrepareOutput` may set
its sequence number to zero when nothing older is left below the output. -/
inductive Builds (minBlobSize : Nat) (new : Files K) (k : K) (bottom : Prop) :
    Option Versioned → Option Versioned → Prop
  | empty : Builds minBlobSize new k bottom none none
  | entry (n n' : Nat) (e e' : Stored) (hn : n' = n ∨ (bottom ∧ n' = 0))
      (he : Separates minBlobSize new k e e') :
      Builds minBlobSize new k bottom (some (n, e)) (some (n', e'))

inductive Action (K : Type) where
  | put (k : K) (v : Bytes)
  | delete (k : K)
  | switchMem
  | flush (keep : Nat)
  | compact (newer run : K → List Versioned)
  | startGc (inputs : List UInt64)
  | copyGc
  | writeBack (k : K) (b : BlobIndex)
  | finishGc
  | abortGc
  | purge (f : UInt64)

/-- The versions of `k` that a flush of all but the `keep` newest immutable
memtables merges. -/
def flushRun (s : State K) (keep : Nat) (k : K) : List Versioned :=
  ((s.imm.drop keep).map (· k)).flatten

inductive Step [DecidableEq K] (minBlobSize : Nat) : State K → Action K → State K → Prop
  | put (s : State K) (k : K) (v : Bytes) :
      Step minBlobSize s (.put k v)
        { s.push k (.value v) with lastOp := update s.lastOp k (some (.put v)) }
  | delete (s : State K) (k : K) :
      Step minBlobSize s (.delete k)
        { s.push k .tombstone with lastOp := update s.lastOp k (some .delete) }
  | switchMem (s : State K) :
      Step minBlobSize s .switchMem { s with mem := fun _ => [], imm := s.mem :: s.imm }
  | flush (s : State K) (keep : Nat) (new : Files K) (out : K → Option Versioned)
      (hnew : Fresh s.files new)
      (hout : ∀ k, Builds minBlobSize new k False (merge (flushRun s keep k)) (out k)) :
      Step minBlobSize s (.flush keep)
        { s with imm := s.imm.take keep, ssts := fun k => (out k).toList ++ s.ssts k,
                 files := add s.files new }
  | compact (s : State K) (newer run older : K → List Versioned) (new : Files K)
      (out : K → Option Versioned)
      (hssts : ∀ k, s.ssts k = newer k ++ (run k ++ older k)) (hnew : Fresh s.files new)
      (hout : ∀ k, Builds minBlobSize new k (older k = []) (merge (run k)) (out k)) :
      Step minBlobSize s (.compact newer run)
        { s with ssts := fun k => newer k ++ ((out k).toList ++ older k),
                 files := add s.files new }
  | startGc (s : State K) (j : Nat) (inputs : List UInt64) (bitmap : UInt64 → UInt64 → Bool)
      (hj : s.jobs j = none) (hpick : ∀ f ∈ inputs, s.Pickable f) :
      Step minBlobSize s (.startGc inputs)
        { s with jobs := update s.jobs j (some ⟨inputs, .copying bitmap⟩) }
  | copyGc (s : State K) (j : Nat) (inputs : List UInt64) (bitmap : UInt64 → UInt64 → Bool)
      (output : UInt64) (recs : List (Rec K)) (hj : s.jobs j = some ⟨inputs, .copying bitmap⟩)
      (hnew : Fresh s.files (single output recs))
      (hcopy : recs.map (fun r => (r.key, r.value))
        = (survivors s.files bitmap inputs).map fun o => (o.2.key, o.2.value)) :
      Step minBlobSize s .copyGc
        { s with files := add s.files (single output recs),
                 jobs := update s.jobs j (some ⟨inputs, .writing output
                   (List.zipWith (writeBackIndex output) (survivors s.files bitmap inputs) recs)⟩) }
  | writeBack (s : State K) (j : Nat) (inputs : List UInt64) (output : UInt64) (k : K)
      (b : BlobIndex) (rest : List (K × BlobIndex))
      (hj : s.jobs j = some ⟨inputs, .writing output ((k, b) :: rest)⟩) :
      Step minBlobSize s (.writeBack k b)
        { s.push k (.index b) with
            jobs := update s.jobs j (some ⟨inputs, .writing output rest⟩) }
  | finishGc (s : State K) (j : Nat) (inputs : List UInt64) (output : UInt64)
      (hj : s.jobs j = some ⟨inputs, .writing output []⟩) :
      Step minBlobSize s .finishGc
        { s with obsolete := fun f => s.obsolete f || decide (f ∈ inputs),
                 jobs := update s.jobs j none }
  | abortGc (s : State K) (j : Nat) :
      Step minBlobSize s .abortGc { s with jobs := update s.jobs j none }
  | purge (s : State K) (f : UInt64) (hf : s.obsolete f = true) :
      Step minBlobSize s (.purge f) { s with purged := update s.purged f true }

/-- Without tombstones, a flush or compaction keeps of a key what `Offload.System` says. -/
theorem merge_ofEntry (es : List (Nat × Compaction.Merge.Entry)) :
    (merge (es.map fun e => (e.1, .ofEntry e.2))).map Prod.snd =
      (System.mergeEntries (es.map Prod.snd)).map .ofEntry := by
  cases es with
  | nil => rfl
  | cons e es =>
    refine congrArg some ?_
    induction es generalizing e with
    | nil => rfl
    | cons c es ih =>
      have habsorb : absorb (e.1, .ofEntry e.2) (c.1, .ofEntry c.2) =
        ((absorb (e.1, .ofEntry e.2) (c.1, .ofEntry c.2)).1, .ofEntry (e.2.absorb c.2)) :=
        Prod.ext rfl (absorb_ofEntry ..)
      rw [map_cons, foldl_cons, habsorb]
      exact ih (_, e.2.absorb c.2)

/-! ## What a step does to one key -/

/-- The effect of a step on the versions of `k`. -/
inductive Effect (minBlobSize : Nat) (s : State K) (a : Action K) (t : State K) (k : K) : Prop
  | same (hh : t.history k = s.history k) (ho : t.lastOp k = s.lastOp k)
      (hl : s.lastSequence ≤ t.lastSequence)
  | put (v : Bytes) (hh : t.history k = (s.lastSequence + 1, .value v) :: s.history k)
      (ho : t.lastOp k = some (.put v)) (hl : t.lastSequence = s.lastSequence + 1)
  | delete (hh : t.history k = (s.lastSequence + 1, .tombstone) :: s.history k)
      (ho : t.lastOp k = some .delete) (hl : t.lastSequence = s.lastSequence + 1)
  | writeBack (b : BlobIndex) (ha : a = .writeBack k b)
      (hh : t.history k = (s.lastSequence + 1, .index b) :: s.history k)
      (ho : t.lastOp k = s.lastOp k) (hl : t.lastSequence = s.lastSequence + 1)
  | merged (new : Files K) (newer run older : List Versioned) (out : Option Versioned)
      (hs : s.history k = newer ++ (run ++ older))
      (hh : t.history k = newer ++ (out.toList ++ older))
      (hout : Builds minBlobSize new k (older = []) (merge run) out)
      (ho : t.lastOp k = s.lastOp k) (hl : t.lastSequence = s.lastSequence)

variable {out : Option Versioned} {run : List Versioned} {minBlobSize : Nat}

theorem Builds.mono {new : Files K} {k : K} {p q : Prop} (hpq : p → q) {kept : Option Versioned}
    (h : Builds minBlobSize new k p kept out) : Builds minBlobSize new k q kept out := by
  cases h with
  | empty => exact .empty
  | entry n n' e e' hn he => exact .entry n n' e e' (hn.imp_right fun h => ⟨hpq h.1, h.2⟩) he

theorem history_flush (s : State K) (keep : Nat) (k : K) :
    s.history k = (s.mem k ++ ((s.imm.take keep).map (· k)).flatten)
      ++ (flushRun s keep k ++ s.ssts k) := by
  have himm : (s.imm.map (· k)).flatten
      = ((s.imm.take keep).map (· k)).flatten ++ flushRun s keep k := by
    rw [flushRun, ← flatten_append, ← map_append, take_append_drop]
  rw [State.history, himm]
  simp only [append_assoc]

section

variable [DecidableEq K] {minBlobSize : Nat} {s t : State K} {a : Action K}

theorem history_push_self (s : State K) (k : K) (e : Stored) :
    (s.push k e).history k = (s.lastSequence + 1, e) :: s.history k := by
  simp [State.push, State.history]

theorem history_push_of_ne (s : State K) {k l : K} (h : l ≠ k) (e : Stored) :
    (s.push k e).history l = s.history l := by
  simp [State.push, State.history, h]

theorem step_effect (h : Step minBlobSize s a t) (k : K) : Effect minBlobSize s a t k := by
  cases h with
  | put l v =>
    by_cases hk : k = l
    · subst hk
      exact .put v (history_push_self s k _) (update_self ..) rfl
    · exact .same (history_push_of_ne s hk _) (update_of_ne hk ..) (Nat.le_succ _)
  | delete l =>
    by_cases hk : k = l
    · subst hk
      exact .delete (history_push_self s k _) (update_self ..) rfl
    · exact .same (history_push_of_ne s hk _) (update_of_ne hk ..) (Nat.le_succ _)
  | writeBack j inputs output l b rest hj =>
    by_cases hk : k = l
    · subst hk
      exact .writeBack b rfl (history_push_self s k _) rfl rfl
    · exact .same (history_push_of_ne s hk _) rfl (Nat.le_succ _)
  | switchMem => exact .same (by simp [State.history]) rfl (Nat.le_refl _)
  | flush keep new out hnew hout =>
    refine .merged new _ (flushRun s keep k) (s.ssts k) (out k) (history_flush s keep k) ?_
      ((hout k).mono False.elim) rfl rfl
    simp [State.history]
  | compact newer run older new out hssts hnew hout =>
    refine .merged new (s.mem k ++ ((s.imm.map (· k)).flatten ++ newer k)) (run k) (older k) (out k)
      ?_ ?_ (hout k) rfl rfl
    · simp [State.history, hssts]
    · simp [State.history]
  | startGc j inputs bitmap hj hpick => exact .same rfl rfl (Nat.le_refl _)
  | copyGc j inputs bitmap output recs hj hnew hcopy => exact .same rfl rfl (Nat.le_refl _)
  | finishGc j inputs output hj => exact .same rfl rfl (Nat.le_refl _)
  | abortGc j => exact .same rfl rfl (Nat.le_refl _)
  | purge f hf => exact .same rfl rfl (Nat.le_refl _)

end

/-! ## Sequence numbers -/

/-- Versions come newest first, with distinct sequence numbers. -/
def Newest (es : List Versioned) : Prop := es.Pairwise fun a b => b.1 < a.1

theorem absorb_sequence (a b : Versioned) : (absorb a b).1 = a.1 ∨ (absorb a b).1 = b.1 := by
  obtain ⟨m, a⟩ := a
  obtain ⟨n, b⟩ := b
  cases a <;> cases b <;> simp only [absorb] <;> (try split) <;> (try split) <;> simp

theorem foldl_absorb_sequence (es : List Versioned) (e : Versioned) :
    ∃ c ∈ e :: es, (es.foldl absorb e).1 = c.1 := by
  induction es generalizing e with
  | nil => exact ⟨e, mem_cons_self, rfl⟩
  | cons d es ih =>
    obtain ⟨c, hc, heq⟩ := ih (absorb e d)
    rcases mem_cons.mp hc with rfl | hc
    · rcases absorb_sequence e d with h | h
      · exact ⟨e, by simp, heq.trans h⟩
      · exact ⟨d, by simp, heq.trans h⟩
    · exact ⟨c, by simp [hc], heq⟩

/-- The kept version has the sequence number of a version of the run. -/
theorem merge_sequence {e : Versioned} (h : merge run = some e) : ∃ c ∈ run, e.1 = c.1 := by
  cases run with
  | nil => cases h
  | cons d run =>
    obtain rfl := Option.some.inj h
    exact foldl_absorb_sequence run d

theorem newest_merged {new : Files K} {k : K} {newer older : List Versioned}
    (hs : Newest (newer ++ (run ++ older)))
    (hout : Builds minBlobSize new k (older = []) (merge run) out) :
    Newest (newer ++ (out.toList ++ older)) := by
  generalize hm : merge run = kept at hout
  cases hout with
  | empty =>
    have hrun : run = [] := by
      cases run with
      | nil => rfl
      | cons d run => cases hm
    simpa [hrun] using hs
  | entry n n' e e' hn he =>
    obtain ⟨c, hc, hcn⟩ := merge_sequence hm
    obtain ⟨hnewer, hlow, hcross⟩ := pairwise_append.mp hs
    obtain ⟨-, holder, hbelow⟩ := pairwise_append.mp hlow
    have hle : n' ≤ c.1 := by
      rcases hn with rfl | ⟨-, rfl⟩
      · exact Nat.le_of_eq hcn
      · exact Nat.zero_le _
    refine pairwise_append.mpr ⟨hnewer, ?_, ?_⟩
    · refine pairwise_cons.mpr ⟨?_, holder⟩
      intro d hd
      rcases hn with rfl | ⟨hnil, -⟩
      · exact Nat.lt_of_lt_of_eq (hbelow c hc d hd) hcn.symm
      · rw [hnil] at hd
        exact absurd hd not_mem_nil
    · intro d hd b hb
      rcases mem_cons.mp hb with rfl | hb
      · exact Nat.lt_of_le_of_lt hle (hcross d hd c (mem_append_left _ hc))
      · exact hcross d hd b (mem_append_right _ hb)

theorem sequence_of_merged {new : Files K} {k : K} {bottom : Prop}
    (hout : Builds minBlobSize new k bottom (merge run) out) {d : Versioned} (hd : d ∈ out.toList) :
    ∃ c ∈ run, d.1 ≤ c.1 := by
  generalize hm : merge run = kept at hout
  cases hout with
  | empty => exact absurd hd not_mem_nil
  | entry n n' e e' hn he =>
    obtain rfl := mem_singleton.mp hd
    obtain ⟨c, hc, hcn⟩ := merge_sequence hm
    refine ⟨c, hc, ?_⟩
    rcases hn with rfl | ⟨-, rfl⟩
    · exact Nat.le_of_eq hcn
    · exact Nat.zero_le _

structure Ordered (s : State K) : Prop where
  newest : ∀ k, Newest (s.history k)
  bounded : ∀ k, ∀ e ∈ s.history k, e.1 ≤ s.lastSequence

theorem ordered_init : Ordered (init : State K) where
  newest _ := List.Pairwise.nil
  bounded _ _ he := absurd he not_mem_nil

/-- Every step keeps the order, careful or not. -/
theorem ordered_step [DecidableEq K] {s t : State K} {a : Action K} (hs : Ordered s)
    (h : Step minBlobSize s a t) : Ordered t := by
  have hpush : ∀ k e, t.history k = (s.lastSequence + 1, e) :: s.history k →
      t.lastSequence = s.lastSequence + 1 →
      Newest (t.history k) ∧ ∀ d ∈ t.history k, d.1 ≤ t.lastSequence := by
    intro k e hh hl
    rw [hh, hl]
    refine ⟨pairwise_cons.mpr ⟨?_, hs.newest k⟩, ?_⟩
    · intro d hd
      exact Nat.lt_succ_of_le (hs.bounded k d hd)
    · intro d hd
      rcases mem_cons.mp hd with rfl | hd
      · exact Nat.le_refl _
      · exact Nat.le_succ_of_le (hs.bounded k d hd)
  have hall : ∀ k, Newest (t.history k) ∧ ∀ d ∈ t.history k, d.1 ≤ t.lastSequence := by
    intro k
    cases step_effect h k with
    | same hh ho hl =>
      rw [hh]
      exact ⟨hs.newest k, fun d hd => Nat.le_trans (hs.bounded k d hd) hl⟩
    | put v hh ho hl => exact hpush k _ hh hl
    | delete hh ho hl => exact hpush k _ hh hl
    | writeBack b ha hh ho hl => exact hpush k _ hh hl
    | merged new newer run older out hsplit hh hout ho hl =>
      have hn := hs.newest k
      have hb := hs.bounded k
      rw [hsplit] at hn hb
      rw [hh, hl]
      refine ⟨newest_merged hn hout, ?_⟩
      intro d hd
      rcases mem_append.mp hd with hd | hd
      · exact hb d (by simp [hd])
      · rcases mem_append.mp hd with hd | hd
        · obtain ⟨c, hc, hle⟩ := sequence_of_merged hout hd
          exact Nat.le_trans hle (hb c (by simp [hc]))
        · exact hb d (by simp [hd])
  exact ⟨fun k => (hall k).1, fun k => (hall k).2⟩

def SomeStep [DecidableEq K] (minBlobSize : Nat) (s t : State K) : Prop :=
  ∃ a, Step minBlobSize s a t

theorem ordered_of_run [DecidableEq K] {s : State K}
    (h : ReflTransGen (SomeStep minBlobSize) init s) : Ordered s := by
  refine run_invariant Ordered ?_ h ordered_init
  intro t u ht hstep
  obtain ⟨a, hstep⟩ := hstep
  exact ordered_step ht hstep

/-! ## Reads -/

def visible (snapshot : Nat) (es : List Versioned) : List Stored :=
  (es.filter fun e => e.1 ≤ snapshot).map (·.2)

theorem visible_append (snapshot : Nat) (es fs : List Versioned) :
    visible snapshot (es ++ fs) = visible snapshot es ++ visible snapshot fs := by
  simp [visible]

theorem visible_of_bounded {snapshot : Nat} {es : List Versioned} (h : ∀ e ∈ es, e.1 ≤ snapshot) :
    visible snapshot es = es.map (·.2) := by
  rw [visible, filter_eq_self.mpr]
  simpa using h

theorem visible_flatten (snapshot : Nat) (ess : List (List Versioned)) :
    (ess.map (visible snapshot)).flatten = visible snapshot ess.flatten := by
  induction ess with
  | nil => rfl
  | cons es ess ih => rw [map_cons, flatten_cons, ih, flatten_cons, visible_append]

/-- A read at a snapshot stops at a visible version of the active memtable, or
takes the newest visible one of the rest. -/
theorem getAt_eq (s : State K) (snapshot : Nat) (k : K) :
    s.getAt snapshot k = follow s.present (Stored.found
      ((memVisible (visible snapshot (s.mem k))).or
        (visible snapshot ((s.imm.map (· k)).flatten ++ s.ssts k)).head?)) := by
  have hrow : ∀ es, visibleRows snapshot es = (visible snapshot es).map Stored.row := by
    intro es
    simp [visibleRows, visible]
  have himm : (s.imm.map (· k)).map (visibleRows snapshot)
      = ((s.imm.map (· k)).map (visible snapshot)).map (·.map Stored.row) := by
    rw [map_map (f := visible snapshot)]
    exact map_congr_left fun es _ => hrow es
  rw [State.getAt, titanGet_eq_follow, hrow, hrow, himm, getImpl_stored, visible_flatten,
    visible_append]

end TitanGC.Offload.DeleteSystem
