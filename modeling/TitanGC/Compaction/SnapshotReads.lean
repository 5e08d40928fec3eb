import Mathlib.Order.Defs.LinearOrder
import TitanGC.Compaction.Iterator

/-!
# Snapshots and the offload path

A snapshot sees the newest version of a key at or below its sequence number.
`Preprocess` leaves one version of each key, whatever snapshots there are, so a
snapshot still sees its version exactly when that is the one that is left.
-/

namespace TitanGC.Compaction.SnapshotReads

open Iterator List

section

variable {K : Type}

/-- A blob index with an old location behind the current one. -/
def IsWriteBack (kv : Kv K) : Prop :=
  kv.key.type = .blobIndex ∧ (readTypedFields kv.value).2.isEmpty = false

instance (kv : Kv K) : Decidable (IsWriteBack kv) := by
  unfold IsWriteBack
  infer_instance

/-- What a snapshot at `s` sees of a key. -/
def SeenAt (l : List (Kv K)) (s : Nat) (e : Kv K) : Prop :=
  e ∈ l ∧ e.key.sequence ≤ s ∧
    ∀ z ∈ l, z.key.userKey = e.key.userKey → z.key.sequence ≤ s → z.key.sequence ≤ e.key.sequence

/-- Of the versions of a key, newest first: the newest one, or the newest inline value
if the newest one is a blob index. -/
def survivor : List (Kv K) → Option (Kv K)
  | [] => none
  | x :: rest =>
    if x.key.type = .blobIndex then (rest.find? fun kv => decide (kv.key.type = .value)).or (some x)
    else some x

/-! ## What is left of a key -/

/-- Without write-backs an older version is kept only if it is the first inline value. -/
theorem absorb_eq {back cur : Kv K} (hback : ¬ IsWriteBack back) :
    absorb back cur =
      if back.key.type = .blobIndex ∧ cur.key.type = .value then cur else back := by
  rw [absorb]
  cases hb : back.key.type with
  | blobIndex =>
    by_cases hc : cur.key.type = .value
    · simp [hc]
    · have hplain : (readTypedFields back.value).2.isEmpty = true := by
        by_contra hrest
        exact hback ⟨hb, Bool.eq_false_iff.2 hrest⟩
      simp [hc, checkBlobIndex, hplain]
  | value | deletion | merge | singleDeletion => simp

theorem survivor_absorb {back cur : Kv K} (hback : ¬ IsWriteBack back) (vs : List (Kv K)) :
    survivor (back :: cur :: vs) = survivor (absorb back cur :: vs) := by
  rw [absorb_eq hback]
  by_cases hb : back.key.type = .blobIndex
  · by_cases hc : cur.key.type = .value
    · simp [survivor, hb, hc]
    · simp [survivor, hb, hc]
  · simp [survivor, hb]

theorem absorb_mem {back cur : Kv K} (hback : ¬ IsWriteBack back) :
    absorb back cur = back ∨ absorb back cur = cur := by
  rw [absorb_eq hback]
  split
  · exact .inr rfl
  · exact .inl rfl

theorem survivor_singleton (x : Kv K) : survivor [x] = some x := by
  rw [survivor]
  split <;> rfl

variable [DecidableEq K]

def versionsOf (k : K) (l : List (Kv K)) : List (Kv K) := l.filter fun kv => decide (kv.key.userKey = k)

theorem versionsOf_cons_self {x : Kv K} {k : K} (h : x.key.userKey = k) (l : List (Kv K)) :
    versionsOf k (x :: l) = x :: versionsOf k l :=
  filter_cons_of_pos (decide_eq_true h)

theorem versionsOf_cons_of_ne {x : Kv K} {k : K} (h : x.key.userKey ≠ k) (l : List (Kv K)) :
    versionsOf k (x :: l) = versionsOf k l :=
  filter_cons_of_neg (by simpa using h)

end

variable {K : Type} [LinearOrder K]

/-- The order of internal keys: by user key, the newest version first. -/
def KvLt (a b : Kv K) : Prop :=
  a.key.userKey < b.key.userKey ∨ a.key.userKey = b.key.userKey ∧ b.key.sequence < a.key.sequence

theorem KvLt.userKey_le {a b : Kv K} (h : KvLt a b) : a.key.userKey ≤ b.key.userKey :=
  h.elim le_of_lt fun heq => heq.1.le

theorem versionsOf_eq_nil {l : List (Kv K)} {k : K} (h : ∀ x ∈ l, k < x.key.userKey) :
    versionsOf k l = [] := by
  rw [versionsOf, filter_eq_nil_iff]
  intro x hx
  simpa using (h x hx).ne'

/-- The queue has the survivor of every key and nothing else. -/
theorem mem_collapse_iff {rest : List (Kv K)} {back : Kv K} (hsorted : (back :: rest).Pairwise KvLt)
    (hplain : ∀ x ∈ back :: rest, ¬ IsWriteBack x) (kv : Kv K) :
    kv ∈ collapse back rest ↔ survivor (versionsOf kv.key.userKey (back :: rest)) = some kv := by
  induction rest generalizing back with
  | nil =>
    rw [collapse, mem_singleton]
    by_cases hk : back.key.userKey = kv.key.userKey
    · rw [versionsOf_cons_self hk]
      simp only [versionsOf, filter_nil, survivor_singleton, Option.some.injEq]
      exact eq_comm
    · rw [versionsOf_cons_of_ne hk]
      simp only [versionsOf, filter_nil, survivor, reduceCtorEq, iff_false]
      exact fun heq => hk (heq ▸ rfl)
  | cons cur rest ih =>
    obtain ⟨hfirst, hrest⟩ := pairwise_cons.1 hsorted
    obtain ⟨hsecond, hlast⟩ := pairwise_cons.1 hrest
    have hback := hplain back mem_cons_self
    rw [collapse]
    split
    · next hkey =>
        have habsorb : absorb back cur = back ∨ absorb back cur = cur := absorb_mem hback
        have hkept : (absorb back cur).key.userKey = back.key.userKey := by
          rcases habsorb with heq | heq <;> rw [heq]
          exact hkey
        rw [ih]
        · by_cases hk : back.key.userKey = kv.key.userKey
          · rw [versionsOf_cons_self (hkept.trans hk), versionsOf_cons_self hk,
              versionsOf_cons_self (hkey.trans hk), survivor_absorb hback]
          · rw [versionsOf_cons_of_ne (hkept ▸ hk), versionsOf_cons_of_ne hk,
              versionsOf_cons_of_ne (hkey ▸ hk)]
        · refine pairwise_cons.2 ⟨fun z hz => ?_, hlast⟩
          rcases habsorb with heq | heq <;> rw [heq]
          · exact hfirst z (mem_cons_of_mem cur hz)
          · exact hsecond z hz
        · intro x hx
          rcases mem_cons.1 hx with rfl | hx
          · rcases habsorb with heq | heq <;> rw [heq]
            · exact hback
            · exact hplain cur (mem_cons_of_mem _ mem_cons_self)
          · exact hplain x (mem_cons_of_mem _ (mem_cons_of_mem _ hx))
    · next hkey =>
        -- no later row has the key of `back`
        have hless : back.key.userKey < cur.key.userKey :=
          lt_of_le_of_ne (hfirst cur mem_cons_self).userKey_le (Ne.symm hkey)
        have hlater : ∀ z ∈ cur :: rest, back.key.userKey < z.key.userKey := by
          intro z hz
          rcases mem_cons.1 hz with rfl | hz
          · exact hless
          · exact hless.trans_le (hsecond z hz).userKey_le
        rw [mem_cons, ih hrest fun x hx => hplain x (mem_cons_of_mem _ hx)]
        by_cases hk : back.key.userKey = kv.key.userKey
        · rw [versionsOf_cons_self hk, versionsOf_eq_nil (hk ▸ hlater), survivor_singleton]
          simp only [survivor, reduceCtorEq, or_false, Option.some.injEq]
          exact eq_comm
        · rw [versionsOf_cons_of_ne hk]
          exact or_iff_right fun heq => hk (heq ▸ rfl)

theorem mem_offloadOutput_iff {input : List (Kv K)} (hsorted : input.Pairwise KvLt)
    (hplain : ∀ x ∈ input, ¬ IsWriteBack x) (kv : Kv K) :
    kv ∈ offloadOutput input ↔ survivor (versionsOf kv.key.userKey input) = some kv := by
  rw [offloadOutput_eq]
  cases input with
  | nil => simp [preprocess, versionsOf, survivor]
  | cons back rest =>
    rw [preprocess_cons]
    exact mem_collapse_iff hsorted hplain kv

/-- What the snapshots see of an input without write-backs is still there after the
offload path exactly when each of them sees, of every key, the one version that
survives. -/
theorem snapshots_keep_iff (snapshots : List Nat) {input : List (Kv K)} (hsorted : input.Pairwise KvLt)
    (hplain : ∀ x ∈ input, ¬ IsWriteBack x) :
    (∀ s ∈ snapshots, ∀ e, SeenAt input s e → SeenAt (offloadOutput input) s e) ↔
      ∀ s ∈ snapshots, ∀ e, SeenAt input s e → survivor (versionsOf e.key.userKey input) = some e := by
  constructor
  · intro h s hs e he
    exact (mem_offloadOutput_iff hsorted hplain e).1 (h s hs e he).1
  · intro h s hs e he
    have hkept := h s hs e he
    refine ⟨(mem_offloadOutput_iff hsorted hplain e).2 hkept, he.2.1, fun z hz hkey _ => ?_⟩
    -- the output has one version of each key
    have hz' := (mem_offloadOutput_iff hsorted hplain z).1 hz
    rw [hkey, hkept] at hz'
    rw [Option.some.inj hz']

def overwritten : List (Kv Nat) := [⟨⟨1, 2, .value⟩, [2]⟩, ⟨⟨1, 1, .value⟩, [1]⟩]

/-- The snapshot at 1 loses its version. -/
theorem snapshot_loses_version :
    overwritten.Pairwise KvLt ∧ (∀ x ∈ overwritten, ¬ IsWriteBack x) ∧
      SeenAt overwritten 1 ⟨⟨1, 1, .value⟩, [1]⟩ ∧ offloadOutput overwritten = [⟨⟨1, 2, .value⟩, [2]⟩] ∧
      ¬ SeenAt (offloadOutput overwritten) 1 ⟨⟨1, 1, .value⟩, [1]⟩ := by
  have hout : offloadOutput overwritten = [⟨⟨1, 2, .value⟩, [2]⟩] := by decide
  refine ⟨by simp [overwritten, KvLt], by decide, ⟨by decide, le_rfl, by decide⟩, hout, ?_⟩
  rw [hout]
  intro h
  have hmem := h.1
  simp at hmem

/-- With a snapshot at or above every version nothing is lost. -/
theorem snapshots_keep_newest :
    overwritten.Pairwise KvLt ∧ ∀ e, SeenAt overwritten 2 e → SeenAt (offloadOutput overwritten) 2 e := by
  have hsorted : overwritten.Pairwise KvLt := by simp [overwritten, KvLt]
  refine ⟨hsorted, (snapshots_keep_iff [2] hsorted (by decide)).2 ?_ 2 mem_cons_self⟩
  intro s hs e he
  cases mem_singleton.1 hs
  obtain ⟨hmem, -, hnewest⟩ := he
  simp only [overwritten, mem_cons, not_mem_nil, or_false] at hmem
  rcases hmem with rfl | rfl
  · rfl
  · have := hnewest ⟨⟨1, 2, .value⟩, [2]⟩ (by decide) rfl le_rfl
    exact absurd this (by decide)

end TitanGC.Compaction.SnapshotReads
