import Mathlib.Data.Nat.Basic
import Mathlib.Logic.Function.Basic

/-!
# Versions by sequence number

The versions of one key of a multi-version store, by the sequence number of the
write. A read at a sequence number sees the newest version at or below it.
`Rewritten` says what a rewrite of the stored versions may do: change a version
in place, drop one that a newer version of the same rewrite hides from every
snapshot, or drop a tombstone that has nothing below it.
-/

namespace TitanGC.Lib.MultiVersion

open Function

variable {V : Type*}

abbrev Versions (V : Type*) := Nat → Option V

def visible (vs : Versions V) : Nat → Option V
  | 0 => vs 0
  | p + 1 => (vs (p + 1)).or (visible vs p)

variable {p q : Nat} {snapshot region : Nat → Prop}

variable {vs ws : Versions V} {v : V} {tombstone : V → Prop} {R : V → V → Prop}

theorem visible_eq_none_iff : visible vs p = none ↔ ∀ n ≤ p, vs n = none := by
  induction p with
  | zero => simp [visible]
  | succ p ih =>
    simp only [visible, Option.or_eq_none_iff, ih]
    constructor
    · rintro ⟨htop, hlow⟩ n hn
      rcases Nat.le_succ_iff.mp hn with h | rfl
      · exact hlow n h
      · exact htop
    · intro h
      exact ⟨h _ le_rfl, fun n hn => h n (Nat.le_succ_of_le hn)⟩

theorem visible_eq_some_iff :
    visible vs p = some v ↔ ∃ n ≤ p, vs n = some v ∧ ∀ m, n < m → m ≤ p → vs m = none := by
  induction p with
  | zero =>
    constructor
    · exact fun h => ⟨0, le_rfl, h, fun m hm hle => by omega⟩
    · rintro ⟨n, hn, hv, -⟩
      obtain rfl : n = 0 := by omega
      exact hv
  | succ p ih =>
    cases htop : vs (p + 1) with
    | some w =>
      simp only [visible, htop, Option.some_or, Option.some.injEq]
      constructor
      · rintro rfl
        exact ⟨p + 1, le_rfl, htop, fun m hm hle => by omega⟩
      · rintro ⟨n, hn, hv, hmax⟩
        by_cases hlast : n = p + 1
        · subst hlast
          exact Option.some.inj (htop.symm.trans hv)
        · have := hmax (p + 1) (by omega) le_rfl
          simp [htop] at this
    | none =>
      simp only [visible, htop, Option.none_or, ih]
      constructor
      · rintro ⟨n, hn, hv, hmax⟩
        refine ⟨n, by omega, hv, fun m hm hle => ?_⟩
        rcases Nat.le_succ_iff.mp hle with h | rfl
        · exact hmax m hm h
        · exact htop
      · rintro ⟨n, hn, hv, hmax⟩
        have hle : n ≤ p := by
          rcases Nat.le_succ_iff.mp hn with h | rfl
          · exact h
          · simp [htop] at hv
        exact ⟨n, hle, hv, fun m hm hmp => hmax m hm (by omega)⟩

theorem exists_of_visible (h : visible vs p = some v) : ∃ n, vs n = some v := by
  obtain ⟨n, -, hv, -⟩ := visible_eq_some_iff.mp h
  exact ⟨n, hv⟩

def BoundedBy (vs : Versions V) (q : Nat) : Prop := ∀ n, q < n → vs n = none

theorem visible_of_bounded (hb : BoundedBy vs q) (hp : q ≤ p) : visible vs p = visible vs q := by
  induction p, hp using Nat.le_induction with
  | base => rfl
  | succ p hp ih => rw [visible, hb _ (by omega), Option.none_or, ih]

/-! ## Writing -/

def write (vs : Versions V) (q : Nat) (v : V) : Versions V := update vs (q + 1) (some v)

theorem bounded_write (hb : BoundedBy vs q) (v : V) : BoundedBy (write vs q v) (q + 1) := by
  intro n hn
  rw [write, update_of_ne (by omega)]
  exact hb n (by omega)

theorem BoundedBy.mono {r : Nat} (hb : BoundedBy vs q) (h : q ≤ r) :
    BoundedBy vs r := fun n hn => hb n (by omega)

theorem write_eq_some {n : Nat} {w : V} (h : write vs q v n = some w) :
    (n = q + 1 ∧ w = v) ∨ vs n = some w := by
  by_cases hn : n = q + 1
  · subst hn
    exact .inl ⟨rfl, by simpa [write, eq_comm] using h⟩
  · exact .inr (by simpa [write, hn] using h)

theorem visible_write_old (v : V) (hp : p ≤ q) : visible (write vs q v) p = visible vs p := by
  induction p with
  | zero => simp [visible, write]
  | succ p ih =>
    rw [visible, visible, ih (by omega), write, update_of_ne (by omega)]

theorem visible_write_new (hb : BoundedBy vs q) (v : V) (hp : q < p) :
    visible (write vs q v) p = some v := by
  rw [visible_of_bounded (bounded_write hb v) hp, visible, write, update_self,
    Option.some_or]

/-! ## Rewriting -/

/-- A version that a rewrite of `region` may drop. -/
def Droppable (snapshot region : Nat → Prop) (tombstone : V → Prop) (vs ws : Versions V)
    (n : Nat) : Prop :=
  (∃ m, n < m ∧ region m ∧ vs m ≠ none ∧ ∀ s, snapshot s → n ≤ s → m ≤ s) ∨
    ∃ v, vs n = some v ∧ tombstone v ∧ ∀ m < n, ws m = none

structure Rewritten (snapshot region : Nat → Prop) (tombstone : V → Prop) (R : V → V → Prop)
    (vs ws : Versions V) : Prop where
  outside : ∀ n, ¬ region n → ws n = vs n
  dropped : ∀ n, region n → ws n = none → vs n = none ∨ Droppable snapshot region tombstone vs ws n
  kept : ∀ n w, region n → ws n = some w → ∃ v, vs n = some v ∧ R v w

/-- What a read may find after a rewrite instead of what it found before. -/
def ReadsAs (tombstone : V → Prop) (R : V → V → Prop) : Option V → Option V → Prop
  | none, none => True
  | some v, none => tombstone v
  | none, some _ => False
  | some v, some w => v = w ∨ R v w

variable (h : Rewritten snapshot region tombstone R vs ws)

include h

/-- A read at a snapshot, or at or above the whole region, does not notice a rewrite. -/
theorem readsAs_of_rewritten (hp : snapshot p ∨ ∀ n, region n → n ≤ p) :
    ReadsAs tombstone R (visible vs p) (visible ws p) := by
  have hnew : ∀ n, vs n = none → ws n = none := by
    intro n hn
    by_cases hr : region n
    · cases hw : ws n with
      | none => rfl
      | some w =>
        obtain ⟨v, hv, -⟩ := h.kept n w hr hw
        rw [hn] at hv
        cases hv
    · rw [h.outside n hr, hn]
  cases hv : visible vs p with
  | none =>
    have hnone := visible_eq_none_iff.mp hv
    rw [visible_eq_none_iff.mpr fun n hn => hnew n (hnone n hn)]
    trivial
  | some v =>
    obtain ⟨n, hn, hvn, hmax⟩ := visible_eq_some_iff.mp hv
    have hmax' : ∀ m, n < m → m ≤ p → ws m = none := fun m hm hmp => hnew m (hmax m hm hmp)
    cases hw : ws n with
    | some w =>
      rw [visible_eq_some_iff.mpr ⟨n, hn, hw, hmax'⟩]
      by_cases hr : region n
      · obtain ⟨v', hv', hR⟩ := h.kept n w hr hw
        obtain rfl : v = v' := Option.some.inj (hvn.symm.trans hv')
        exact .inr hR
      · rw [h.outside n hr, hvn] at hw
        exact .inl (Option.some.inj hw)
    | none =>
      have hr : region n := by
        by_contra hr
        rw [h.outside n hr, hvn] at hw
        cases hw
      rcases h.dropped n hr hw with hnone | ⟨m, hnm, hrm, hvm, hsnap⟩ | ⟨v', hv', ht, hlow⟩
      · rw [hnone] at hvn
        cases hvn
      · -- the newer version is not visible at `p`, so `p` lies between the two
        have hpm : p < m := by
          by_contra hle
          exact hvm (hmax m hnm (by omega))
        rcases hp with hs | habove
        · exact absurd (hsnap p hs hn) (by omega)
        · exact absurd (habove m hrm) (by omega)
      · obtain rfl : v = v' := Option.some.inj (hvn.symm.trans hv')
        have hempty : visible ws p = none := by
          refine visible_eq_none_iff.mpr fun m hm => ?_
          rcases lt_trichotomy m n with hlt | rfl | hgt
          · exact hlow m hlt
          · exact hw
          · exact hmax' m hgt hm
        rw [hempty]
        exact ht

theorem bounded_rewritten (hb : BoundedBy vs q) : BoundedBy ws q := by
  intro n hn
  by_cases hr : region n
  · cases hw : ws n with
    | none => rfl
    | some w =>
      obtain ⟨v, hv, -⟩ := h.kept n w hr hw
      rw [hb n hn] at hv
      cases hv
  · rw [h.outside n hr, hb n hn]

theorem rewritten_eq_some {n : Nat} {w : V} (hw : ws n = some w) :
    ∃ v, vs n = some v ∧ (v = w ∨ R v w) := by
  by_cases hr : region n
  · obtain ⟨v, hv, hR⟩ := h.kept n w hr hw
    exact ⟨v, hv, .inr hR⟩
  · exact ⟨w, h.outside n hr ▸ hw, .inl rfl⟩

end TitanGC.Lib.MultiVersion
