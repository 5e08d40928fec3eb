import Mathlib.Data.List.Perm.Basic
import Mathlib.Data.List.TakeWhile
import Mathlib.Tactic

/-!
# Ordered multimaps

A multimap keeps its entries in the order of a comparator; entries with equivalent
keys stand next to each other, in the order in which they came. Besides the order,
everything about it is said up to permutation.
-/

namespace TitanGC.Lib.MultiMaps

open List

variable {K V : Type}

structure MultiMap (K V : Type) (cmp : K → K → Ordering) where
  entries : List (K × V) := []
  sorted : entries.Pairwise fun a b => cmp a.1 b.1 ≠ .gt := by exact .nil

variable {k : K} {e : K × V}

namespace MultiMap

variable {cmp : K → K → Ordering}

def upTo (m : MultiMap K V cmp) (k : K) : List (K × V) := m.entries.takeWhile fun e => cmp e.1 k != .gt

/-- The entries from the upper bound of a key on. -/
def beyond (m : MultiMap K V cmp) (k : K) : List (K × V) := m.entries.dropWhile fun e => cmp e.1 k != .gt

theorem upTo_append_beyond (m : MultiMap K V cmp) (k : K) : m.upTo k ++ m.beyond k = m.entries :=
  takeWhile_append_dropWhile

theorem le_of_mem_upTo {m : MultiMap K V cmp} (he : e ∈ m.upTo k) : cmp e.1 k ≠ .gt := by
  have h := mem_takeWhile_imp he
  simpa using h

section

variable [Std.TransCmp cmp]

theorem gt_of_mem_beyond {m : MultiMap K V cmp} (he : e ∈ m.beyond k) : cmp k e.1 ≠ .gt := by
  rw [beyond] at he
  cases hrest : m.entries.dropWhile (fun e => cmp e.1 k != .gt) with
  | nil =>
    rw [hrest] at he
    exact absurd he not_mem_nil
  | cons a rest =>
    have hfirst : cmp a.1 k = .gt := by
      have hhead := head_dropWhile_not (fun e : K × V => cmp e.1 k != .gt) (by rw [hrest]; simp)
      simp only [hrest, head_cons] at hhead
      simpa using hhead
    have hka : cmp k a.1 = .lt := Std.OrientedCmp.lt_of_gt hfirst
    rw [hrest] at he
    rcases mem_cons.mp he with rfl | hin
    · rw [hka]
      exact Ordering.noConfusion
    · have hsorted := m.sorted.sublist (dropWhile_sublist (fun e => cmp e.1 k != .gt))
      rw [hrest] at hsorted
      have hae := (pairwise_cons.mp hsorted).1 e hin
      intro hgt
      have hle : (cmp a.1 e.1).isLE := by
        cases hcmp : cmp a.1 e.1 with
        | lt => rfl
        | eq => rfl
        | gt => exact absurd hcmp hae
      have hke : cmp k e.1 = .lt := Std.TransCmp.lt_of_lt_of_isLE hka hle
      rw [hke] at hgt
      cases hgt

/-- `emplace`: behind the entries with equivalent keys. -/
def emplace (m : MultiMap K V cmp) (k : K) (v : V) : MultiMap K V cmp where
  entries := m.upTo k ++ (k, v) :: m.beyond k
  sorted := by
    have hsorted := m.sorted
    rw [← upTo_append_beyond m k] at hsorted
    obtain ⟨hleft, hright, hcross⟩ := pairwise_append.mp hsorted
    refine pairwise_append.mpr ⟨hleft, pairwise_cons.mpr ⟨fun e he => gt_of_mem_beyond he, hright⟩, ?_⟩
    intro a ha b hb
    rcases mem_cons.mp hb with rfl | hb
    · exact le_of_mem_upTo ha
    · exact hcross a ha b hb

theorem emplace_perm (m : MultiMap K V cmp) (k : K) (v : V) :
    (m.emplace k v).entries.Perm ((k, v) :: m.entries) := by
  rw [← upTo_append_beyond m k]
  exact perm_middle

end

/-- The first entry of `equal_range` with some value is erased. -/
def eraseFirst (m : MultiMap K V cmp) (k : K) (p : V → Bool) : MultiMap K V cmp where
  entries := m.entries.eraseP fun e => cmp e.1 k == .eq && p e.2
  sorted := m.sorted.sublist eraseP_sublist

/-- If one entry only has such a value, and an equivalent key, the others stay. -/
theorem eraseFirst_perm {m : MultiMap K V cmp} {p : V → Bool} {rest : List (K × V)}
    (hentries : m.entries.Perm (e :: rest)) (hkey : cmp e.1 k = .eq) (hvalue : p e.2 = true)
    (hother : ∀ e' ∈ rest, p e'.2 = false) : (m.eraseFirst k p).entries.Perm rest := by
  have hmem : e ∈ m.entries := hentries.symm.subset mem_cons_self
  obtain ⟨a, l, l', -, ha, hsplit, herase⟩ := exists_of_eraseP
    (p := fun e : K × V => cmp e.1 k == .eq && p e.2) hmem (by simp [hkey, hvalue])
  have hperm : (a :: (l ++ l')).Perm (e :: rest) := by
    refine List.Perm.trans ?_ hentries
    rw [hsplit]
    exact perm_middle.symm
  have haValue : p a.2 = true := by
    have hboth : (cmp a.1 k == .eq) = true ∧ p a.2 = true := by simpa using ha
    exact hboth.2
  have haEq : a = e := by
    rcases mem_cons.mp (hperm.subset mem_cons_self) with heq | hrest
    · exact heq
    · rw [hother a hrest] at haValue
      cases haValue
  have hrest : (m.eraseFirst k p).entries = l ++ l' := herase
  rw [haEq] at hperm
  rw [hrest]
  exact hperm.cons_inv

end MultiMap

end TitanGC.Lib.MultiMaps
