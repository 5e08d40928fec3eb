import Mathlib.Algebra.Group.Defs
import Mathlib.Logic.Function.Basic
import Mathlib.Tactic

/-!
# Ordered maps

A map is the list of its entries in the order of their keys. `alter` changes or
inserts one entry. `Totals` says that a map holds, for some keys, the total of what
was added up for each; the totals are taken in a monoid and stored through `val`,
which may lose part of them (a machine integer).
-/

namespace TitanGC.Lib.OrderedMap

open List Function

variable {K V M A : Type*} [LT K] [DecidableLT K] [DecidableEq K]

/-- The map with the value at `k` changed; `f` gets the value that is there. -/
def alter (k : K) (f : Option V → V) : List (K × V) → List (K × V)
  | [] => [(k, f none)]
  | (k', v) :: m =>
    if k < k' then (k, f none) :: (k', v) :: m
    else if k = k' then (k', f (some v)) :: m
    else (k', v) :: alter k f m

def set (k : K) (v : V) (m : List (K × V)) : List (K × V) := alter k (fun _ => v) m

/-- `m[k] += v`; a key that is not there starts at zero. -/
def add [Add V] (k : K) (v : V) (m : List (K × V)) : List (K × V) :=
  alter k (fun o => o.elim v (· + v)) m

def Ordered (m : List (K × V)) : Prop := m.Pairwise fun a b => a.1 < b.1

variable {m : List (K × V)}

section

omit [DecidableLT K] [LT K]

theorem lookup_cons_of_ne {k k' : K} (h : k ≠ k') (v : V) :
    ((k', v) :: m).lookup k = m.lookup k := by
  rw [lookup_cons, beq_false_of_ne h]

theorem lookup_eq_none {k : K} : m.lookup k = none ↔ ∀ p ∈ m, p.1 ≠ k := by
  induction m with
  | nil => simp
  | cons p m ih =>
    obtain ⟨k', v⟩ := p
    by_cases h : k = k'
    · simp [h]
    · rw [lookup_cons_of_ne h, ih, forall_mem_cons]
      exact ⟨fun hm => ⟨Ne.symm h, hm⟩, fun hm => hm.2⟩

end

variable {val : M → V} {keys : K → Prop}

section

variable [LE K] [Std.IsLinearOrder K] [Std.LawfulOrderLT K] {m : List (K × V)}

omit [DecidableLT K] [DecidableEq K] [Std.IsLinearOrder K] in
theorem nodup_keys (hm : Ordered m) : (m.map (·.1)).Nodup := by
  rw [List.Nodup, pairwise_map]
  refine hm.imp fun {a b} h heq => ?_
  rw [heq] at h
  exact Std.lt_irrefl h

omit [DecidableLT K] [Std.IsLinearOrder K] in
theorem mem_iff_lookup (hm : Ordered m) {k : K} {v : V} : (k, v) ∈ m ↔ m.lookup k = some v := by
  induction m with
  | nil => simp
  | cons p m ih =>
    obtain ⟨k', v'⟩ := p
    obtain ⟨hfirst, hrest⟩ := pairwise_cons.mp hm
    by_cases h : k = k'
    · subst h
      have hnot : ∀ w, (k, w) ∉ m := fun w hw => Std.lt_irrefl (hfirst (k, w) hw)
      rw [lookup_cons_self, mem_cons]
      constructor
      · intro hmem
        rcases hmem with heq | hmem
        · cases heq
          rfl
        · exact absurd hmem (hnot v)
      · intro heq
        cases heq
        exact .inl rfl
    · rw [lookup_cons_of_ne h, ← ih hrest, mem_cons]
      refine ⟨fun hmem => hmem.resolve_left fun heq => h (congrArg Prod.fst heq), .inr⟩

omit [LE K] [Std.IsLinearOrder K] [Std.LawfulOrderLT K] in
theorem key_alter {k : K} {f : Option V → V} {p : K × V} (hp : p ∈ alter k f m) :
    p.1 = k ∨ ∃ q ∈ m, q.1 = p.1 := by
  induction m with
  | nil =>
    rw [alter, mem_singleton] at hp
    exact .inl (congrArg Prod.fst hp)
  | cons q m ih =>
    obtain ⟨k', v⟩ := q
    rw [alter] at hp
    split at hp
    · rcases mem_cons.mp hp with rfl | hp
      · exact .inl rfl
      · exact .inr ⟨p, hp, rfl⟩
    · split at hp
      · rcases mem_cons.mp hp with rfl | hp
        · exact .inr ⟨(k', v), mem_cons_self, rfl⟩
        · exact .inr ⟨p, mem_cons_of_mem _ hp, rfl⟩
      · rcases mem_cons.mp hp with rfl | hp
        · exact .inr ⟨_, mem_cons_self, rfl⟩
        · refine (ih hp).imp_right fun ⟨q, hq, heq⟩ => ⟨q, mem_cons_of_mem _ hq, heq⟩

omit [DecidableLT K] [DecidableEq K] in
theorem lt_of_not_lt_of_ne {a b : K} (hlt : ¬ a < b) (hne : a ≠ b) : b < a :=
  Std.lt_of_le_of_ne (Std.not_lt.mp hlt) (Ne.symm hne)

theorem ordered_alter (hm : Ordered m) (k : K) (f : Option V → V) : Ordered (alter k f m) := by
  induction m with
  | nil => exact pairwise_singleton _ _
  | cons p m ih =>
    obtain ⟨k', v⟩ := p
    obtain ⟨hfirst, hrest⟩ := pairwise_cons.mp hm
    rw [alter]
    split
    · rename_i hlt
      refine pairwise_cons.mpr ⟨fun q hq => ?_, hm⟩
      rcases mem_cons.mp hq with rfl | hq
      · exact hlt
      · exact Std.lt_trans hlt (hfirst q hq)
    · rename_i hlt
      split
      · exact pairwise_cons.mpr ⟨hfirst, hrest⟩
      · rename_i hne
        refine pairwise_cons.mpr ⟨fun q hq => ?_, ih hrest⟩
        rcases key_alter hq with heq | ⟨r, hr, heq⟩
        · rw [heq]
          exact lt_of_not_lt_of_ne hlt hne
        · rw [← heq]
          exact hfirst r hr

theorem lookup_alter (hm : Ordered m) (k : K) (f : Option V → V) (j : K) :
    (alter k f m).lookup j = if j = k then some (f (m.lookup k)) else m.lookup j := by
  induction m with
  | nil =>
    rw [alter]
    by_cases h : j = k
    · rw [if_pos h, h, lookup_cons_self]
      rfl
    · rw [if_neg h, lookup_cons_of_ne h]
  | cons p m ih =>
    obtain ⟨k', v⟩ := p
    obtain ⟨hfirst, hrest⟩ := pairwise_cons.mp hm
    rw [alter]
    split
    · rename_i hlt
      -- the key comes before all others, so the map does not have it
      have hnone : ((k', v) :: m).lookup k = none := by
        refine lookup_eq_none.mpr fun q hq heq => ?_
        rcases mem_cons.mp hq with rfl | hq
        · exact Std.lt_irrefl (heq ▸ hlt)
        · exact Std.lt_irrefl (Std.lt_trans hlt (heq ▸ hfirst q hq))
      rw [hnone]
      by_cases h : j = k
      · rw [if_pos h, h, lookup_cons_self]
      · rw [if_neg h, lookup_cons_of_ne h]
    · split
      · rename_i heq
        subst heq
        by_cases h : j = k
        · rw [if_pos h, h, lookup_cons_self, lookup_cons_self]
        · rw [if_neg h, lookup_cons_of_ne h, lookup_cons_of_ne h]
      · rename_i hne
        rw [lookup_cons_of_ne hne]
        by_cases hj : j = k'
        · subst hj
          rw [lookup_cons_self, lookup_cons_self, if_neg (Ne.symm hne)]
        · rw [lookup_cons_of_ne hj, lookup_cons_of_ne hj, ih hrest]

/-- Setting the entries one after the other gives the map back. -/
theorem foldl_set (hm : Ordered m) : m.foldl (fun m p => set p.1 p.2 m) [] = m := by
  have hlast : ∀ (m : List (K × V)) (p : K × V), (∀ q ∈ m, q.1 < p.1) → set p.1 p.2 m = m ++ [p] := by
    intro m p h
    induction m with
    | nil => rfl
    | cons q m ih =>
      have hq := h q mem_cons_self
      have hlt : ¬ p.1 < q.1 := fun hlt => Std.lt_irrefl (Std.lt_trans hlt hq)
      have hne : p.1 ≠ q.1 := fun heq => Std.lt_irrefl (heq ▸ hq)
      rw [set, alter, if_neg hlt, if_neg hne]
      exact congrArg (q :: ·) (ih fun r hr => h r (mem_cons_of_mem q hr))
  have happend : ∀ rest done : List (K × V), Ordered (done ++ rest) →
      rest.foldl (fun m p => set p.1 p.2 m) done = done ++ rest := by
    intro rest
    induction rest with
    | nil => exact fun done _ => (append_nil done).symm
    | cons p rest ih =>
      intro done hordered
      rw [foldl_cons, hlast done p, ih, append_assoc]
      · rfl
      · rwa [append_assoc]
      · exact fun q hq => (pairwise_append.mp hordered).2.2 q hq p mem_cons_self
  exact happend m [] hm

/-! ## Totals -/

variable [AddCommMonoid M]

/-- The map holds the total of each key in `keys`, through `val`. -/
structure Totals (val : M → V) (keys : K → Prop) (total : K → M) (m : List (K × V)) : Prop where
  ordered : Ordered m
  present : ∀ k, keys k → m.lookup k = some (val (total k))
  absent : ∀ k, ¬ keys k → m.lookup k = none ∧ total k = 0

omit [DecidableLT K] [LE K] [Std.IsLinearOrder K] [Std.LawfulOrderLT K] in
theorem Totals.empty (val : M → V) : Totals (K := K) val (fun _ => False) (fun _ => 0) [] :=
  ⟨List.Pairwise.nil, fun _ h => h.elim, fun _ _ => ⟨rfl, rfl⟩⟩

omit [DecidableLT K] [LE K] [Std.IsLinearOrder K] [Std.LawfulOrderLT K] in
theorem Totals.congr {keys keys' : K → Prop} {total total' : K → M} (h : Totals val keys total m)
    (hkeys : ∀ k, keys k ↔ keys' k) (htotal : ∀ k, total k = total' k) :
    Totals val keys' total' m := by
  obtain rfl : keys = keys' := funext fun k => propext (hkeys k)
  obtain rfl : total = total' := funext htotal
  exact h

/-- Adding to one key. -/
theorem Totals.add [Add V] (hval : ∀ a b, val (a + b) = val a + val b) {total : K → M}
    (h : Totals val keys total m) (k : K) (v : M) :
    Totals val (fun j => keys j ∨ j = k) (fun j => total j + if j = k then v else 0)
      (add k (val v) m) := by
  refine ⟨ordered_alter h.ordered k _, fun j hj => ?_, fun j hj => ?_⟩
  · rw [OrderedMap.add, lookup_alter h.ordered]
    by_cases hjk : j = k
    · subst hjk
      rw [if_pos rfl, if_pos rfl]
      by_cases hkeys : keys j
      · rw [h.present j hkeys, hval]
        rfl
      · rw [(h.absent j hkeys).1, (h.absent j hkeys).2, zero_add]
        rfl
    · rw [if_neg hjk, if_neg hjk, add_zero]
      exact h.present j (hj.resolve_right hjk)
  · push Not at hj
    rw [OrderedMap.add, lookup_alter h.ordered, if_neg hj.2, if_neg hj.2, add_zero]
    exact h.absent j hj.1

/-- Adding every entry of another map, each changed by `f`. -/
theorem Totals.addAll [Add V] {W : Type*} (hval : ∀ a b, val (a + b) = val a + val b)
    {total : K → M} (h : Totals val keys total m) (f : W → M) {p : List (K × W)} (hp : Ordered p) :
    Totals val (fun k => keys k ∨ (p.lookup k).isSome)
      (fun k => total k + ((p.lookup k).map f).getD 0)
      (p.foldl (fun m q => OrderedMap.add q.1 (val (f q.2)) m) m) := by
  induction p generalizing keys total m with
  | nil =>
    refine h.congr (fun k => ?_) (fun k => ?_)
    · simp
    · simp
  | cons q p ih =>
    obtain ⟨k, w⟩ := q
    obtain ⟨hfirst, hrest⟩ := pairwise_cons.mp hp
    have hnone : p.lookup k = none :=
      lookup_eq_none.mpr fun r hr heq => Std.lt_irrefl (heq ▸ hfirst r hr)
    refine (ih (h.add hval k (f w)) hrest).congr (fun j => ?_) (fun j => ?_)
    · by_cases hj : j = k
      · subst hj
        simp
      · simp [lookup_cons_of_ne hj, hj]
    · by_cases hj : j = k
      · subst hj
        simp [hnone]
      · simp [lookup_cons_of_ne hj, hj]

end

omit [LT K] [DecidableLT K] in
/-- A loop over a map that updates a function at each key sees every key once. -/
theorem foldl_update (hm : (m.map (·.1)).Nodup) (f : V → A → A) (g : K → A) (k : K) :
    m.foldl (fun g p => update g p.1 (f p.2 (g p.1))) g k =
      (m.lookup k).elim (g k) fun v => f v (g k) := by
  induction m generalizing g with
  | nil => rfl
  | cons p m ih =>
    obtain ⟨k', v⟩ := p
    rw [map_cons, nodup_cons] at hm
    rw [foldl_cons, ih hm.2]
    by_cases h : k = k'
    · subst h
      have hnone : m.lookup k = none :=
        lookup_eq_none.mpr fun q hq heq => hm.1 (mem_map.mpr ⟨q, hq, heq⟩)
      rw [hnone, lookup_cons_self, update_self]
      rfl
    · rw [lookup_cons_of_ne h, update_of_ne h]

end TitanGC.Lib.OrderedMap
