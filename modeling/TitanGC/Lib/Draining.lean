import Mathlib.Data.List.Perm.Basic
import Mathlib.Tactic

/-!
# Draining sources

A source gives one item after the other. Several sources are merged through a
priority queue, which hands out one of its least elements; which one among equals is
left open. Draining the merge gives every item of every source, each source in its own
order, and sorted if the sources are.
-/

namespace TitanGC.Lib.Draining

open List

variable {σ α : Type}

/-- What a source shows now, if anything, and the source that comes next. -/
structure Source (σ α : Type) where
  item : σ → Option α
  next : σ → σ

/-- Draining the source gives the list. -/
inductive Source.Yields (S : Source σ α) : σ → List α → Prop
  | done {s} (hitem : S.item s = none) : Yields S s []
  | more {s a l} (hitem : S.item s = some a) (hnext : Yields S (S.next s) l) : Yields S s (a :: l)

variable {S : Source σ α}

theorem Source.Yields.item_eq {s : σ} {l : List α} (h : S.Yields s l) : S.item s = l.head? := by
  cases h with
  | done hitem => exact hitem
  | more hitem _ => exact hitem

/-- Draining the source gives the list and leaves the source it ends in. -/
inductive Source.Drains (S : Source σ α) : σ → List α → σ → Prop
  | done {s} (hitem : S.item s = none) : Drains S s [] s
  | more {s a l t} (hitem : S.item s = some a) (hnext : Drains S (S.next s) l t) : Drains S s (a :: l) t

/-- Taking the items of the list leads from one source to the other. -/
inductive Source.Leads (S : Source σ α) : σ → List α → σ → Prop
  | refl {s} : Leads S s [] s
  | step {s a l t} (hitem : S.item s = some a) (hnext : Leads S (S.next s) l t) : Leads S s (a :: l) t

theorem Source.Leads.drains {s t u : σ} {l l' : List α} (h : S.Leads s l t) (h' : S.Drains t l' u) :
    S.Drains s (l ++ l') u := by
  induction h with
  | refl => exact h'
  | step hitem _ ih => exact .more hitem (ih h')

/-- What drains a source goes through every source it leads to. -/
theorem Source.Leads.of_drains {s t u : σ} {l l' : List α} (h : S.Leads s l t)
    (h' : S.Drains s l' u) : ∃ rest, l' = l ++ rest ∧ S.Drains t rest u := by
  induction h generalizing l' with
  | refl => exact ⟨l', rfl, h'⟩
  | step hitem _ ih =>
    cases h' with
    | done hnone =>
      rw [hitem] at hnone
      cases hnone
    | more hitem' hnext' =>
      rw [hitem] at hitem'
      cases hitem'
      obtain ⟨rest, rfl, hrest⟩ := ih hnext'
      exact ⟨rest, rfl, hrest⟩

/-- A source that another one simulates yields what that one yields. -/
theorem Source.Yields.of_simulation {τ : Type} {T : Source τ α} {R : σ → τ → Prop}
    (hitem : ∀ {s t}, R s t → S.item s = T.item t)
    (hnext : ∀ {s t}, R s t → R (S.next s) (T.next t)) {s : σ} {t : τ} {l : List α}
    (h : T.Yields t l) (hR : R s t) : S.Yields s l := by
  induction h generalizing s with
  | done hnone => exact .done ((hitem hR).trans hnone)
  | more hsome _ ih => exact .more ((hitem hR).trans hsome) (ih (hnext hR))

/-- Sources that each have something left, with what they yield. -/
abbrev Source.Waiting (S : Source σ α) : List σ → List (List α) → Prop :=
  List.Forall₂ fun s l => S.Yields s l ∧ l ≠ []

variable {queue : List σ}

/-- A source joins those that wait, unless it has ended. -/
theorem Source.Yields.join {s : σ} {l : List α} (h : S.Yields s l) {ls : List (List α)}
    (hqueue : S.Waiting queue ls) :
    S.Waiting (if (S.item s).isSome then s :: queue else queue)
      ([l].filter (!·.isEmpty) ++ ls) := by
  rw [h.item_eq]
  cases l with
  | nil => exact hqueue
  | cons a l => exact .cons ⟨h, cons_ne_nil a l⟩ hqueue

/-- A list that waits is that of a source, which shows its first item. -/
theorem Source.Waiting.exists_source {ls : List (List α)} (h : S.Waiting queue ls) {l : List α}
    (hl : l ∈ ls) : ∃ s ∈ queue, ∃ a k, l = a :: k ∧ S.item s = some a := by
  induction h with
  | nil => exact absurd hl not_mem_nil
  | @cons s l' _ _ hhead _ ih =>
    rcases mem_cons.mp hl with rfl | hl
    · obtain ⟨a, k, rfl⟩ := exists_cons_of_ne_nil hhead.2
      exact ⟨s, mem_cons_self, a, k, rfl, hhead.1.item_eq⟩
    · obtain ⟨s, hs, hrest⟩ := ih hl
      exact ⟨s, mem_cons_of_mem _ hs, hrest⟩

/-- A priority queue. `pop` removes an element that comes after no other. -/
structure PriorityQueue (σ : Type) (after : σ → σ → Prop) where
  pop : List σ → Option (σ × List σ)
  pop_nil : pop [] = none
  pop_cons : ∀ x xs, ∃ y rest, pop (x :: xs) = some (y, rest) ∧ (x :: xs).Perm (y :: rest) ∧
    ∀ z ∈ rest, ¬ after y z

def PriorityQueue.sorting (le : σ → σ → Bool) (htrans : ∀ a b c, le a b → le b c → le a c)
    (htotal : ∀ a b, le a b || le b a) : PriorityQueue σ fun a b => le a b = false where
  pop xs := match xs.mergeSort le with
    | [] => none
    | y :: rest => some (y, rest)
  pop_nil := by rw [mergeSort_nil]
  pop_cons x xs := by
    have hperm := mergeSort_perm (x :: xs) le
    have hsorted := pairwise_mergeSort htrans htotal (x :: xs)
    cases hsort : (x :: xs).mergeSort le with
    | nil => exact absurd (hsort ▸ hperm).symm.eq_nil (cons_ne_nil x xs)
    | cons y rest =>
      rw [hsort] at hperm hsorted
      refine ⟨y, rest, rfl, hperm.symm, fun z hz hle => ?_⟩
      rw [(pairwise_cons.mp hsorted).1 z hz] at hle
      exact Bool.noConfusion hle

/-- The same queue, with its order said in another way. -/
def PriorityQueue.congr {after after' : σ → σ → Prop} (Q : PriorityQueue σ after)
    (h : ∀ a b, after' a b → after a b) : PriorityQueue σ after' where
  pop := Q.pop
  pop_nil := Q.pop_nil
  pop_cons x xs := by
    obtain ⟨y, rest, hpop, hperm, hleast⟩ := Q.pop_cons x xs
    exact ⟨y, rest, hpop, hperm, fun z hz hafter => hleast z hz (h y z hafter)⟩

/-! ## Merging -/

/-- The source shown now, and those that wait. -/
structure Merging (σ : Type) where
  current : Option σ
  queue : List σ

variable {ls ls' : List (List α)}

section

variable (S : Source σ α) {after : σ → σ → Prop} (Q : PriorityQueue σ after)

def Merging.select (queue : List σ) : Merging σ :=
  match Q.pop queue with
  | none => ⟨none, []⟩
  | some (s, rest) => ⟨some s, rest⟩

def Merging.advance (m : Merging σ) : Merging σ :=
  match m.current with
  | none => m
  | some s =>
    let s := S.next s
    Merging.select Q (if (S.item s).isSome then s :: m.queue else m.queue)

def Merging.source : Source (Merging σ) α where
  item m := m.current.bind S.item
  next m := m.advance S Q

variable {S}

/-- The items of the lists, those of each list in their order. They are sorted by any order
that the lists are sorted by and that says of two sources which comes first. -/
structure Merged (S : Source σ α) (after : σ → σ → Prop) (ls : List (List α)) (l : List α) : Prop where
  perm : l.Perm ls.flatten
  sublist : ∀ k ∈ ls, k.Sublist l
  sorted : ∀ le : α → α → Prop, (∀ a b c, le a b → le b c → le a c) →
    (∀ s t a b, S.item s = some a → S.item t = some b → ¬ after s t → le a b) →
    (∀ k ∈ ls, k.Pairwise le) → l.Pairwise le

theorem Merged.of_perm {l : List α} (h : Merged S after ls l) (hls : ls.Perm ls') :
    Merged S after ls' l where
  perm := h.perm.trans hls.flatten
  sublist k hk := h.sublist k (hls.mem_iff.mpr hk)
  sorted le htrans hafter hsorted := h.sorted le htrans hafter fun k hk => hsorted k (hls.mem_iff.mp hk)

/-- Lists that are empty do not matter. -/
theorem Merged.of_filter {l : List α} (h : Merged S after (ls.filter (!·.isEmpty) ++ ls') l) :
    Merged S after (ls ++ ls') l where
  perm := by
    rw [flatten_append, ← flatten_filter_not_isEmpty, ← flatten_append]
    exact h.perm
  sublist k hk := by
    cases k with
    | nil => exact nil_sublist l
    | cons a k =>
      refine h.sublist _ (mem_append.mpr ((mem_append.mp hk).imp_left fun hk => ?_))
      exact mem_filter.mpr ⟨hk, rfl⟩
  sorted le htrans hafter hsorted := by
    refine h.sorted le htrans hafter fun k hk => hsorted k ?_
    exact mem_append.mpr ((mem_append.mp hk).imp_left mem_of_mem_filter)

/-- The source that is selected shows the first item. -/
theorem Merged.cons {s : σ} {a : α} {k l : List α} {ks : List (List α)}
    (h : Merged S after (k :: ks) l) (hitem : S.item s = some a) (hwaits : S.Waiting queue ks)
    (hleast : ∀ t ∈ queue, ¬ after s t) : Merged S after ((a :: k) :: ks) (a :: l) where
  perm := h.perm.cons a
  sublist := forall_mem_cons.mpr ⟨(h.sublist k mem_cons_self).cons_cons a,
    fun k' hk' => (h.sublist k' (mem_cons_of_mem _ hk')).cons a⟩
  sorted le htrans hafter hsorted := by
    obtain ⟨hhead, hrest⟩ := forall_mem_cons.mp hsorted
    obtain ⟨hfirst, hk⟩ := pairwise_cons.mp hhead
    refine pairwise_cons.mpr ⟨fun b hb => ?_, h.sorted le htrans hafter
      (forall_mem_cons.mpr ⟨hk, hrest⟩)⟩
    rcases mem_append.mp (h.perm.mem_iff.mp hb) with hb | hb
    · exact hfirst b hb
    · -- an item of another source is not before the first of that source
      obtain ⟨k', hk', hb⟩ := mem_flatten.mp hb
      obtain ⟨t, ht, c, k'', rfl, hc⟩ := Source.Waiting.exists_source hwaits hk'
      have hac := hafter s t a c hitem hc (hleast t ht)
      rcases mem_cons.mp hb with rfl | hb
      · exact hac
      · exact htrans a c b hac ((pairwise_cons.mp (hrest _ hk')).1 b hb)

/-- Selecting from sources that each have something left, and draining from there on. -/
theorem Merging.select_yields {ls : List (List α)} (h : S.Waiting queue ls) :
    ∃ l, Merged S after ls l ∧ (Merging.source S Q).Yields (Merging.select Q queue) l := by
  -- by the number of items left
  induction hn : ls.flatten.length generalizing queue ls with
  | zero =>
    cases h with
    | nil =>
      refine ⟨[], ⟨.nil, forall_mem_nil _, fun _ _ _ _ => .nil⟩, .done ?_⟩
      simp [Merging.select, Q.pop_nil, Merging.source]
    | cons hhead _ =>
      rw [flatten_cons, length_append] at hn
      exact absurd (length_eq_zero_iff.mp (by omega)) hhead.2
  | succ n ih =>
    cases h with
    | nil => simp at hn
    | @cons x l xs ls hhead htail =>
      obtain ⟨s, rest, hpop, hperm, hleast⟩ := Q.pop_cons x xs
      obtain ⟨ls', hall, hls⟩ := perm_comp_forall₂ hperm.symm (.cons hhead htail)
      rw [← hls.flatten.length_eq] at hn
      cases hall with
      | @cons _ k _ ks hs hrest =>
        obtain ⟨hyields, hne⟩ := hs
        cases hyields with
        | done _ => exact absurd rfl hne
        | @more _ a k hitem hnext =>
          have hselect : Merging.select Q (x :: xs) = ⟨some s, rest⟩ := by
            rw [Merging.select, hpop]
          rw [flatten_cons, cons_append, length_cons] at hn
          have hflat : ([k].filter (!·.isEmpty) ++ ks).flatten = k ++ ks.flatten := by
            rw [flatten_append, flatten_filter_not_isEmpty, flatten_singleton]
          obtain ⟨l', hl', hyields'⟩ := ih (hnext.join hrest) (by rw [hflat]; omega)
          refine ⟨a :: l', (hl'.of_filter.cons hitem hrest hleast).of_perm hls, ?_⟩
          rw [hselect]
          exact .more hitem hyields'

end

end TitanGC.Lib.Draining
