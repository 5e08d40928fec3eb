import Mathlib.Tactic

/-!
# Version histories with relocations

The history of one key, newest version first, over arbitrary types of values
`V`, addresses `I` and locations `L`. A version is an inline value, the address
of a stored value, or a *relocation*: a new address together with the location
it was copied from. A relocation is meant only if the older versions still lead
to that location; `resolve` says which value or address the history stands for.
-/

namespace TitanGC.Lib.Relocation

universe u v w

inductive Version (V : Type u) (I : Type v) (L : Type w) where
  | value (v : V)
  | plain (i : I)
  | moved (i : I) (old : L)
  deriving Repr, DecidableEq

/-- What a version stands for once it is read. -/
inductive Target (V : Type u) (I : Type v) where
  | value (v : V)
  | address (i : I)
  deriving Repr, DecidableEq

variable {V : Type u} {I : Type v} {L : Type w} (i : I) (o : L) {x : Version V I L}

namespace Version

/-- The address a version brings into the history. -/
def own : Version V I L → Option I
  | value _ => none
  | plain i => some i
  | moved i _ => some i

def isValue : Version V I L → Bool
  | value _ => true
  | _ => false

def isMoved : Version V I L → Bool
  | moved _ _ => true
  | _ => false

def denote : Version V I L → Target V I
  | value v => .value v
  | plain i => .address i
  | moved i _ => .address i

@[simp] theorem own_value (v : V) : (value v : Version V I L).own = none := rfl
@[simp] theorem own_plain : (plain i : Version V I L).own = some i := rfl
@[simp] theorem own_moved : (moved i o : Version V I L).own = some i := rfl
@[simp] theorem isValue_value (v : V) : (value v : Version V I L).isValue = true := rfl
@[simp] theorem isValue_plain : (plain i : Version V I L).isValue = false := rfl
@[simp] theorem isValue_moved : (moved i o : Version V I L).isValue = false := rfl
@[simp] theorem isMoved_value (v : V) : (value v : Version V I L).isMoved = false := rfl
@[simp] theorem isMoved_plain : (plain i : Version V I L).isMoved = false := rfl
@[simp] theorem isMoved_moved : (moved i o : Version V I L).isMoved = true := rfl

theorem exists_own_of_not_value (h : x.isValue = false) : ∃ i, x.own = some i := by
  cases x <;> simp_all

end Version

open Version

def owns (xs : List (Version V I L)) : List I := xs.filterMap own

@[simp] theorem owns_nil : owns ([] : List (Version V I L)) = [] := rfl

theorem owns_cons (x : Version V I L) (xs : List (Version V I L)) :
    owns (x :: xs) = x.own.toList ++ owns xs := by
  cases h : x.own <;> simp [owns, h]

variable {xs : List (Version V I L)}

theorem mem_owns {i : I} : i ∈ owns xs ↔ ∃ x ∈ xs, x.own = some i := by
  simp [owns]

/-- A history is complete when its oldest version is not a relocation. -/
def Complete (xs : List (Version V I L)) : Prop :=
  ∃ x, xs.getLast? = some x ∧ x.isMoved = false

theorem Complete.tail {x y : Version V I L} (h : Complete (x :: y :: xs)) : Complete (y :: xs) := by
  simpa [Complete] using h

theorem not_complete_moved : ¬ Complete [(moved i o : Version V I L)] := by
  simp [Complete]

def firstValue : List (Version V I L) → Option V
  | [] => none
  | .value v :: _ => some v
  | _ :: rest => firstValue rest

theorem firstValue_eq_none_iff : firstValue xs = none ↔ ∀ x ∈ xs, x.isValue = false := by
  induction xs with
  | nil => simp [firstValue]
  | cons x xs ih => cases x <;> simp [firstValue, ih]

variable {ys : List (Version V I L)}

theorem firstValue_append_of_none (h : firstValue xs = none) :
    firstValue (xs ++ ys) = firstValue ys := by
  induction xs with
  | nil => rfl
  | cons x xs ih => cases x <;> simp_all [firstValue]

theorem firstValue_append_of_some {v : V} (h : firstValue xs = some v) :
    firstValue (xs ++ ys) = some v := by
  induction xs with
  | nil => simp [firstValue] at h
  | cons x xs ih => cases x <;> simp_all [firstValue]

section

variable [DecidableEq L] (loc : I → L)

/-- A relocation counts only if the older versions resolve to its old location. -/
def resolve : List (Version V I L) → Option (Target V I)
  | [] => none
  | .value v :: _ => some (.value v)
  | plain i :: _ => some (.address i)
  | moved i old :: rest =>
    match resolve rest with
    | some (.address j) => some (.address (if loc j = old then i else j))
    | r => r

/-- The history resolves to an address at location `l`. -/
def ResolvesAt (xs : List (Version V I L)) (l : L) : Prop :=
  ∃ j, resolve loc xs = some (.address j) ∧ loc j = l

/-- Each leading relocation was copied from the address of the version below it. -/
def LeadLinked : List (Version V I L) → Prop
  | moved _ old :: x :: rest => (∃ j, x.own = some j ∧ loc j = old) ∧ LeadLinked (x :: rest)
  | [moved _ _] => False
  | _ => True

theorem resolve_moved_of_at {i : I} {old : L} (h : ResolvesAt loc xs old) :
    resolve loc (moved i old :: xs) = some (.address i) := by
  obtain ⟨j, hj, hl⟩ := h
  simp [resolve, hj, hl]

theorem resolve_address_mem {j : I} (h : resolve loc xs = some (.address j)) : j ∈ owns xs := by
  induction xs generalizing j with
  | nil => simp [resolve] at h
  | cons x xs ih =>
    cases x with
    | value v => simp [resolve] at h
    | plain i => simp_all [resolve, owns]
    | moved i old =>
      simp only [resolve] at h
      split at h
      · rename_i k hk
        have hk' := ih hk
        simp only [Option.some.injEq, Target.address.injEq] at h
        rw [owns_cons]
        split at h <;> simp_all
      · rw [owns_cons]
        exact List.mem_append_right _ (ih h)

/-- The newest version that is not a relocation is an inline value. -/
def LeadsToValue (xs : List (Version V I L)) : Prop :=
  ∃ ws v rest, xs = ws ++ .value v :: rest ∧ ∀ w ∈ ws, w.isMoved = true

/-- Relocations above an inline value never count. -/
theorem resolve_value_iff : (∃ v, resolve loc xs = some (.value v)) ↔ LeadsToValue xs := by
  induction xs with
  | nil => simp [resolve, LeadsToValue]
  | cons x xs ih =>
    cases x with
    | value v =>
      refine ⟨fun _ => ⟨[], v, xs, rfl, by simp⟩, fun _ => ⟨v, rfl⟩⟩
    | plain i =>
      refine ⟨fun ⟨v, hv⟩ => by simp [resolve] at hv, fun ⟨ws, v, rest, hs, hw⟩ => ?_⟩
      cases ws with
      | nil => simp at hs
      | cons w ws =>
        obtain ⟨rfl, -⟩ := List.cons.inj hs
        simpa using hw _ List.mem_cons_self
    | moved i old =>
      have hstep : (∃ v, resolve loc (moved i old :: xs) = some (.value v)) ↔
          ∃ v, resolve loc xs = some (.value v) := by
        cases hr : resolve loc xs with
        | none => simp [resolve, hr]
        | some t => cases t <;> simp [resolve, hr]
      rw [hstep, ih]
      constructor
      · rintro ⟨ws, v, rest, rfl, hw⟩
        exact ⟨moved i old :: ws, v, rest, rfl, by simpa using hw⟩
      · rintro ⟨ws, v, rest, hs, hw⟩
        cases ws with
        | nil => simp at hs
        | cons w ws =>
          obtain ⟨-, rfl⟩ := List.cons.inj hs
          exact ⟨ws, v, rest, rfl, fun w hw' => hw w (List.mem_cons_of_mem _ hw')⟩

theorem firstValue_of_resolve {v : V} (hr : resolve loc xs = some (.value v)) : firstValue xs = some v := by
  induction xs with
  | nil => simp [resolve] at hr
  | cons x xs ih =>
    cases x with
    | value w => simpa [resolve, firstValue] using hr
    | plain i => simp [resolve] at hr
    | moved i old =>
      refine ih ?_
      cases h : resolve loc xs with
      | none => simp [resolve, h] at hr
      | some t => cases t <;> simp_all [resolve]

/-- A complete history always resolves. -/
theorem resolve_isSome (hc : Complete xs) : (resolve loc xs).isSome := by
  induction xs with
  | nil => simp [Complete] at hc
  | cons x xs ih =>
    cases x with
    | value v => rfl
    | plain i => rfl
    | moved i old =>
      cases xs with
      | nil => exact absurd hc (not_complete_moved i old)
      | cons y ys =>
        have h := ih hc.tail
        cases hr : resolve loc (y :: ys) with
        | none => simp [hr] at h
        | some t => cases t <;> simp [resolve, hr]

/-- Over a complete history without inline values an address always results. -/
theorem resolve_of_complete (hc : Complete xs) (hn : firstValue xs = none) :
    ∃ j, resolve loc xs = some (.address j) := by
  obtain ⟨t, ht⟩ := Option.isSome_iff_exists.mp (resolve_isSome loc hc)
  cases t with
  | value v => rw [firstValue_of_resolve loc ht] at hn; cases hn
  | address j => exact ⟨j, ht⟩

/-- Down a linked chain of relocations the newest address is the one meant. -/
theorem resolve_of_leadLinked {i : I} (h : LeadLinked loc (x :: xs)) (hx : x.own = some i) :
    resolve loc (x :: xs) = some (.address i) := by
  induction xs generalizing x i with
  | nil => cases x <;> simp_all [LeadLinked, resolve]
  | cons y ys ih =>
    cases x with
    | value v => simp at hx
    | plain j => simp_all [resolve]
    | moved j old =>
      obtain ⟨⟨k, hk, hl⟩, htail⟩ := h
      simp only [own_moved, Option.some.injEq] at hx
      subst hx
      exact resolve_moved_of_at loc ⟨k, ih htail hk, hl⟩

end

end TitanGC.Lib.Relocation
