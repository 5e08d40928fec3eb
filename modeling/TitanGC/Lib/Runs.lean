import Mathlib.Algebra.Group.Nat.Defs
import Mathlib.Algebra.Group.Pi.Basic
import Mathlib.Logic.Relation

/-!
# Runs of a step relation

A run is the reflexive transitive closure of a step relation. An invariant that
every step keeps holds at the end of every run that starts with it. Where the
steps are operations of a function, a run is a list of them, and `Along` says
that each meets a condition in the state it starts from.
-/

namespace TitanGC.Lib.Runs

open Relation

variable {S : Type*} {Step : S → S → Prop}

theorem run_invariant (Inv : S → Prop) (hstep : ∀ s t, Inv s → Step s t → Inv t)
    {s t : S} (hrun : ReflTransGen Step s t) (hs : Inv s) : Inv t := by
  induction hrun with
  | refl => exact hs
  | tail _ h ih => exact hstep _ _ ih h

section

variable {A : Type*} (exec : S → A → S)

def Along (P : S → A → Prop) : S → List A → Prop
  | _, [] => True
  | s, a :: as => P s a ∧ Along P (exec s a) as

variable {exec} {P : S → A → Prop} {s : S} {as : List A} {Q : S → Prop}

theorem along_append {bs : List A} :
    Along exec P s (as ++ bs) ↔ Along exec P s as ∧ Along exec P (as.foldl exec s) bs := by
  induction as generalizing s with
  | nil => exact ⟨fun h => ⟨trivial, h⟩, fun h => h.2⟩
  | cons a as ih =>
    rw [List.cons_append, Along, Along, ih, and_assoc]
    rfl

theorem Along.append {bs : List A} (h : Along exec P s as) (h' : Along exec P (as.foldl exec s) bs) :
    Along exec P s (as ++ bs) :=
  along_append.mpr ⟨h, h'⟩

/-- What an invariant gives in each state is met along every run. -/
theorem along_of_invariant (Inv : S → Prop) (hstep : ∀ s a, Inv s → Inv (exec s a))
    (hP : ∀ s a, Inv s → P s a) (hs : Inv s) (as : List A) : Along exec P s as := by
  induction as generalizing s with
  | nil => trivial
  | cons a as ih => exact ⟨hP s a hs, ih (hstep s a hs)⟩

/-- What an invariant and the condition give at each operation. -/
theorem Along.imp (Inv : S → Prop) {Q : S → A → Prop} (hstep : ∀ s a, Inv s → P s a → Inv (exec s a))
    (hQ : ∀ s a, Inv s → P s a → Q s a) (hs : Inv s) (h : Along exec P s as) : Along exec Q s as := by
  induction as generalizing s with
  | nil => trivial
  | cons a as ih => exact ⟨hQ s a hs h.1, ih (hstep s a hs h.1) h.2⟩

theorem foldl_invariant (Inv : S → Prop) (hstep : ∀ s a, Inv s → P s a → Inv (exec s a)) (hs : Inv s)
    (h : Along exec P s as) : Inv (as.foldl exec s) := by
  induction as generalizing s with
  | nil => exact hs
  | cons a as ih => exact ih (hstep s a hs h.1) h.2

/-! ### Sums along a run -/

section

variable {M : Type*} [AddMonoid M]

variable (exec) in
/-- What the operations of a run cost together. -/
def sumAlong (cost : S → A → M) : S → List A → M
  | _, [] => 0
  | s, a :: as => cost s a + sumAlong cost (exec s a) as

/-- An invariant that has the cost so far as a parameter. -/
theorem foldl_invariant_sum (Inv : M → S → Prop) (cost : S → A → M) {P : S → A → Prop}
    (hstep : ∀ m s a, Inv m s → P s a → Inv (m + cost s a) (exec s a)) {m : M} {s : S} (hs : Inv m s)
    {as : List A} (h : Along exec P s as) : Inv (m + sumAlong exec cost s as) (as.foldl exec s) := by
  induction as generalizing m s with
  | nil =>
    rw [sumAlong, add_zero]
    exact hs
  | cons a as ih =>
    rw [sumAlong, ← add_assoc]
    exact ih (hstep m s a hs h.1) h.2

theorem sumAlong_apply {I : Type*} (cost : S → A → I → M) (s : S) (as : List A) (i : I) :
    sumAlong exec cost s as i = sumAlong exec (fun s a => cost s a i) s as := by
  induction as generalizing s with
  | nil => rfl
  | cons a as ih =>
    rw [sumAlong, sumAlong, Pi.add_apply, ih]

theorem sumAlong_eq_zero {cost : S → A → ℕ} {s : S} {as : List A} :
    sumAlong exec cost s as = 0 ↔ Along exec (fun s a => cost s a = 0) s as := by
  induction as generalizing s with
  | nil => exact ⟨fun _ => trivial, fun _ => rfl⟩
  | cons a as ih =>
    rw [sumAlong, Nat.add_eq_zero_iff, ih]
    rfl

end

variable (exec) in
/-- `Q` holds at the start and after every operation. -/
def Always (Q : S → Prop) : S → List A → Prop
  | s, [] => Q s
  | s, a :: as => Q s ∧ Always Q (exec s a) as

theorem Always.first (h : Always exec Q s as) : Q s := by
  cases as with
  | nil => exact h
  | cons a as => exact h.1

theorem Always.last (h : Always exec Q s as) : Q (as.foldl exec s) := by
  induction as generalizing s with
  | nil => exact h
  | cons a as ih => exact ih h.2

theorem Along.always (Inv : S → Prop) (hstep : ∀ s a, Inv s → P s a → Inv (exec s a))
    (hQ : ∀ s, Inv s → Q s) (hs : Inv s) (h : Along exec P s as) : Always exec Q s as := by
  induction as generalizing s with
  | nil => exact hQ s hs
  | cons a as ih => exact ⟨hQ s hs, ih (hstep s a hs h.1) h.2⟩

/-- In a run whose operations meet `G`: where an invariant that gives `Q` is kept by the
operations that meet `P`, and an operation that does not meet `P` breaks `Q`, `P` along
the run is exactly what keeps `Q` throughout. -/
theorem always_iff_along_within (Inv : S → Prop) {G : S → A → Prop}
    (hstep : ∀ s a, Inv s → G s a → P s a → Inv (exec s a)) (hQ : ∀ s, Inv s → Q s)
    (hbreak : ∀ s a, Inv s → G s a → Q (exec s a) → P s a) (hs : Inv s) (hG : Along exec G s as) :
    Always exec Q s as ↔ Along exec P s as := by
  induction as generalizing s with
  | nil => exact ⟨fun _ => trivial, fun _ => hQ s hs⟩
  | cons a as ih =>
    constructor
    · intro h
      have hP := hbreak s a hs hG.1 h.2.first
      exact ⟨hP, (ih (hstep s a hs hG.1 hP) hG.2).1 h.2⟩
    · intro h
      exact ⟨hQ s hs, (ih (hstep s a hs hG.1 h.1) hG.2).2 h.2⟩

theorem always_iff_along (Inv : S → Prop) (hstep : ∀ s a, Inv s → P s a → Inv (exec s a))
    (hQ : ∀ s, Inv s → Q s) (hbreak : ∀ s a, Inv s → Q (exec s a) → P s a) (hs : Inv s) :
    Always exec Q s as ↔ Along exec P s as := by
  have htrue : Along exec (fun _ _ => True) s as :=
    along_of_invariant (fun _ => True) (fun _ _ h => h) (fun _ _ h => h) trivial as
  exact always_iff_along_within Inv (fun s a h _ => hstep s a h) hQ (fun s a h _ => hbreak s a h) hs htrue

end

end TitanGC.Lib.Runs
