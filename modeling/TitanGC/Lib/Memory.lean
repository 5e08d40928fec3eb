import TitanGC.Lib.ByteCoding

/-!
# Byte memories

A memory without bounds, for code that reads and writes through pointers. `slice`
reads a run of bytes and `write` stores one; `HasAt` says that a list of bytes
stands at an address. Writes are seen by reads of the same place and by no others.
-/

namespace TitanGC.Lib.Memory

open ByteCoding List Function
open Function (update)

abbrev Mem := Nat → UInt8

variable {m : Mem} {a b n k : Nat} {bs cs : Bytes}

def slice (m : Mem) (a : Nat) : Nat → Bytes
  | 0 => []
  | n + 1 => m a :: slice m (a + 1) n

def write (m : Mem) (a : Nat) : Bytes → Mem
  | [] => m
  | b :: bs => write (update m a b) (a + 1) bs

def ofBytes (bs : Bytes) : Mem := fun i => bs.getD i 0

@[simp] theorem slice_length (m : Mem) (a n : Nat) : (slice m a n).length = n := by
  induction n generalizing a with
  | zero => rfl
  | succ n ih => simp [slice, ih]

theorem slice_append (m : Mem) (a n k : Nat) :
    slice m a (n + k) = slice m a n ++ slice m (a + n) k := by
  induction n generalizing a with
  | zero => simp [slice]
  | succ n ih =>
    rw [Nat.add_right_comm, slice, ih, slice, cons_append]
    congr 3
    omega

theorem slice_congr {m' : Mem} (h : ∀ i, a ≤ i → i < a + n → m i = m' i) :
    slice m a n = slice m' a n := by
  induction n generalizing a with
  | zero => rfl
  | succ n ih =>
    rw [slice, slice, h a le_rfl (by omega), ih fun i hi hlt => h i (by omega) (by omega)]

theorem write_append (m : Mem) (a : Nat) (bs cs : Bytes) :
    write m a (bs ++ cs) = write (write m a bs) (a + bs.length) cs := by
  induction bs generalizing m a with
  | nil => rfl
  | cons b bs ih =>
    rw [cons_append, write, ih, write, length_cons]
    congr 1
    omega

theorem write_of_lt {i : Nat} (h : i < a) : write m a bs i = m i := by
  induction bs generalizing m a with
  | nil => rfl
  | cons b bs ih => rw [write, ih (by omega), update_of_ne (by omega)]

theorem write_of_ge {i : Nat} (h : a + bs.length ≤ i) : write m a bs i = m i := by
  induction bs generalizing m a with
  | nil => rfl
  | cons b bs ih =>
    rw [length_cons] at h
    rw [write, ih (by omega), update_of_ne (by omega)]

theorem slice_write_before (h : b + n ≤ a) : slice (write m a bs) b n = slice m b n :=
  slice_congr fun _ _ hlt => write_of_lt (by omega)

theorem slice_write_after (h : a + bs.length ≤ b) : slice (write m a bs) b n = slice m b n :=
  slice_congr fun _ hle _ => write_of_ge (by omega)

@[simp] theorem slice_write_self (m : Mem) (a : Nat) (bs : Bytes) :
    slice (write m a bs) a bs.length = bs := by
  induction bs generalizing m a with
  | nil => rfl
  | cons b bs ih =>
    rw [length_cons, slice, write, ih, write_of_lt (Nat.lt_succ_self a), update_self]

/-- Writing at the end of what has been written so far appends. -/
theorem slice_write_end (m : Mem) (a : Nat) (bs : Bytes) :
    slice (write m a bs) 0 (a + bs.length) = slice m 0 a ++ bs := by
  rw [slice_append, slice_write_before (by omega), Nat.zero_add, slice_write_self]

theorem update_write_of_lt {x : UInt8} (h : a < b) :
    update (write m b bs) a x = write (update m a x) b bs := by
  induction bs generalizing m b with
  | nil => rfl
  | cons y bs ih => rw [write, write, ih (by omega), update_comm (by omega)]

/-- Writing in front of what was written before. -/
theorem write_prepend (m : Mem) (a : Nat) (bs cs : Bytes) :
    write (write m (a + bs.length) cs) a bs = write m a (bs ++ cs) := by
  induction bs generalizing m a with
  | nil => rfl
  | cons b bs ih =>
    rw [cons_append, write, write, length_cons, update_write_of_lt (by omega), ← ih,
      Nat.add_comm bs.length 1, Nat.add_assoc]

/-- Writing back what is there changes nothing. -/
theorem write_slice_self (m : Mem) (a n : Nat) : write m a (slice m a n) = m := by
  induction n generalizing a with
  | zero => rfl
  | succ n ih => rw [slice, write, update_eq_self, ih]

/-! ## Bytes at an address -/

def HasAt (m : Mem) (a : Nat) (bs : Bytes) : Prop := slice m a bs.length = bs

theorem hasAt_append : HasAt m a (bs ++ cs) ↔ HasAt m a bs ∧ HasAt m (a + bs.length) cs := by
  unfold HasAt
  rw [length_append, slice_append]
  constructor
  · intro h
    exact append_inj h (slice_length _ _ _)
  · rintro ⟨h, h'⟩
    rw [h, h']

theorem hasAt_cons {x : UInt8} : HasAt m a (x :: bs) ↔ m a = x ∧ HasAt m (a + 1) bs := by
  unfold HasAt
  rw [length_cons, slice, List.cons.injEq]

theorem hasAt_write (m : Mem) (a : Nat) (bs : Bytes) : HasAt (write m a bs) a bs :=
  slice_write_self m a bs

theorem getElem_of_hasAt (h : HasAt m a bs) {i : Nat} (hi : i < bs.length) : m (a + i) = bs[i] := by
  induction bs generalizing a i with
  | nil => exact absurd hi (Nat.not_lt_zero i)
  | cons b bs ih =>
    obtain ⟨hb, hrest⟩ := hasAt_cons.mp h
    cases i with
    | zero => exact hb
    | succ i =>
      rw [getElem_cons_succ, ← ih hrest, Nat.add_assoc, Nat.add_comm 1 i]

/-- What a reader finds that looks further than the bytes it knows. -/
theorem slice_of_hasAt (h : HasAt m a bs) (hn : bs.length ≤ n) :
    slice m a n = bs ++ slice m (a + bs.length) (n - bs.length) := by
  obtain ⟨k, rfl⟩ := Nat.exists_eq_add_of_le hn
  rw [slice_append, Nat.add_sub_cancel_left, h]

theorem hasAt_ofBytes (bs : Bytes) : HasAt (ofBytes bs) 0 bs := by
  unfold HasAt
  refine ext_getElem (slice_length _ _ _) fun i hi hi' => ?_
  have hget : ∀ n a i (h : i < (slice (ofBytes bs) a n).length),
      (slice (ofBytes bs) a n)[i] = bs.getD (a + i) 0 := by
    intro n
    induction n with
    | zero => intro a i h; simp [slice] at h
    | succ n ih =>
      intro a i h
      cases i with
      | zero => rfl
      | succ i =>
        simp only [slice, getElem_cons_succ]
        rw [ih]
        congr 1
        omega
  rw [hget, Nat.zero_add, getD_eq_getElem _ _ hi']

end TitanGC.Lib.Memory
