import Mathlib.Data.Nat.Bitwise
import Mathlib.Tactic

/-!
# Byte codings of natural numbers

Base-128 digits with a continuation bit, least significant first, and
fixed-width little-endian numbers, over lists of bytes. The encoders and the
decoders are bounded by a number of digits; a decoder that meets its bound
before a final digit fails. Nothing here refers to a particular file format.
-/

namespace TitanGC.Lib.ByteCoding

open List

abbrev Bytes := List UInt8

/-- At most `n + 1` base-128 digits of `v`; the last digit has its top bit clear. -/
def encodeVarint : Nat → Nat → Bytes
  | 0, v => [UInt8.ofNat v]
  | n + 1, v =>
    if v < 128 then [UInt8.ofNat v]
    else UInt8.ofNat (v % 128 + 128) :: encodeVarint n (v / 128)

/-- Read at most `n` digits, adding each to `acc` at the bit position `shift`. -/
def decodeVarint : Nat → Nat → Nat → Bytes → Option (Nat × Bytes)
  | 0, _, _, _ => none
  | _ + 1, _, _, [] => none
  | n + 1, shift, acc, b :: rest =>
    if b.toNat < 128 then some (acc ||| b.toNat <<< shift, rest)
    else decodeVarint n (shift + 7) (acc ||| (b.toNat % 128) <<< shift) rest

variable (n v : Nat)

theorem encodeVarint_length_pos : 0 < (encodeVarint n v).length := by
  cases n with
  | zero => simp [encodeVarint]
  | succ n => unfold encodeVarint; split <;> simp

theorem encodeVarint_ne_nil : encodeVarint n v ≠ [] :=
  ne_nil_of_length_pos (encodeVarint_length_pos n v)

theorem encodeVarint_length_le : (encodeVarint n v).length ≤ n + 1 := by
  induction n generalizing v with
  | zero => simp [encodeVarint]
  | succ n ih =>
    unfold encodeVarint
    split
    · simp
    · simpa using ih (v / 128)

variable {n v acc shift : Nat}

/-- Only the number zero has a zero byte in its digits. -/
theorem encodeVarint_bytes_ne_zero (hpos : 0 < v) (hv : v < 128 ^ (n + 1)) :
    ∀ b ∈ encodeVarint n v, b ≠ 0 := by
  have hbyte : ∀ m, 0 < m → m < 256 → UInt8.ofNat m ≠ 0 := by
    intro m hm hlt h
    have htoNat := congrArg UInt8.toNat h
    rw [UInt8.toNat_ofNat', Nat.mod_eq_of_lt hlt] at htoNat
    exact Nat.ne_of_gt hm htoNat
  induction n generalizing v with
  | zero =>
    intro b hb
    rw [encodeVarint, mem_singleton] at hb
    exact hb ▸ hbyte v hpos (by omega)
  | succ n ih =>
    intro b hb
    rw [encodeVarint] at hb
    split at hb
    · rw [mem_singleton] at hb
      exact hb ▸ hbyte v hpos (by omega)
    · rcases mem_cons.mp hb with rfl | hb
      · exact hbyte _ (by omega) (by omega)
      · exact ih (Nat.div_pos (by omega) (by decide))
          (Nat.div_lt_of_lt_mul (by rw [Nat.pow_succ] at hv; omega)) b hb

/-- A digit added above all bits already read is an ordinary sum. -/
theorem lor_shiftLeft_eq_add {d : Nat} (hacc : acc < 2 ^ shift) :
    acc ||| d <<< shift = acc + d * 2 ^ shift := by
  rw [Nat.shiftLeft_eq, Nat.lor_comm, Nat.mul_comm d,
    ← Nat.two_pow_add_eq_or_of_lt hacc d, Nat.add_comm]

private theorem add_digit_lt {d : Nat} (hacc : acc < 2 ^ shift) (hd : d < 128) :
    acc + d * 2 ^ shift < 2 ^ (shift + 7) := by
  have hle : d * 2 ^ shift ≤ 127 * 2 ^ shift := Nat.mul_le_mul_right _ (by omega)
  rw [Nat.pow_add]
  omega

/-- Decoding the digits of `v`, whatever was read before and whatever follows. -/
theorem decodeVarint_encodeVarint_aux (rest : Bytes) :
    ∀ (n v shift acc r : Nat), v < 128 ^ (n + 1) → acc < 2 ^ shift → (encodeVarint n v).length ≤ r + 1 →
      decodeVarint (r + 1) shift acc (encodeVarint n v ++ rest)
        = some (acc + v * 2 ^ shift, rest) := by
  intro n
  induction n with
  | zero =>
    intro v shift acc r hv hacc _
    have hb : (UInt8.ofNat v).toNat = v := by
      rw [UInt8.toNat_ofNat']; omega
    simp only [encodeVarint, singleton_append, decodeVarint, hb]
    rw [if_pos (by omega), lor_shiftLeft_eq_add hacc]
  | succ n ih =>
    intro v shift acc r hv hacc hr
    unfold encodeVarint at hr ⊢
    by_cases hsmall : v < 128
    · have hb : (UInt8.ofNat v).toNat = v := by
        rw [UInt8.toNat_ofNat']; omega
      simp only [hsmall, ↓reduceIte, singleton_append, decodeVarint, hb]
      rw [lor_shiftLeft_eq_add hacc]
    · have hb : (UInt8.ofNat (v % 128 + 128)).toNat = v % 128 + 128 := by
        rw [UInt8.toNat_ofNat']; omega
      have hmod : (v % 128 + 128) % 128 = v % 128 := by omega
      have hdiv : v / 128 < 128 ^ (n + 1) :=
        Nat.div_lt_of_lt_mul (by rw [Nat.pow_succ] at hv; omega)
      have hpos := encodeVarint_length_pos n (v / 128)
      simp only [hsmall, ↓reduceIte, cons_append, length_cons] at hr ⊢
      obtain ⟨r, rfl⟩ := Nat.exists_eq_succ_of_ne_zero (show r ≠ 0 by omega)
      rw [decodeVarint, hb, if_neg (by omega), hmod, lor_shiftLeft_eq_add hacc,
        ih _ _ _ _ hdiv (add_digit_lt hacc (Nat.mod_lt _ (by decide))) (by omega)]
      have hv' : v = v % 128 + 128 * (v / 128) := (Nat.mod_add_div v 128).symm
      congr 2
      rw [Nat.pow_add]
      calc acc + v % 128 * 2 ^ shift + v / 128 * (2 ^ shift * 2 ^ 7)
          = acc + (v % 128 + 128 * (v / 128)) * 2 ^ shift := by ring
        _ = acc + v * 2 ^ shift := by rw [← hv']

theorem decodeVarint_encodeVarint_of_le (hv : v < 128 ^ (n + 1)) {r : Nat}
    (hr : (encodeVarint n v).length ≤ r)
    (rest : Bytes) : decodeVarint r 0 0 (encodeVarint n v ++ rest) = some (v, rest) := by
  have hpos := encodeVarint_length_pos n v
  obtain ⟨r, rfl⟩ := Nat.exists_eq_succ_of_ne_zero (show r ≠ 0 by omega)
  simpa using decodeVarint_encodeVarint_aux rest n v 0 0 r hv (by simp) hr

theorem decodeVarint_encodeVarint (hv : v < 128 ^ (n + 1)) (rest : Bytes) :
    decodeVarint (n + 1) 0 0 (encodeVarint n v ++ rest) = some (v, rest) :=
  decodeVarint_encodeVarint_of_le hv (encodeVarint_length_le n v) rest

variable {bs rest : Bytes}

theorem decodeVarint_rest_length (h : decodeVarint n shift acc bs = some (v, rest)) :
    rest.length < bs.length := by
  induction n generalizing shift acc bs with
  | zero => simp [decodeVarint] at h
  | succ n ih =>
    cases bs with
    | nil => simp [decodeVarint] at h
    | cons b bs =>
      rw [decodeVarint] at h
      rw [length_cons]
      split at h
      · cases h
        exact Nat.lt_succ_self _
      · exact Nat.lt_succ_of_lt (ih h)

/-- What follows the digits is not looked at. -/
theorem decodeVarint_append (h : decodeVarint n shift acc bs = some (v, rest)) (tail : Bytes) :
    decodeVarint n shift acc (bs ++ tail) = some (v, rest ++ tail) := by
  induction n generalizing shift acc bs with
  | zero => simp [decodeVarint] at h
  | succ n ih =>
    cases bs with
    | nil => simp [decodeVarint] at h
    | cons b bs =>
      rw [decodeVarint] at h
      rw [cons_append, decodeVarint]
      split at h
      · rename_i hlast
        cases h
        rw [if_pos hlast]
      · rename_i hmore
        rw [if_neg hmore]
        exact ih h

/-- `n` bytes, least significant first. -/
def encodeFixed : Nat → Nat → Bytes
  | 0, _ => []
  | n + 1, v => UInt8.ofNat v :: encodeFixed n (v / 256)

def decodeFixed : Bytes → Nat
  | [] => 0
  | b :: rest => b.toNat + 256 * decodeFixed rest

@[simp] theorem encodeFixed_length (n v : Nat) : (encodeFixed n v).length = n := by
  induction n generalizing v with
  | zero => rfl
  | succ n ih => simp [encodeFixed, ih]

theorem decodeFixed_encodeFixed (hv : v < 256 ^ n) : decodeFixed (encodeFixed n v) = v := by
  induction n generalizing v with
  | zero => simp only [Nat.pow_zero] at hv; simp [encodeFixed, decodeFixed]; omega
  | succ n ih =>
    have hdiv : v / 256 < 256 ^ n :=
      Nat.div_lt_of_lt_mul (by rw [Nat.pow_succ] at hv; omega)
    rw [encodeFixed, decodeFixed, ih hdiv, UInt8.toNat_ofNat']
    omega

theorem encodeFixed_decodeFixed (bs : Bytes) : encodeFixed bs.length (decodeFixed bs) = bs := by
  induction bs with
  | nil => rfl
  | cons b rest ih =>
    have hb : b.toNat < 256 := b.toNat_lt
    have hbyte : UInt8.ofNat (b.toNat + 256 * decodeFixed rest) = b := by
      apply UInt8.toNat_inj.mp
      rw [UInt8.toNat_ofNat']
      omega
    have hdiv : (b.toNat + 256 * decodeFixed rest) / 256 = decodeFixed rest := by omega
    rw [length_cons, decodeFixed, encodeFixed, hbyte, hdiv, ih]

theorem decodeFixed_lt (bs : Bytes) : decodeFixed bs < 256 ^ bs.length := by
  induction bs with
  | nil => simp [decodeFixed]
  | cons b rest ih =>
    have hb : b.toNat < 256 := b.toNat_lt
    rw [decodeFixed, length_cons, Nat.pow_succ]
    omega

end TitanGC.Lib.ByteCoding
