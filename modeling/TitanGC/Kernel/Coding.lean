import TitanGC.Lib.Memory
import TitanGC.Format.Coding

/-!
# The integer coding of the kernel

`coding.h` of the kernel, which reads and writes through pointers: a pointer is an
address of a memory here. Each function agrees with the coding of the base DB on
the bytes at its address.
-/

namespace TitanGC.Kernel.Coding

open Lib.ByteCoding Lib.Memory List Format.Coding
open Function (update)

variable {m : Mem} {a n : Nat}

/-! ## Fixed-width numbers -/

/-- The loop of `DecodeFixed32` and `DecodeFixed64`, with `n` rounds to go. -/
def decodeFixedLoop (m : Mem) : Nat → Nat → Nat → Nat → Nat
  | 0, _, _, result => result
  | n + 1, i, input, result =>
    decodeFixedLoop m n (i + 1) (input + 1) (result ||| (m input).toNat <<< (8 * i))

def decodeFixed32 (m : Mem) (input : Nat) : UInt32 := UInt32.ofNat (decodeFixedLoop m 4 0 input 0)

def decodeFixed64 (m : Mem) (input : Nat) : UInt64 := UInt64.ofNat (decodeFixedLoop m 8 0 input 0)

/-- The loop of `EncodeFixed32` and `EncodeFixed64`; the bit above the byte is lost. -/
def encodeFixedLoop (m : Mem) : Nat → Nat → Nat → Mem
  | 0, _, _ => m
  | n + 1, buf, value =>
    encodeFixedLoop (update m buf (UInt8.ofNat ((value &&& 255) ||| 256))) n (buf + 1) (value >>> 8)

/-- Wider arguments are cast to 32 bits. -/
def encodeFixed32 (m : Mem) (buf value : Nat) : Mem := encodeFixedLoop m 4 buf (value % 2 ^ 32)

def encodeFixed64 (m : Mem) (buf value : Nat) : Mem := encodeFixedLoop m 8 buf (value % 2 ^ 64)

theorem decodeFixedLoop_eq (m : Mem) (n i input result : Nat) (hr : result < 2 ^ (8 * i)) :
    decodeFixedLoop m n i input result =
      result + 2 ^ (8 * i) * decodeFixed (slice m input n) := by
  induction n generalizing i input result with
  | zero => simp [decodeFixedLoop, slice, decodeFixed]
  | succ n ih =>
    have hbyte : (m input).toNat < 256 := (m input).toNat_lt
    have hlt : result + (m input).toNat * 2 ^ (8 * i) < 2 ^ (8 * (i + 1)) := by
      rw [Nat.mul_add, Nat.pow_add]
      have := Nat.mul_le_mul_right (2 ^ (8 * i)) (Nat.le_pred_of_lt hbyte)
      simp only [Nat.pred_eq_sub_one] at this
      omega
    rw [decodeFixedLoop, lor_shiftLeft_eq_add hr, ih _ _ _ hlt, slice, decodeFixed, Nat.mul_add,
      Nat.pow_add]
    ring

theorem decodeFixedLoop_of_hasAt {v : Nat} (hv : v < 256 ^ n) (h : HasAt m a (encodeFixed n v)) :
    decodeFixedLoop m n 0 a 0 = v := by
  have hslice : slice m a n = encodeFixed n v := by
    unfold HasAt at h
    rwa [encodeFixed_length] at h
  rw [decodeFixedLoop_eq _ _ _ _ _ (by norm_num), hslice, decodeFixed_encodeFixed hv]
  simp

theorem decodeFixed32_eq {v : UInt32} (h : HasAt m a (putFixed32 v)) : decodeFixed32 m a = v := by
  rw [decodeFixed32, decodeFixedLoop_of_hasAt v.toNat_lt h, UInt32.ofNat_toNat]

theorem decodeFixed64_eq {v : UInt64} (h : HasAt m a (putFixed64 v)) : decodeFixed64 m a = v := by
  rw [decodeFixed64, decodeFixedLoop_of_hasAt v.toNat_lt h, UInt64.ofNat_toNat]

theorem byte_of_masked (v : Nat) : UInt8.ofNat ((v &&& 255) ||| 256) = UInt8.ofNat v := by
  apply UInt8.toNat_inj.mp
  rw [UInt8.toNat_ofNat', UInt8.toNat_ofNat']
  have hmod : (v &&& 255) = v % 2 ^ 8 := Nat.and_two_pow_sub_one_eq_mod v 8
  have hor : v % 2 ^ 8 ||| 1 <<< 8 = v % 2 ^ 8 + 1 * 2 ^ 8 :=
    lor_shiftLeft_eq_add (Nat.mod_lt _ (by norm_num))
  rw [hmod, show (256 : Nat) = 1 <<< 8 from rfl, hor]
  omega

theorem encodeFixedLoop_eq (m : Mem) (n buf value : Nat) :
    encodeFixedLoop m n buf value = write m buf (encodeFixed n value) := by
  induction n generalizing m buf value with
  | zero => rfl
  | succ n ih =>
    rw [encodeFixedLoop, ih, byte_of_masked, encodeFixed, write, Nat.shiftRight_eq_div_pow]

theorem encodeFixed32_eq (m : Mem) (buf value : Nat) :
    encodeFixed32 m buf value = write m buf (putFixed32 (UInt32.ofNat value)) := by
  rw [encodeFixed32, encodeFixedLoop_eq, putFixed32, UInt32.toNat_ofNat']

theorem encodeFixed64_eq (m : Mem) (buf value : Nat) :
    encodeFixed64 m buf value = write m buf (putFixed64 (UInt64.ofNat value)) := by
  rw [encodeFixed64, encodeFixedLoop_eq, putFixed64, UInt64.toNat_ofNat']

/-! ## Varints -/

/-- The loop of `DecodeVarint32` and `DecodeVarint64`, with `n` rounds to go: the value,
if the loop met its last byte, and the number of bytes read. -/
def decodeVarintLoop (m : Mem) : Nat → Nat → Nat → Nat → Option Nat × Nat
  | 0, _, _, _ => (none, 0)
  | n + 1, p, shift, result =>
    let byte := (m p).toNat
    if byte &&& 128 ≠ 0 then
      let (value, count) := decodeVarintLoop m n (p + 1) (shift + 7)
        (result ||| (byte &&& 127) <<< shift)
      (value, count + 1)
    else (some (result ||| byte <<< shift), 1)

/-- The limit is five bytes on, where the loop ends by itself; without a last byte the
value stays what it was. -/
def decodeVarint32 (m : Mem) (p : Nat) (value : UInt32) : UInt32 × Nat :=
  let (decoded, count) := decodeVarintLoop m 5 p 0 0
  ((decoded.map UInt32.ofNat).getD value, count)

/-- The loop runs for shifts 0, 7, …, 63, and ends at the limit. -/
def decodeVarint64 (m : Mem) (p limit : Nat) (value : UInt64) : UInt64 × Nat :=
  let (decoded, count) := decodeVarintLoop m (min 10 (limit - p)) p 0 0
  ((decoded.map UInt64.ofNat).getD value, count)

def encodeVarint32 (m : Mem) (dst : Nat) (v : UInt32) : Mem × Nat :=
  let v := v.toNat
  if v < 2 ^ 7 then (write m dst [UInt8.ofNat v], 1)
  else if v < 2 ^ 14 then (write m dst [UInt8.ofNat (v ||| 128), UInt8.ofNat (v >>> 7)], 2)
  else if v < 2 ^ 21 then
    (write m dst [UInt8.ofNat (v ||| 128), UInt8.ofNat (v >>> 7 ||| 128), UInt8.ofNat (v >>> 14)], 3)
  else if v < 2 ^ 28 then
    (write m dst [UInt8.ofNat (v ||| 128), UInt8.ofNat (v >>> 7 ||| 128),
      UInt8.ofNat (v >>> 14 ||| 128), UInt8.ofNat (v >>> 21)], 4)
  else
    (write m dst [UInt8.ofNat (v ||| 128), UInt8.ofNat (v >>> 7 ||| 128),
      UInt8.ofNat (v >>> 14 ||| 128), UInt8.ofNat (v >>> 21 ||| 128), UInt8.ofNat (v >>> 28)], 5)

def encodeVarint64 (m : Mem) (dst v : Nat) : Mem × Nat :=
  if 128 ≤ v then
    let (m, count) := encodeVarint64 (update m dst (UInt8.ofNat ((v &&& 127) ||| 128))) (dst + 1)
      (v >>> 7)
    (m, count + 1)
  else (update m dst (UInt8.ofNat v), 1)
termination_by v
decreasing_by rw [Nat.shiftRight_eq_div_pow]; omega

theorem and_128_ne_zero_iff (b : UInt8) : b.toNat &&& 128 ≠ 0 ↔ ¬ b.toNat < 128 := by
  have hb : b.toNat < 256 := b.toNat_lt
  have hand : b.toNat &&& 128 = 2 ^ 7 * (b.toNat.testBit 7).toNat := by
    rw [show (128 : Nat) = 2 ^ 7 from rfl, Nat.and_two_pow, Nat.mul_comm]
  rw [hand, Nat.testBit_eq_decide_div_mod_eq]
  by_cases hlt : b.toNat < 128
  · have hbit : b.toNat / 128 % 2 = 0 := by omega
    simp [hbit, hlt]
  · have hbit : b.toNat / 128 % 2 = 1 := by omega
    simp [hbit, hlt]

theorem decodeVarintLoop_eq (m : Mem) (n p shift result : Nat) :
    decodeVarintLoop m n p shift result =
      match decodeVarint n shift result (slice m p n) with
      | some (v, rest) => (some v, n - rest.length)
      | none => (none, n) := by
  induction n generalizing p shift result with
  | zero => rfl
  | succ n ih =>
    rw [decodeVarintLoop, slice, decodeVarint]
    by_cases hlt : (m p).toNat < 128
    · have hand : ¬ ((m p).toNat &&& 128 ≠ 0) := fun h => (and_128_ne_zero_iff _).mp h hlt
      simp [hand, hlt]
    · have hand := (and_128_ne_zero_iff (m p)).mpr hlt
      have h127 : (m p).toNat &&& 127 = (m p).toNat % 128 :=
        Nat.and_two_pow_sub_one_eq_mod _ 7
      simp only [if_pos hand, if_neg hlt, h127, ih]
      cases hd : decodeVarint n (shift + 7) (result ||| ((m p).toNat % 128) <<< shift)
          (slice m (p + 1) n) with
      | none => rfl
      | some r =>
        have hle := decodeVarint_rest_length hd
        rw [slice_length] at hle
        simp only
        congr 1
        omega

theorem decodeVarintLoop_le (m : Mem) (n p shift result : Nat) :
    (decodeVarintLoop m n p shift result).2 ≤ n := by
  rw [decodeVarintLoop_eq]
  split
  · exact Nat.sub_le _ _
  · exact le_rfl

theorem decodeVarintLoop_of_hasAt {k v : Nat} (hv : v < 128 ^ (k + 1)) (h : HasAt m a (encodeVarint k v))
    (hn : (encodeVarint k v).length ≤ n) :
    decodeVarintLoop m n a 0 0 = (some v, (encodeVarint k v).length) := by
  rw [decodeVarintLoop_eq, slice_of_hasAt h hn, decodeVarint_encodeVarint_of_le hv hn]
  simp only [slice_length, Prod.mk.injEq, true_and]
  omega

theorem decodeVarint32_eq {v : UInt32} (h : HasAt m a (putVarint32 v)) (value : UInt32) :
    decodeVarint32 m a value = (v, (putVarint32 v).length) := by
  have hv : v.toNat < 128 ^ (4 + 1) := Nat.lt_of_lt_of_le v.toNat_lt (by norm_num)
  rw [decodeVarint32, decodeVarintLoop_of_hasAt hv h (encodeVarint_length_le 4 _)]
  simp [putVarint32]

theorem decodeVarint64_eq {v : UInt64} (h : HasAt m a (putVarint64 v)) {limit : Nat}
    (hlimit : a + (putVarint64 v).length ≤ limit) (value : UInt64) :
    decodeVarint64 m a limit value = (v, (putVarint64 v).length) := by
  have hv : v.toNat < 128 ^ (9 + 1) := Nat.lt_of_lt_of_le v.toNat_lt (by norm_num)
  have hlen : (putVarint64 v).length ≤ 10 := encodeVarint_length_le 9 _
  rw [decodeVarint64, decodeVarintLoop_of_hasAt hv h (le_min hlen (by rw [putVarint64] at hlimit; omega))]
  simp [putVarint64]

theorem lor_128_byte (v : Nat) : UInt8.ofNat (v ||| 128) = UInt8.ofNat (v % 128 + 128) := by
  apply UInt8.toNat_inj.mp
  rw [UInt8.toNat_ofNat', UInt8.toNat_ofNat']
  have hv : v = v % 2 ^ 7 + v / 2 ^ 7 * 2 ^ 7 := by omega
  have hor : v ||| 128 = (v % 2 ^ 7) + (v / 2 ^ 7 ||| 1) * 2 ^ 7 := by
    have hlt : v % 2 ^ 7 < 2 ^ 7 := Nat.mod_lt _ (by norm_num)
    calc v ||| 128
        = v % 2 ^ 7 ||| (v / 2 ^ 7) <<< 7 ||| 1 <<< 7 := by
          rw [lor_shiftLeft_eq_add hlt, ← hv]
          rfl
      _ = v % 2 ^ 7 + (v / 2 ^ 7 ||| 1) * 2 ^ 7 := by
          rw [Nat.lor_assoc, ← Nat.shiftLeft_or_distrib, lor_shiftLeft_eq_add hlt]
  have hodd : (v / 2 ^ 7 ||| 1) % 2 = 1 := Nat.or_mod_two_eq_one.mpr (.inr rfl)
  rw [hor]
  omega

theorem encodeVarint32_eq (m : Mem) (dst : Nat) (v : UInt32) :
    encodeVarint32 m dst v = (write m dst (putVarint32 v), (putVarint32 v).length) := by
  have hv : v.toNat < 2 ^ 32 := v.toNat_lt
  rw [encodeVarint32, putVarint32]
  generalize v.toNat = n at hv
  simp only [lor_128_byte, Nat.shiftRight_eq_div_pow]
  split_ifs with h7 h14 h21 h28
  all_goals
    simp only [encodeVarint, Nat.div_div_eq_div_mul, Nat.reducePow, Nat.reduceMul]
    simp (disch := omega) only [if_pos, if_neg, length_cons, length_nil]

theorem encodeVarint64_eq (m : Mem) (dst n v : Nat) (hv : v < 128 ^ (n + 1)) :
    encodeVarint64 m dst v = (write m dst (encodeVarint n v), (encodeVarint n v).length) := by
  induction n generalizing m dst v with
  | zero =>
    have hlt : ¬ 128 ≤ v := by omega
    rw [encodeVarint64, if_neg hlt]
    rfl
  | succ n ih =>
    rw [encodeVarint64, encodeVarint]
    by_cases hle : 128 ≤ v
    · have hdiv : v / 128 < 128 ^ (n + 1) :=
        Nat.div_lt_of_lt_mul (by rw [Nat.pow_succ] at hv; omega)
      have hand : (v &&& 127) ||| 128 = v % 128 + 128 := by
        have hlt : v % 2 ^ 7 < 2 ^ 7 := Nat.mod_lt _ (by norm_num)
        have := lor_shiftLeft_eq_add (d := 1) hlt
        rw [Nat.and_two_pow_sub_one_eq_mod v 7]
        exact this
      rw [if_pos hle, if_neg (by omega), hand, Nat.shiftRight_eq_div_pow, ih _ _ _ hdiv, write]
      rfl
    · rw [if_neg hle, if_pos (by omega)]
      rfl

/-! ## Length-prefixed strings -/

/-- The string goes behind the count from the counter of the caller on, not from the address. -/
def encodeVarint32AndValueFrom (m : Mem) (data : Nat) (key : Bytes) (offset : Nat) : Mem × Nat :=
  let (m, count) := encodeVarint32 m data (UInt32.ofNat key.length)
  (write m (data + (offset + count)) key, offset + count + key.length)

/-- The string goes to a staging array; `none` is a write beyond its capacity. -/
def decodeVarint32AndValueFrom (m : Mem) (data capacity offset : Nat) : Option (Bytes × Nat) :=
  let (len, count) := decodeVarint32 m data 0
  if len.toNat ≤ capacity then
    some (slice m (data + (offset + count)) len.toNat, offset + count + len.toNat)
  else none

/-- The kernel starts every counter at zero. -/
def encodeVarint32AndValue (m : Mem) (data : Nat) (key : Bytes) : Mem × Nat :=
  encodeVarint32AndValueFrom m data key 0

def decodeVarint32AndValue (m : Mem) (data capacity : Nat) : Option (Bytes × Nat) :=
  decodeVarint32AndValueFrom m data capacity 0

theorem decodeVarint32AndValue_eq {s : Bytes} (hlen : s.length < 2 ^ 32)
    (h : HasAt m a (putLengthPrefixedSlice s)) (capacity : Nat) :
    decodeVarint32AndValue m a capacity =
      if s.length ≤ capacity then some (s, (putLengthPrefixedSlice s).length) else none := by
  rw [putLengthPrefixedSlice] at h ⊢
  obtain ⟨hsize, hs⟩ := hasAt_append.mp h
  have hnat : (UInt32.ofNat s.length).toNat = s.length := UInt32.toNat_ofNat_of_lt' hlen
  rw [decodeVarint32AndValue, decodeVarint32AndValueFrom, decodeVarint32_eq hsize]
  simp only [hnat, length_append, Nat.zero_add]
  rw [hs]

theorem decodeVarint32AndValue_le {data capacity : Nat} {s : Bytes} {n : Nat}
    (h : decodeVarint32AndValue m data capacity = some (s, n)) : s.length ≤ capacity ∧ n ≤ 5 + capacity := by
  rw [decodeVarint32AndValue, decodeVarint32AndValueFrom] at h
  dsimp only at h
  split at h
  · rename_i hle
    cases h
    have hcount := decodeVarintLoop_le m 5 data 0 0
    rw [slice_length]
    exact ⟨hle, by rw [Nat.zero_add]; exact Nat.add_le_add hcount hle⟩
  · cases h

theorem encodeVarint32AndValue_eq (m : Mem) (data : Nat) (key : Bytes) :
    encodeVarint32AndValue m data key =
      (write m data (putLengthPrefixedSlice key), (putLengthPrefixedSlice key).length) := by
  rw [encodeVarint32AndValue, encodeVarint32AndValueFrom, encodeVarint32_eq, putLengthPrefixedSlice,
    write_append, length_append]
  simp only [Nat.zero_add]

theorem decode_encodeVarint32AndValueFrom (m : Mem) (data offset : Nat) {key : Bytes} {capacity : Nat}
    (hkey : key.length < 2 ^ 31) (hcapacity : key.length ≤ capacity) :
    decodeVarint32AndValueFrom (encodeVarint32AndValueFrom m data key offset).1 data capacity offset =
      some (key, (encodeVarint32AndValueFrom m data key offset).2) := by
  have hnat : (UInt32.ofNat key.length).toNat = key.length :=
    UInt32.toNat_ofNat_of_lt' (hkey.trans (by decide))
  rw [encodeVarint32AndValueFrom, encodeVarint32_eq]
  dsimp only
  generalize hbs : putVarint32 (UInt32.ofNat key.length) = bs
  have hat : HasAt (write (write m data bs) (data + (offset + bs.length)) key) data
      (putVarint32 (UInt32.ofNat key.length)) := by
    rw [hbs, HasAt, slice_write_before (by omega), slice_write_self]
  rw [decodeVarint32AndValueFrom, decodeVarint32_eq hat, hbs]
  simp only [hnat, if_pos hcapacity, slice_write_self]

/-- The encoders write what RocksDB's append, and add its length to the counter; the decoders
read it back, whatever stands behind it. -/
theorem kernel_coding_canonical (m : Mem) (a : Nat) (v : UInt32) (w : UInt64) :
    encodeVarint32 m a v = (write m a (putVarint32 v), (putVarint32 v).length) ∧
    encodeVarint64 m a w.toNat = (write m a (putVarint64 w), (putVarint64 w).length) ∧
    encodeFixed32 m a v.toNat = write m a (putFixed32 v) ∧
    encodeFixed64 m a w.toNat = write m a (putFixed64 w) ∧
    (HasAt m a (putVarint32 v) → ∀ value, decodeVarint32 m a value = (v, (putVarint32 v).length)) ∧
    (HasAt m a (putVarint64 w) → ∀ limit, a + (putVarint64 w).length ≤ limit →
      ∀ value, decodeVarint64 m a limit value = (w, (putVarint64 w).length)) ∧
    (HasAt m a (putFixed32 v) → decodeFixed32 m a = v) ∧ (HasAt m a (putFixed64 w) → decodeFixed64 m a = w) ∧
    ∀ (key : Bytes) (capacity offset : Nat), key.length < 2 ^ 31 → key.length ≤ capacity →
      decodeVarint32AndValueFrom (encodeVarint32AndValueFrom m a key offset).1 a capacity offset =
        some (key, (encodeVarint32AndValueFrom m a key offset).2) := by
  refine ⟨encodeVarint32_eq m a v, ?_, ?_, ?_, decodeVarint32_eq, fun h _ => decodeVarint64_eq h,
    decodeFixed32_eq, decodeFixed64_eq, fun _ _ offset => decode_encodeVarint32AndValueFrom m a offset⟩
  · exact encodeVarint64_eq m a 9 _ (Nat.lt_of_lt_of_le w.toNat_lt (by norm_num))
  · rw [encodeFixed32_eq, UInt32.ofNat_toNat]
  · rw [encodeFixed64_eq, UInt64.ofNat_toNat]

end TitanGC.Kernel.Coding
