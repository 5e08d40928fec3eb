import TitanGC.Format.Coding

/-!
# Internal keys

`ParseInternalKey` and `AppendInternalKey` of `db/dbformat.{h,cc}`: a user key, then
eight bytes with the sequence number and the type. Each undoes the other.
-/

namespace TitanGC.Format.InternalKey

open Lib.ByteCoding List Coding

def kTypeValue : UInt8 := 0x1

def kTypeMerge : UInt8 := 0x2

def kTypeSingleDeletion : UInt8 := 0x7

def kTypeRangeDeletion : UInt8 := 0xF

def kTypeBlobIndex : UInt8 := 0x11

def kTypeDeletionWithTimestamp : UInt8 := 0x14

def isValueType (t : UInt8) : Bool :=
  t ≤ kTypeMerge || t == kTypeSingleDeletion || t == kTypeBlobIndex || t == kTypeDeletionWithTimestamp

def isExtendedValueType (t : UInt8) : Bool := isValueType t || t == kTypeRangeDeletion

structure ParsedInternalKey where
  userKey : Bytes
  sequence : Nat
  type : UInt8
  deriving Repr, DecidableEq

/-- With the user key left out. -/
def ParsedInternalKey.debugString (k : ParsedInternalKey) : String :=
  "'<redacted>' seq:" ++ toString k.sequence ++ ", type:" ++ toString k.type

def kNumInternalBytes : Nat := 8

def parseInternalKey (key : Bytes) : Except Status ParsedInternalKey :=
  let n := key.length
  if n < kNumInternalBytes then
    .error (corruption ("Corrupted Key: Internal Key too small. Size=" ++ toString n ++ ". "))
  else
    let num := decodeFixed (key.drop (n - kNumInternalBytes))
    let result : ParsedInternalKey :=
      ⟨key.take (n - kNumInternalBytes), num >>> 8, UInt8.ofNat (num &&& 0xff)⟩
    if isExtendedValueType result.type then .ok result
    else .error (corruption₂ "Corrupted Key" result.debugString)

def packSequenceAndType (seq : Nat) (t : UInt8) : UInt64 := UInt64.ofNat ((seq <<< 8) ||| t.toNat)

def appendInternalKey (k : ParsedInternalKey) : Bytes :=
  k.userKey ++ putFixed64 (packSequenceAndType k.sequence k.type)

/-- What the eight bytes can hold. -/
structure ParsedInternalKey.Valid (k : ParsedInternalKey) : Prop where
  sequence : k.sequence ≤ kMaxSequenceNumber
  type : isExtendedValueType k.type = true

theorem pack_toNat {seq : Nat} (hseq : seq ≤ kMaxSequenceNumber) (t : UInt8) :
    (packSequenceAndType seq t).toNat = t.toNat + seq * 2 ^ 8 := by
  have ht : t.toNat < 2 ^ 8 := t.toNat_lt
  rw [packSequenceAndType, Nat.lor_comm, lor_shiftLeft_eq_add ht]
  refine UInt64.toNat_ofNat_of_lt' ?_
  rw [kMaxSequenceNumber] at hseq
  show t.toNat + seq * 2 ^ 8 < 2 ^ 64
  omega

theorem parseInternalKey_appendInternalKey {k : ParsedInternalKey} (hk : k.Valid) :
    parseInternalKey (appendInternalKey k) = .ok k := by
  obtain ⟨userKey, sequence, type⟩ := k
  have ht : type.toNat < 256 := type.toNat_lt
  have hpack := pack_toNat hk.sequence type
  have hsub : userKey.length + 8 - kNumInternalBytes = userKey.length := rfl
  have hval : decodeFixed (putFixed64 (packSequenceAndType sequence type)) =
      type.toNat + sequence * 2 ^ 8 := by
    rw [← hpack]
    exact decodeFixed_encodeFixed (UInt64.toNat_lt _)
  have hand : (type.toNat + sequence * 2 ^ 8) &&& 0xff = type.toNat := by
    rw [Nat.and_two_pow_sub_one_eq_mod _ 8]
    omega
  have hshift : (type.toNat + sequence * 2 ^ 8) >>> 8 = sequence := by
    rw [Nat.shiftRight_eq_div_pow]
    omega
  have htype := hk.type
  simp only [parseInternalKey, appendInternalKey, length_append, putFixed64_length, hsub,
    drop_left, take_left, hval, hand, hshift, UInt8.ofNat_toNat] at htype ⊢
  rw [if_neg (by rw [kNumInternalBytes]; omega), if_pos htype]

/-- A key that parses is the serialization of what it parses to. -/
theorem appendInternalKey_of_parse {key : Bytes} {k : ParsedInternalKey}
    (h : parseInternalKey key = .ok k) : appendInternalKey k = key ∧ k.Valid := by
  rw [parseInternalKey] at h
  split at h
  · cases h
  case isFalse hn =>
    simp only at h
    split at h
    case isFalse => cases h
    case isTrue htype =>
      cases h
      rw [kNumInternalBytes] at hn htype ⊢
      have hlen : (key.drop (key.length - 8)).length = 8 := by
        rw [length_drop]
        omega
      generalize hnum : decodeFixed (key.drop (key.length - 8)) = num at htype ⊢
      have hlt := decodeFixed_lt (key.drop (key.length - 8))
      have henc := encodeFixed_decodeFixed (key.drop (key.length - 8))
      rw [hlen, hnum] at hlt henc
      have hand : num &&& 0xff = num % 256 := Nat.and_two_pow_sub_one_eq_mod _ 8
      have hseq : num >>> 8 ≤ kMaxSequenceNumber := by
        rw [Nat.shiftRight_eq_div_pow, kMaxSequenceNumber]
        omega
      refine ⟨?_, hseq, htype⟩
      have hpack : (packSequenceAndType (num >>> 8) (UInt8.ofNat (num &&& 0xff))).toNat = num := by
        rw [pack_toNat hseq, hand, UInt8.toNat_ofNat', Nat.shiftRight_eq_div_pow]
        omega
      rw [appendInternalKey, putFixed64, hpack, henc, take_append_drop]

end TitanGC.Format.InternalKey
