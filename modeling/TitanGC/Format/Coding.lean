import TitanGC.Lib.ByteCoding

/-!
# RocksDB codings and statuses

`util/coding.{h,cc}` over byte lists: a `Slice*` that is consumed from the
front becomes a byte list together with what is left of it. `Put…` appends in
the source; here it is the list of bytes appended.
-/

namespace TitanGC.Format.Coding

open Lib.ByteCoding List

/-- The codes of `rocksdb::Status` that the modelled functions return. -/
inductive Code where
  | notFound | corruption | notSupported | invalidArgument | ioError | incomplete
  | shutdownInProgress | aborted | busy
  deriving Repr, DecidableEq

def Code.text : Code → String
  | .notFound => "NotFound: "
  | .corruption => "Corruption: "
  | .notSupported => "Not implemented: "
  | .invalidArgument => "Invalid argument: "
  | .ioError => "IO error: "
  | .incomplete => "Result incomplete: "
  | .shutdownInProgress => "Shutdown in progress: "
  | .aborted => "Operation aborted: "
  | .busy => "Resource busy: "

/-- A status other than OK; OK is the `ok` side of `Except Status`. -/
structure Status where
  code : Code
  msg : String
  deriving Repr, DecidableEq

def Status.toString (s : Status) : String := s.code.text ++ s.msg

def corruption (msg : String) : Status := ⟨.corruption, msg⟩

/-- The two-message constructor joins its messages. -/
def corruption₂ (msg msg2 : String) : Status := ⟨.corruption, msg ++ ": " ++ msg2⟩

/-- Sequence numbers have 56 bits. -/
def kMaxSequenceNumber : Nat := 2 ^ 56 - 1

def putVarint64 (v : UInt64) : Bytes := encodeVarint 9 v.toNat

/-- The loop of `GetVarint64Ptr` runs for shifts 0, 7, …, 63; bits shifted
beyond the 64th are lost. -/
def getVarint64 (s : Bytes) : Option (UInt64 × Bytes) :=
  (decodeVarint 10 0 0 s).map fun r => (UInt64.ofNat r.1, r.2)

def putVarint32 (v : UInt32) : Bytes := encodeVarint 4 v.toNat

def getVarint32 (s : Bytes) : Option (UInt32 × Bytes) :=
  (decodeVarint 5 0 0 s).map fun r => (UInt32.ofNat r.1, r.2)

@[simp] theorem getVarint64_putVarint64 (v : UInt64) (rest : Bytes) :
    getVarint64 (putVarint64 v ++ rest) = some (v, rest) := by
  have hv : v.toNat < 128 ^ (9 + 1) := Nat.lt_of_lt_of_le v.toNat_lt (by norm_num)
  simp [getVarint64, putVarint64, decodeVarint_encodeVarint hv rest]

@[simp] theorem getVarint32_putVarint32 (v : UInt32) (rest : Bytes) :
    getVarint32 (putVarint32 v ++ rest) = some (v, rest) := by
  have hv : v.toNat < 128 ^ (4 + 1) := Nat.lt_of_lt_of_le v.toNat_lt (by norm_num)
  simp [getVarint32, putVarint32, decodeVarint_encodeVarint hv rest]

theorem putVarint64_ne_nil (v : UInt64) : putVarint64 v ≠ [] := encodeVarint_ne_nil _ _

/-- `GetChar` of `blob_format.cc` and of `compaction_iterator.cc`. -/
def getChar : Bytes → Option (UInt8 × Bytes)
  | [] => none
  | b :: rest => some (b, rest)

def putFixed32 (v : UInt32) : Bytes := encodeFixed 4 v.toNat

def putFixed64 (v : UInt64) : Bytes := encodeFixed 8 v.toNat

def getFixed32 (s : Bytes) : Option (UInt32 × Bytes) :=
  if s.length < 4 then none
  else some (UInt32.ofNat (decodeFixed (s.take 4)), s.drop 4)

def getFixed64 (s : Bytes) : Option (UInt64 × Bytes) :=
  if s.length < 8 then none
  else some (UInt64.ofNat (decodeFixed (s.take 8)), s.drop 8)

@[simp] theorem putFixed32_length (v : UInt32) : (putFixed32 v).length = 4 :=
  encodeFixed_length _ _

@[simp] theorem putFixed64_length (v : UInt64) : (putFixed64 v).length = 8 :=
  encodeFixed_length _ _

@[simp] theorem getFixed32_putFixed32 (v : UInt32) (rest : Bytes) :
    getFixed32 (putFixed32 v ++ rest) = some (v, rest) := by
  have hlen := putFixed32_length v
  have hval : decodeFixed (putFixed32 v) = v.toNat := decodeFixed_encodeFixed v.toNat_lt
  rw [getFixed32, if_neg (by simp), take_left' hlen, drop_left' hlen, hval]
  simp

@[simp] theorem getFixed64_putFixed64 (v : UInt64) (rest : Bytes) :
    getFixed64 (putFixed64 v ++ rest) = some (v, rest) := by
  have hlen := putFixed64_length v
  have hval : decodeFixed (putFixed64 v) = v.toNat := decodeFixed_encodeFixed v.toNat_lt
  rw [getFixed64, if_neg (by simp), take_left' hlen, drop_left' hlen, hval]
  simp

/-- The length is cast to 32 bits before it is written. -/
def putLengthPrefixedSlice (s : Bytes) : Bytes :=
  putVarint32 (UInt32.ofNat s.length) ++ s

def getLengthPrefixedSlice (s : Bytes) : Option (Bytes × Bytes) :=
  match getVarint32 s with
  | none => none
  | some (len, rest) =>
    if len.toNat ≤ rest.length then some (rest.take len.toNat, rest.drop len.toNat)
    else none

theorem getLengthPrefixedSlice_putLengthPrefixedSlice {s : Bytes} (hs : s.length < 2 ^ 32)
    (rest : Bytes) :
    getLengthPrefixedSlice (putLengthPrefixedSlice s ++ rest) = some (s, rest) := by
  have hlen : (UInt32.ofNat s.length).toNat = s.length := UInt32.toNat_ofNat_of_lt' hs
  simp [getLengthPrefixedSlice, putLengthPrefixedSlice, append_assoc, hlen]

/-- A slice that is read is below 4 GiB, and what follows it is not looked at. -/
theorem getLengthPrefixedSlice_append {s key rest : Bytes}
    (h : getLengthPrefixedSlice s = some (key, rest)) (tail : Bytes) :
    key.length < 2 ^ 32 ∧ getLengthPrefixedSlice (s ++ tail) = some (key, rest ++ tail) := by
  unfold getLengthPrefixedSlice getVarint32 at h ⊢
  cases hdecode : decodeVarint 5 0 0 s with
  | none => rw [hdecode] at h; cases h
  | some r =>
    rw [hdecode] at h
    rw [decodeVarint_append hdecode tail]
    simp only [Option.map_some] at h ⊢
    split at h
    · rename_i hle
      cases h
      have hlen := (UInt32.ofNat r.1).toNat_lt
      rw [if_pos (by rw [length_append]; omega), take_append_of_le_length hle,
        drop_append_of_le_length hle, length_take]
      exact ⟨by omega, rfl⟩
    · cases h

end TitanGC.Format.Coding
