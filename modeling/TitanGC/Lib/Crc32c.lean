import TitanGC.Lib.ByteCoding

/-!
# CRC-32C

The checksum with the Castagnoli polynomial, a bit at a time. `extend` continues a
checksum over more bytes.
-/

namespace TitanGC.Lib.Crc32c

open ByteCoding

def crcBit (crc : UInt32) : UInt32 :=
  if crc &&& 1 = 1 then (crc >>> 1) ^^^ 0x82f63b78 else crc >>> 1

def crcByte (crc : UInt32) (b : UInt8) : UInt32 := crcBit^[8] (crc ^^^ b.toUInt32)

def extend (crc : UInt32) (bs : Bytes) : UInt32 := ~~~ bs.foldl crcByte (~~~ crc)

def value (bs : Bytes) : UInt32 := extend 0 bs

theorem extend_append (crc : UInt32) (bs cs : Bytes) :
    extend (extend crc bs) cs = extend crc (bs ++ cs) := by
  simp [extend, List.foldl_append]

theorem extend_value (bs cs : Bytes) : extend (value bs) cs = value (bs ++ cs) :=
  extend_append 0 bs cs

example : value [0x31, 0x32, 0x33, 0x34, 0x35, 0x36, 0x37, 0x38, 0x39] = 0xe3069283 := by
  decide +kernel

end TitanGC.Lib.Crc32c
