import Mathlib

/-! # CRC-32

The CRC-32 of IEEE 802.3 (reflected polynomial `0xEDB88320`, initial value
and final mask `0xFFFFFFFF`), the checksum that `crc32fast` computes, one bit
at a time. -/

namespace ElasticStream.Codec

/-- One shift of the remainder. -/
def crcShift (c : UInt32) : UInt32 :=
  if c &&& 1 = 1 then (c >>> 1) ^^^ 0xEDB88320 else c >>> 1

/-- The remainder after one byte: eight shifts of `c ^ b`. -/
def crcByte (c : UInt32) (b : UInt8) : UInt32 :=
  (List.range 8).foldl (fun c _ => crcShift c) (c ^^^ b.toUInt32)

def crc32 (bytes : List UInt8) : UInt32 :=
  bytes.foldl crcByte 0xFFFFFFFF ^^^ 0xFFFFFFFF

/-- `crc32_vectored`: one hasher fed each slice in turn. -/
def crc32Vectored (parts : List (List UInt8)) : UInt32 :=
  parts.foldl (fun c part => part.foldl crcByte c) 0xFFFFFFFF ^^^ 0xFFFFFFFF

theorem crc32Vectored_eq (parts : List (List UInt8)) : crc32Vectored parts = crc32 parts.flatten := by
  simp [crc32Vectored, crc32, List.foldl_flatten]

/-- The check value of the standard: the CRC of the ASCII digits `123456789`. -/
example : crc32 [0x31, 0x32, 0x33, 0x34, 0x35, 0x36, 0x37, 0x38, 0x39] = 0xCBF43926 := by
  decide +kernel

end ElasticStream.Codec
