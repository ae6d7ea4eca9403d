import ElasticStream.Codec.BigEndian

/-! # WAL records

A record of a log segment is a 4-byte CRC, a 4-byte word holding the payload
length in its upper 3 bytes and the `RecordType` in its low byte, then the
payload (store/src/io/record.rs). The scanner of `Wal::scan_record` decodes the
word with `>> 8` and `& 0xFF`; for a length below `2^24` this gives back what
`RecordType::with_length` encoded (`decode_withLength`). -/

namespace ElasticStream.Store

/-- The variants of `StoreError` raised on the recovery path, and the
`OutOfMemory` of the buffer writer. -/
inductive StoreError where
  | cacheError
  | notOpened
  | dataCorrupted
  | io
  | unsupportedRecordType
  | outOfMemory
  deriving DecidableEq, Repr

/-- Length of record prefix: CRC (4B) + Size (3B) + Type (1B). -/
def RECORD_PREFIX_LENGTH : Nat := 4 + 3 + 1

/-- CRC (4B) + length (3B) + type (1B) + earliest and latest record time (8B each). -/
def FOOTER_LENGTH : Nat := 24

inductive RecordType where
  | zero
  | full
  | first
  | middle
  | last
  deriving DecidableEq, Repr

namespace RecordType

def toU8 : RecordType → UInt8
  | .zero => 0
  | .full => 1
  | .first => 2
  | .middle => 3
  | .last => 4

/-- `RecordType::try_from(u8)`. -/
def tryFrom (t : UInt8) : Option RecordType :=
  if t = 0 then some .zero
  else if t = 1 then some .full
  else if t = 2 then some .first
  else if t = 3 then some .middle
  else if t = 4 then some .last
  else none

/-- The first 3 bytes represent the length, the last byte the record type. -/
def withLength (self : RecordType) (len : UInt32) : UInt32 :=
  (len <<< 8) ||| self.toU8.toUInt32

@[simp] theorem tryFrom_toU8 (t : RecordType) : tryFrom t.toU8 = some t := by
  cases t <;> decide

/-- The word of `with_length`: `len << 8` in a `u32` keeps the low 24 bits of
`len` only. -/
theorem toNat_withLength_mod (t : RecordType) (len : UInt32) :
    (t.withLength len).toNat = len.toNat % 2 ^ 24 * 256 + t.toU8.toNat := by
  have ht : t.toU8.toNat < 2 ^ 8 := t.toU8.toNat_lt
  simp only [withLength, UInt32.toNat_or, UInt32.toNat_shiftLeft, UInt8.toNat_toUInt32]
  have hshift : len.toNat <<< ((8 : UInt32).toNat % 32) % 2 ^ 32 = (len.toNat % 2 ^ 24) <<< 8 := by
    simp only [show (8 : UInt32).toNat % 32 = 8 from rfl, Nat.shiftLeft_eq]
    omega
  rw [hshift, ← Nat.shiftLeft_add_eq_or_of_lt ht, Nat.shiftLeft_eq]

theorem toNat_withLength (t : RecordType) {len : UInt32} (h : len.toNat < 2 ^ 24) :
    (t.withLength len).toNat = len.toNat * 256 + t.toU8.toNat := by
  rw [toNat_withLength_mod, Nat.mod_eq_of_lt h]

/-- The length a reader decodes with `>> 8`. -/
theorem shiftRight_withLength (t : RecordType) (len : UInt32) :
    ((t.withLength len) >>> 8).toNat = len.toNat % 2 ^ 24 := by
  have ht : t.toU8.toNat < 256 := t.toU8.toNat_lt
  rw [UInt32.toNat_shiftRight, toNat_withLength_mod, Nat.shiftRight_eq_div_pow]
  simp only [show (8 : UInt32).toNat % 32 = 8 from rfl]
  omega

/-- What the scanner reads back from a length-and-type word. -/
theorem decode_withLength (t : RecordType) {len : UInt32} (h : len.toNat < 2 ^ 24) :
    ((t.withLength len) >>> 8).toNat = len.toNat ∧
      tryFrom ((t.withLength len) &&& 0xFF).toUInt8 = some t := by
  have hw := toNat_withLength t h
  have ht : t.toU8.toNat < 256 := t.toU8.toNat_lt
  constructor
  · rw [shiftRight_withLength, Nat.mod_eq_of_lt h]
  · have hlow : ((t.withLength len) &&& 0xFF).toUInt8 = t.toU8 := by
      apply UInt8.toNat_inj.mp
      rw [UInt32.toNat_toUInt8, UInt32.toNat_and, hw]
      rw [show (0xFF : UInt32).toNat = 2 ^ 8 - 1 from rfl, Nat.and_two_pow_sub_one_eq_mod]
      omega
    rw [hlow, tryFrom_toU8]

end RecordType

end ElasticStream.Store
