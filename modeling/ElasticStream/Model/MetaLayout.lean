import Mathlib
import ElasticStream.Model.RecordBatch

/-! # A layout of `RecordBatchMeta` that meets the FlatBuffers law

The decoders of record batches take the FlatBuffers builder and verifier of
`RecordBatchMeta` as a `MetaCodec`. This module gives one such pair, so that
the results about the decoders can be applied to concrete batches. Each number
is big-endian at its fixed width. A list, and a string as its list of
characters, is its items, each after a 1, then a 0. The law `root_pack` is the
round trip of these encodings. -/

namespace ElasticStream.Model.MetaLayout
open ElasticStream.Codec

section Lists
variable {α : Type}

/-- The items of a list, each after a 1, then a 0. -/
def encodeList (f : α → List UInt8) : List α → List UInt8
  | [] => [0]
  | x :: xs => 1 :: (f x ++ encodeList f xs)

/-- The list `encodeList` wrote, and the bytes after it; `fuel` bounds the
number of items. -/
def decodeList (g : List UInt8 → Option (α × List UInt8)) : Nat → List UInt8 → Option (List α × List UInt8)
  | _, 0 :: rest => some ([], rest)
  | fuel + 1, 1 :: rest => do
    let (x, rest) ← g rest
    let (xs, rest) ← decodeList g fuel rest
    pure (x :: xs, rest)
  | _, _ => none

theorem length_le_length_encodeList (f : α → List UInt8) : ∀ xs : List α, xs.length < (encodeList f xs).length
  | [] => by simp [encodeList]
  | x :: xs => by
    have := length_le_length_encodeList f xs
    simp only [encodeList, List.length_cons, List.length_append]
    omega

/-- The round trip of lists, from that of their items, with enough fuel. -/
theorem decodeList_encodeList {f : α → List UInt8} {g : List UInt8 → Option (α × List UInt8)}
    (hg : ∀ x rest, g (f x ++ rest) = some (x, rest)) :
    ∀ (xs : List α) {fuel : Nat} (rest : List UInt8), xs.length ≤ fuel →
      decodeList g fuel (encodeList f xs ++ rest) = some (xs, rest)
  | [], fuel, rest, _ => by cases fuel <;> simp [encodeList, decodeList]
  | x :: xs, fuel + 1, rest, hfuel => by
    have ih := decodeList_encodeList hg xs rest (by simp at hfuel; omega)
    simp [encodeList, decodeList, hg, ih]

end Lists

/-! ## Fields -/

def encodeI64 (x : Int64) : List UInt8 := be64 x.toUInt64.toNat

def decodeI64 (bs : List UInt8) : Option (Int64 × List UInt8) :=
  (Cursor.mk bs 0).getU64.map fun r => ((UInt64.ofNat r.1).toInt64, r.2.rest)

theorem decodeI64_encodeI64 (x : Int64) (rest : List UInt8) :
    decodeI64 (encodeI64 x ++ rest) = some (x, rest) := by
  simp only [decodeI64, encodeI64, Cursor.getU64_append x.toUInt64.toNat_lt, Option.map_some, UInt64.ofNat_toNat,
    Int64.toInt64_toUInt64]

def encodeI32 (x : Int32) : List UInt8 := be32 x.toUInt32

def decodeI32 (bs : List UInt8) : Option (Int32 × List UInt8) :=
  (Cursor.mk bs 0).getU32.map fun r => (r.1.toInt32, r.2.rest)

theorem decodeI32_encodeI32 (x : Int32) (rest : List UInt8) :
    decodeI32 (encodeI32 x ++ rest) = some (x, rest) := by
  simp [decodeI32, encodeI32, Int32.toInt32_toUInt32]

def encodeI16 (x : Int16) : List UInt8 := be16 x.toUInt16

def decodeI16 (bs : List UInt8) : Option (Int16 × List UInt8) :=
  (Cursor.mk bs 0).getU16.map fun r => (r.1.toInt16, r.2.rest)

theorem decodeI16_encodeI16 (x : Int16) (rest : List UInt8) :
    decodeI16 (encodeI16 x ++ rest) = some (x, rest) := by
  simp [decodeI16, encodeI16, Int16.toInt16_toUInt16]

def encodeChar (ch : Char) : List UInt8 := be32 ch.val

def decodeChar (bs : List UInt8) : Option (Char × List UInt8) :=
  (Cursor.mk bs 0).getU32.map fun r => (Char.ofNat r.1.toNat, r.2.rest)

theorem decodeChar_encodeChar (ch : Char) (rest : List UInt8) :
    decodeChar (encodeChar ch ++ rest) = some (ch, rest) := by
  simp [decodeChar, encodeChar, Char.ofNat_toNat ch]

def encodeString (s : String) : List UInt8 := encodeList encodeChar s.toList

def decodeString (bs : List UInt8) : Option (String × List UInt8) :=
  (decodeList decodeChar bs.length bs).map fun r => (String.ofList r.1, r.2)

theorem decodeString_encodeString (s : String) (rest : List UInt8) :
    decodeString (encodeString s ++ rest) = some (s, rest) := by
  have hfuel : s.toList.length ≤ (encodeList encodeChar s.toList ++ rest).length := by
    have := length_le_length_encodeList encodeChar s.toList
    simp only [List.length_append]
    omega
  rw [decodeString, encodeString, decodeList_encodeList decodeChar_encodeChar s.toList rest hfuel,
    Option.map_some, String.ofList_toList]

def encodeKeyValue (kv : KeyValue) : List UInt8 := encodeString kv.key ++ encodeString kv.value

def decodeKeyValue (bs : List UInt8) : Option (KeyValue × List UInt8) := do
  let (key, bs) ← decodeString bs
  let (value, bs) ← decodeString bs
  pure (⟨key, value⟩, bs)

theorem decodeKeyValue_encodeKeyValue (kv : KeyValue) (rest : List UInt8) :
    decodeKeyValue (encodeKeyValue kv ++ rest) = some (kv, rest) := by
  simp [decodeKeyValue, encodeKeyValue, decodeString_encodeString]

def encodeProperties : Option (List KeyValue) → List UInt8
  | none => [0]
  | some properties => 1 :: encodeList encodeKeyValue properties

def decodeProperties : List UInt8 → Option (Option (List KeyValue) × List UInt8)
  | 0 :: rest => some (none, rest)
  | 1 :: rest => (decodeList decodeKeyValue rest.length rest).map fun r => (some r.1, r.2)
  | _ => none

theorem decodeProperties_encodeProperties (p : Option (List KeyValue)) (rest : List UInt8) :
    decodeProperties (encodeProperties p ++ rest) = some (p, rest) := by
  cases p with
  | none => rfl
  | some properties =>
    have hfuel : properties.length ≤ (encodeList encodeKeyValue properties ++ rest).length := by
      have := length_le_length_encodeList encodeKeyValue properties
      simp only [List.length_append]
      omega
    rw [encodeProperties, List.cons_append, decodeProperties,
      decodeList_encodeList decodeKeyValue_encodeKeyValue properties rest hfuel, Option.map_some]

/-! ## The table -/

/-- The bytes of a table: its fields in the order of model.fbs. -/
def pack (m : RecordBatchMeta) : List UInt8 :=
  encodeI64 m.streamId ++ encodeI32 m.rangeIndex ++ encodeI16 m.flags ++ encodeI64 m.baseOffset ++
    encodeI32 m.lastOffsetDelta ++ encodeI64 m.baseTimestamp ++ encodeProperties m.properties

/-- The table of some bytes, which must hold its fields and nothing else. -/
def root (bs : List UInt8) : Option RecordBatchMeta := do
  let (streamId, bs) ← decodeI64 bs
  let (rangeIndex, bs) ← decodeI32 bs
  let (flags, bs) ← decodeI16 bs
  let (baseOffset, bs) ← decodeI64 bs
  let (lastOffsetDelta, bs) ← decodeI32 bs
  let (baseTimestamp, bs) ← decodeI64 bs
  let (properties, bs) ← decodeProperties bs
  if bs.isEmpty then some ⟨streamId, rangeIndex, flags, baseOffset, lastOffsetDelta, baseTimestamp, properties⟩
  else none

theorem root_pack (m : RecordBatchMeta) : root (pack m) = some m := by
  have hprops := decodeProperties_encodeProperties m.properties []
  rw [List.append_nil] at hprops
  simp [root, pack, decodeI64_encodeI64, decodeI32_encodeI32, decodeI16_encodeI16, hprops]

/-- The layout as the builder and verifier of the decoders. -/
def codec : MetaCodec := ⟨pack, root, root_pack⟩

/-- A table without properties takes 35 bytes. -/
theorem length_pack {m : RecordBatchMeta} (h : m.properties = none) : (pack m).length = 35 := by
  simp [pack, encodeI64, encodeI32, encodeI16, be64, h, encodeProperties]

end ElasticStream.Model.MetaLayout
