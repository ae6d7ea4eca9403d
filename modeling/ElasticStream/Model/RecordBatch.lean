import Mathlib
import ElasticStream.Codec.Cursor

/-! # Record batches

A record batch travels between client, range server and store as a
`FlatRecordBatch` (model/src/record/flat_record.rs): a magic byte, the length
of the metadata, the metadata as the FlatBuffers table `RecordBatchMeta`, the
length of the payload and the payload, each length a big-endian `i32`.
`FlatRecordBatch::init_from_buf` and `Payload::parse_append_entry`
(model/src/payload.rs) read this layout back, each with checks of its own.

FlatBuffers is not modelled. The decoders take its builder and verifier as a
`MetaCodec`, which carries the one law they rely on: the verifier reads back
the table the builder wrote.

On the encoder's output the decoders give back the batch
(`initFromBuf_frame`, `parseAppendEntry_frame`). The length checks before the
second `get_i32` are weaker than that read, though.
* `parse_append_entry` asks that more bytes follow the metadata than its
  length, not four more. After a table that verifies, one to three bytes make
  `get_i32` panic (`parseAppendEntry_short_tail`).
* `init_from_buf` adds 4 to the widened metadata length, which overflows
  when that length is -1 to -4 (`initFromBuf_negative_length`). -/

namespace ElasticStream.Model
open ElasticStream.Codec

/-- `KeyValueT` of model.fbs. -/
structure KeyValue where
  key : String
  value : String
  deriving DecidableEq, Repr

/-- `RecordBatchMetaT`: the table of model.fbs, unpacked. -/
structure RecordBatchMeta where
  streamId : Int64
  rangeIndex : Int32
  flags : Int16
  baseOffset : Int64
  lastOffsetDelta : Int32
  baseTimestamp : Int64
  properties : Option (List KeyValue)
  deriving DecidableEq, Repr

/-- The FlatBuffers builder and verifier of `RecordBatchMeta`, and the law the
decoders need of them. -/
structure MetaCodec where
  /-- `pack` into a `FlatBufferBuilder`, then `finish` and `finished_data` -/
  pack : RecordBatchMeta → List UInt8
  /-- `flatbuffers::root::<RecordBatchMeta>`, then `unpack` -/
  root : List UInt8 → Option RecordBatchMeta
  root_pack : ∀ m, root (pack m) = some m

/-- `DecodeError`, without `BuildRecord`, which only the batch builder raises. -/
inductive DecodeError where
  | dataLengthMismatch
  | invalidMagic
  | invalidDataFormat
  | flatbuffer
  deriving DecidableEq, Repr

/-- `RecordMagic::Magic0`. -/
def RecordMagic.magic0 : Int8 := 0x22

/-- The magic byte, the metadata length and the payload length. -/
def MIN_RECORD_BATCH_LEN : Nat := 1 + 4 + 4

/-- `RecordBatch`. -/
structure RecordBatch where
  metadata : RecordBatchMeta
  payload : List UInt8
  deriving DecidableEq, Repr

/-- `FlatRecordBatch`: the magic, and the metadata and payload as bytes. -/
structure FlatRecordBatch where
  magic : Option Int8
  metadata : List UInt8
  payload : List UInt8
  deriving DecidableEq, Repr

/-- `AppendEntry`: what an append request says of one batch. -/
structure AppendEntry where
  streamId : UInt64
  index : UInt32
  offset : Option UInt64
  len : UInt32
  deriving DecidableEq, Repr

/-- The entry `parse_append_entry` builds from a verified table; a negative
base offset is one not assigned yet. -/
def AppendEntry.ofMeta (metadata : RecordBatchMeta) : AppendEntry :=
  let baseOffset := metadata.baseOffset
  let offset := if baseOffset ≥ 0 then some baseOffset.toUInt64 else none
  ⟨metadata.streamId.toUInt64, metadata.rangeIndex.toUInt32, offset, metadata.lastOffsetDelta.toUInt32⟩

/-- The bytes of a record batch: magic, metadata length, metadata, payload
length and payload. -/
def frame (magic : UInt8) (metadataLen : UInt32) (metadata : List UInt8) (payloadLen : UInt32)
    (payload : List UInt8) : List UInt8 :=
  magic :: (be32 metadataLen ++ metadata ++ be32 payloadLen ++ payload)

@[simp] theorem length_frame (magic : UInt8) (x : UInt32) (metadata : List UInt8) (y : UInt32)
    (payload : List UInt8) :
    (frame magic x metadata y payload).length = MIN_RECORD_BATCH_LEN + metadata.length + payload.length := by
  simp only [frame, List.length_cons, List.length_append, length_be32, MIN_RECORD_BATCH_LEN]
  omega

/-- `put_i32`, big-endian. -/
def putI32 (x : Int32) : List UInt8 := be32 x.toUInt32

section
variable (c : MetaCodec)

namespace FlatRecordBatch

/-- `init_from_struct`, the conversion `From<RecordBatch>`. -/
def initFromStruct (recordBatch : RecordBatch) : FlatRecordBatch :=
  ⟨some RecordMagic.magic0, c.pack recordBatch.metadata, recordBatch.payload⟩

/-- `encode`: the slices to send, and their total length as an `i32`. -/
def encode (self : FlatRecordBatch) : List (List UInt8) × Int32 :=
  let metaLen := self.metadata.length
  let totalLen := MIN_RECORD_BATCH_LEN + metaLen
  let batchPrefix := (self.magic.getD RecordMagic.magic0).toUInt8 :: putI32 (Int32.ofNat metaLen)
  let totalLen := totalLen + self.payload.length
  ([batchPrefix, self.metadata, putI32 (Int32.ofNat self.payload.length), self.payload], Int32.ofNat totalLen)

/-- `init_from_buf`: the batch and the buffer advanced past it. The source
advances `buf` only when it returns the batch, so an error leaves it as it
was. -/
def initFromBuf (buf : List UInt8) : Outcome DecodeError (FlatRecordBatch × List UInt8) := do
  let cursor := Cursor.new buf
  if cursor.remaining < MIN_RECORD_BATCH_LEN then .error .dataLengthMismatch else
  let (magic, cursor) ← cursor.getI8
  if magic ≠ RecordMagic.magic0 then .error .invalidMagic else
  let (metadataLen, cursor) ← cursor.getI32
  let metadataLen := asUsize metadataLen
  let need ← Outcome.add (2 ^ 64) metadataLen 4
  if cursor.remaining < need then .error .dataLengthMismatch else
  let cursor ← cursor.advance metadataLen
  let (payloadLen, cursor) ← cursor.getI32
  let payloadLen := asUsize payloadLen
  if cursor.remaining < payloadLen then .error .dataLengthMismatch else
  let metadata ← Bytes.slice buf (1 + 4) (1 + 4 + metadataLen)
  let payloadFrom := 1 + 4 + metadataLen + 4
  let payloadTo := payloadFrom + payloadLen
  let payload ← Bytes.slice buf payloadFrom payloadTo
  let buf ← Bytes.advance buf payloadTo
  pure (⟨some magic, metadata, payload⟩, buf)

end FlatRecordBatch

/-- `Payload::parse_append_entry`: the entry of the batch at the start of
`payload` and the bytes it takes, or `(None, 0)` on an empty payload. -/
def parseAppendEntry (payload : List UInt8) : Outcome DecodeError (Option AppendEntry × Nat) :=
  if payload.isEmpty then pure (none, 0) else do
  let cursor := Cursor.new payload
  if cursor.remaining < 9 then .error .dataLengthMismatch else
  let (magicCode, cursor) ← cursor.getI8
  if magicCode ≠ RecordMagic.magic0 then .error .invalidMagic else
  let (metadataLen, cursor) ← cursor.getI32
  let metadataLen := asUsize metadataLen
  if cursor.remaining ≤ metadataLen then .error .dataLengthMismatch else
  -- partial decode via FlatBuffers, of `remaining[..metadata_len]`
  match c.root (cursor.rest.take metadataLen) with
  | none => .error .flatbuffer
  | some metadata => do
    let entry := AppendEntry.ofMeta metadata
    let cursor ← cursor.advance metadataLen
    let (payloadLen, cursor) ← cursor.getI32
    let payloadLen := asUsize payloadLen
    if cursor.remaining < payloadLen then .error .dataLengthMismatch else
    let cursor ← cursor.advance payloadLen
    pure (some entry, cursor.pos)

/-! ## What the decoders read from a batch -/

theorem magic_toInt8 : (0x22 : UInt8).toInt8 = RecordMagic.magic0 := by decide

theorem toUInt8_magic0 : RecordMagic.magic0.toUInt8 = 0x22 := by decide

/-- **`parse_append_entry` reads a batch back.** Whatever follows it, a batch
whose lengths are those of its metadata and payload, and whose metadata
verifies, parses to its entry, and the bytes it takes are the batch's. -/
theorem parseAppendEntry_frame {M P : List UInt8} {m : RecordBatchMeta} {x y : UInt32}
    (hm : c.root M = some m) (hx : asUsize x.toInt32 = M.length) (hy : asUsize y.toInt32 = P.length)
    (t : List UInt8) :
    parseAppendEntry c (frame 0x22 x M y P ++ t) =
      .ok (some (AppendEntry.ofMeta m), MIN_RECORD_BATCH_LEN + M.length + P.length) := by
  have hlen : ¬ (0x22 :: (be32 x ++ (M ++ (be32 y ++ (P ++ t))))).length < 9 := by simp; omega
  have hmeta : ¬ (M ++ (be32 y ++ (P ++ t))).length ≤ M.length := by simp
  have hpayload : ¬ (P ++ t).length < P.length := by simp
  simp only [parseAppendEntry, frame, List.cons_append, List.append_assoc, List.isEmpty_cons,
    Bool.false_eq_true, if_false, Cursor.new, Cursor.remaining_mk, Cursor.getI8_cons, Outcome.liftM_some,
    Outcome.ok_bind, magic_toInt8, if_neg hlen, ne_eq, not_true_eq_false, Cursor.getI32_append, hx, hy,
    if_neg hmeta, List.take_left, hm, Cursor.advance_append rfl, if_neg hpayload, Outcome.pure_eq,
    MIN_RECORD_BATCH_LEN]
  rw [show 0 + 1 + 4 + M.length + 4 + P.length = 1 + 4 + 4 + M.length + P.length by omega]

/-- **`parse_append_entry` panics on a short tail.** After a metadata table
that verifies, one to three bytes pass the check `remaining <= metadata_len`,
and `get_i32` then runs out of bytes. -/
theorem parseAppendEntry_short_tail {M t : List UInt8} {m : RecordBatchMeta} {x : UInt32}
    (hm : c.root M = some m) (hx : asUsize x.toInt32 = M.length) (ht : 0 < t.length) (ht4 : t.length < 4)
    (hmin : MIN_RECORD_BATCH_LEN ≤ 1 + 4 + M.length + t.length) :
    parseAppendEntry c (0x22 :: (be32 x ++ M ++ t)) = .panic := by
  simp only [MIN_RECORD_BATCH_LEN] at hmin
  have hlen : ¬ (0x22 :: (be32 x ++ (M ++ t))).length < 9 := by
    simp only [List.length_cons, List.length_append, length_be32]; omega
  have hmeta : ¬ (M ++ t).length ≤ M.length := by simp only [List.length_append]; omega
  have hshort : (Cursor.mk t (0 + 1 + 4 + M.length)).getI32 = none := Cursor.getI32_eq_none ht4
  simp only [parseAppendEntry, List.append_assoc, List.isEmpty_cons, Bool.false_eq_true, if_false, Cursor.new,
    Cursor.remaining_mk, Cursor.getI8_cons, Outcome.liftM_some, Outcome.ok_bind, magic_toInt8, if_neg hlen,
    ne_eq, not_true_eq_false, Cursor.getI32_append, hx, if_neg hmeta, List.take_left, hm,
    Cursor.advance_append rfl, hshort, Outcome.liftM_none, Outcome.panic_bind]

/-- What a batch that `parse_append_entry` accepts looks like: the layout of
`frame`, with lengths that match, metadata that verifies, and any bytes after. -/
theorem parseAppendEntry_eq_some {b : List UInt8} {e : AppendEntry} {n : Nat}
    (h : parseAppendEntry c b = .ok (some e, n)) :
    ∃ x y M P t m, b = frame 0x22 x M y P ++ t ∧ c.root M = some m ∧ e = AppendEntry.ofMeta m ∧
      asUsize x.toInt32 = M.length ∧ asUsize y.toInt32 = P.length ∧
      n = MIN_RECORD_BATCH_LEN + M.length + P.length := by
  unfold parseAppendEntry at h
  dsimp only at h
  split_ifs at h with hempty hshort
  · cases h
  -- peel the reads off one by one, each giving the bytes it consumed
  obtain ⟨⟨magic, c₁⟩, h₁, h⟩ := Outcome.bind_eq_ok.mp h
  obtain ⟨b₀, rfl, hb, hpos₁⟩ := Cursor.getI8_eq_some (Outcome.liftM_eq_ok.mp h₁)
  simp only [Cursor.new] at hb hpos₁
  dsimp only at h
  split_ifs at h with hmagic
  obtain ⟨⟨lenM, c₂⟩, h₂, h⟩ := Outcome.bind_eq_ok.mp h
  obtain ⟨x, rfl, hc₁, hpos₂⟩ := Cursor.getI32_eq_some (Outcome.liftM_eq_ok.mp h₂)
  dsimp only at h
  split_ifs at h with hroom
  split at h
  · cases h
  rename_i m hm
  obtain ⟨c₃, h₃, h⟩ := Outcome.bind_eq_ok.mp h
  obtain ⟨M, hc₂, hM, hpos₃⟩ := Cursor.advance_eq_some (Outcome.liftM_eq_ok.mp h₃)
  obtain ⟨⟨lenP, c₄⟩, h₄, h⟩ := Outcome.bind_eq_ok.mp h
  obtain ⟨y, rfl, hc₃, hpos₄⟩ := Cursor.getI32_eq_some (Outcome.liftM_eq_ok.mp h₄)
  dsimp only at h
  split_ifs at h with hpay
  obtain ⟨c₅, h₅, h⟩ := Outcome.bind_eq_ok.mp h
  obtain ⟨P, hc₄, hP, hpos₅⟩ := Cursor.advance_eq_some (Outcome.liftM_eq_ok.mp h₅)
  simp only [Outcome.pure_eq, Outcome.ok.injEq, Prod.mk.injEq, Option.some.injEq] at h
  obtain ⟨rfl, rfl⟩ := h
  have hb₀ : b₀ = 0x22 := by rw [← UInt8.toUInt8_toInt8 b₀, not_not.mp hmagic]; rfl
  rw [hc₂, ← hM, List.take_left] at hm
  refine ⟨x, y, M, P, c₅.rest, m, ?_, hm, rfl, hM.symm, hP.symm, ?_⟩
  · simp only [frame, hb, hb₀, hc₁, hc₂, hc₃, hc₄, List.cons_append, List.append_assoc]
  · simp only [MIN_RECORD_BATCH_LEN]
    omega

/-- What `parse_append_entry` reads of a batch is all in the bytes it takes:
it reads the same from those bytes alone. -/
theorem parseAppendEntry_take {b : List UInt8} {e : AppendEntry} {n : Nat}
    (h : parseAppendEntry c b = .ok (some e, n)) : parseAppendEntry c (b.take n) = .ok (some e, n) := by
  obtain ⟨x, y, M, P, t, m, rfl, hm, rfl, hx, hy, rfl⟩ := parseAppendEntry_eq_some c h
  have htake : (frame 0x22 x M y P ++ t).take (MIN_RECORD_BATCH_LEN + M.length + P.length) =
      frame 0x22 x M y P ++ [] := by
    rw [← length_frame 0x22 x M y P, List.take_left, List.append_nil]
  rw [htake, parseAppendEntry_frame c hm hx hy]

/-- A batch that `parse_append_entry` accepts takes at least the nine bytes of
its lengths and magic, and no more than there are. -/
theorem le_of_parseAppendEntry {b : List UInt8} {e : AppendEntry} {n : Nat}
    (h : parseAppendEntry c b = .ok (some e, n)) : MIN_RECORD_BATCH_LEN ≤ n ∧ n ≤ b.length := by
  obtain ⟨x, y, M, P, t, m, rfl, -, -, -, -, rfl⟩ := parseAppendEntry_eq_some c h
  simp only [List.length_append, length_frame]
  omega

/-- `Payload::parse_append_entries`: the entries of the batches laid end to
end in `payload`. Each turn takes at least the nine bytes of a batch's magic
and lengths, so the loop ends. -/
def parseAppendEntries (payload : List UInt8) : Outcome DecodeError (List AppendEntry) :=
  match h : parseAppendEntry c payload with
  | .ok (some entry, len) =>
    have _hlt : (payload.drop len).length < payload.length := by
      have := le_of_parseAppendEntry c h
      simp only [List.length_drop, MIN_RECORD_BATCH_LEN] at this ⊢
      omega
    do
    let entries ← parseAppendEntries (payload.drop len)
    pure (entry :: entries)
  | .ok (none, _) => pure []
  | .error e => .error e
  | .panic => .panic
termination_by payload.length
decreasing_by exact _hlt

/-- A panic of the first parse is one of the whole loop. -/
theorem parseAppendEntries_of_panic {payload : List UInt8} (h : parseAppendEntry c payload = .panic) :
    parseAppendEntries c payload = .panic := by
  rw [parseAppendEntries]
  split <;> simp_all

/-- A batch that parses is followed by the entries of the bytes after it. -/
theorem parseAppendEntries_of_some {payload : List UInt8} {entry : AppendEntry} {n : Nat}
    (h : parseAppendEntry c payload = .ok (some entry, n)) :
    parseAppendEntries c payload = (do
      let entries ← parseAppendEntries c (payload.drop n)
      pure (entry :: entries)) := by
  rw [parseAppendEntries]
  split
  · rename_i entry' n' h'
    rw [h] at h'
    simp only [Outcome.ok.injEq, Prod.mk.injEq, Option.some.injEq] at h'
    obtain ⟨rfl, rfl⟩ := h'
    rfl
  all_goals simp_all

namespace FlatRecordBatch

/-- **A metadata length of -1 to -4 overflows `init_from_buf`.** Widened to
`usize`, it lies within 4 of 2^64, and `metadata_len + 4` overflows. (A release
build wraps the sum instead, and `cursor.advance` then panics.) -/
theorem initFromBuf_negative_length {x : UInt32} {rest : List UInt8} (hx : 2 ^ 32 - 4 ≤ x.toNat)
    (hrest : 4 ≤ rest.length) : initFromBuf (0x22 :: (be32 x ++ rest)) = .panic := by
  have hlen : ¬ (0x22 :: (be32 x ++ rest)).length < MIN_RECORD_BATCH_LEN := by
    simp only [List.length_cons, List.length_append, length_be32, MIN_RECORD_BATCH_LEN]; omega
  have hwide := asUsize_toInt32_of_ge (show 2 ^ 31 ≤ x.toNat by omega)
  have hover : 2 ^ 64 ≤ asUsize x.toInt32 + 4 := by omega
  simp only [initFromBuf, Cursor.new, Cursor.remaining_mk, if_neg hlen, Cursor.getI8_cons, Outcome.liftM_some,
    Outcome.ok_bind, magic_toInt8, ne_eq, not_true_eq_false, if_false, Cursor.getI32_append,
    Outcome.add_of_le hover, Outcome.panic_bind]

/-- The bytes of `encode` are the layout of `frame`, with the two lengths
written as `i32`s. -/
theorem flatten_encode_initFromStruct (r : RecordBatch) :
    ((initFromStruct c r).encode).1.flatten =
      frame 0x22 (UInt32.ofNat (c.pack r.metadata).length) (c.pack r.metadata)
        (UInt32.ofNat r.payload.length) r.payload := by
  simp [encode, initFromStruct, putI32, frame, toUInt8_magic0]

end FlatRecordBatch

open FlatRecordBatch

/-- The bytes `encode` gives for a batch. -/
def encoded (r : RecordBatch) : List UInt8 := ((initFromStruct c r).encode).1.flatten

/-- A batch whose encoding is shorter than 2^31 bytes: its lengths fit the
`i32` fields they are written to. -/
def Fits (r : RecordBatch) : Prop := MIN_RECORD_BATCH_LEN + (c.pack r.metadata).length + r.payload.length < 2 ^ 31

theorem length_encoded (r : RecordBatch) :
    (encoded c r).length = MIN_RECORD_BATCH_LEN + (c.pack r.metadata).length + r.payload.length := by
  rw [encoded, flatten_encode_initFromStruct, length_frame]

/-- **`parse_append_entry` reads what `encode` wrote**, whatever follows. -/
theorem parseAppendEntry_encoded {r : RecordBatch} (hr : Fits c r) (t : List UInt8) :
    parseAppendEntry c (encoded c r ++ t) = .ok (some (AppendEntry.ofMeta r.metadata), (encoded c r).length) := by
  unfold Fits at hr
  rw [encoded, flatten_encode_initFromStruct,
    parseAppendEntry_frame c (c.root_pack r.metadata) (asUsize_ofNat (by omega)) (asUsize_ofNat (by omega)),
    length_frame]

/-- **`parse_append_entries` reads batches back**: on the encodings of
batches laid end to end, the entries of their metadata, in order. -/
theorem parseAppendEntries_encoded :
    ∀ {rs : List RecordBatch}, (∀ r ∈ rs, Fits c r) →
      parseAppendEntries c (rs.flatMap (encoded c)) = .ok (rs.map fun r => AppendEntry.ofMeta r.metadata)
  | [], _ => by rw [parseAppendEntries]; simp [parseAppendEntry]
  | r :: rs, hfits => by
    have hrest := parseAppendEntries_encoded fun r' hr' => hfits r' (List.mem_cons_of_mem _ hr')
    rw [List.flatMap_cons, parseAppendEntries_of_some c (parseAppendEntry_encoded c (hfits r List.mem_cons_self) _),
      List.drop_left, hrest, Outcome.ok_bind, Outcome.pure_eq, List.map_cons]

end

end ElasticStream.Model
