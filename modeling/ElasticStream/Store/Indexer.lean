import Mathlib
import ElasticStream.Codec.ByteOrder
import ElasticStream.Codec.Cursor
import ElasticStream.Collections.SortedMap
import ElasticStream.Store.Record

/-! # The record index

`DefaultIndexer` (store/src/index/indexer.rs) keeps a RocksDB column family
that maps each record batch's `RecordIndex` (stream id, range and base offset,
as 20 big-endian bytes) to its `RecordHandle`: where the batch lies in the
WAL, its length, and the number of offsets it holds. Lookups bound RocksDB
iterators by hand-built byte strings. The column family iterates in bytewise
order, which on index keys is the order of their fields
(`RecordIndex.toBytes_lt_toBytes_iff`), so a 12-byte prefix bounds exactly the
keys of one range (`mem_between_rangePrefix`).

`scan_record_left_shift` moves the start of a read back to the base of the
batch that holds it, found by `retrieve_left_key`. That lookup compares the
start with the range's greatest base first and gives up above it. A read
that starts inside the last batch of a range therefore scans from its own
offset, and misses that batch (`scanRecordLeftShift_past_last_base`). -/

namespace ElasticStream.Store

open ElasticStream.Codec ElasticStream.Collections

/-- `RecordIndex`: the key of an index entry. -/
structure RecordIndex where
  streamId : Nat
  range : Nat
  offset : Nat
  deriving DecidableEq, Repr

namespace RecordIndex

/-- The fields fit the source's `u64`, `u32` and `u64`. -/
def Valid (k : RecordIndex) : Prop := k.streamId < 2 ^ 64 ∧ k.range < 2 ^ 32 ∧ k.offset < 2 ^ 64

instance (k : RecordIndex) : Decidable k.Valid := inferInstanceAs (Decidable (_ ∧ _))

/-- The fields in lexicographic order, stream first. -/
def lex (k : RecordIndex) : Nat ×ₗ Nat ×ₗ Nat := toLex (k.streamId, toLex (k.range, k.offset))

theorem lex_injective : Function.Injective lex := by
  rintro ⟨s, r, o⟩ ⟨s', r', o'⟩ h
  simp only [lex, EmbeddingLike.apply_eq_iff_eq, Prod.mk.injEq] at h
  obtain ⟨rfl, rfl, rfl⟩ := h
  rfl

instance : LinearOrder RecordIndex := LinearOrder.lift' lex lex_injective

theorem lt_iff {k k' : RecordIndex} :
    k < k' ↔ k.streamId < k'.streamId ∨ k.streamId = k'.streamId ∧
      (k.range < k'.range ∨ k.range = k'.range ∧ k.offset < k'.offset) := by
  show k.lex < k'.lex ↔ _
  simp only [lex, Prod.Lex.toLex_lt_toLex]

/-- `From<&RecordIndex> for Bytes`. -/
def toBytes (k : RecordIndex) : List UInt8 := be64 k.streamId ++ Codec.toBytes 4 k.range ++ be64 k.offset

/-- `RecordIndex::try_from`. -/
def tryFrom (value : List UInt8) : Outcome String RecordIndex :=
  if value.length ≠ 20 then
    .error ("Key of index entry should contain stream_id[8B], range[4B], offset[8B], but got " ++
      toString value.length ++ "B")
  else do
    let (streamId, c) ← liftM (Cursor.new value).getU64
    let (range, c) ← liftM c.getU32
    let (offset, _) ← liftM c.getU64
    pure ⟨streamId, range.toNat, offset⟩

@[simp] theorem length_toBytes (k : RecordIndex) : k.toBytes.length = 20 := by
  simp [toBytes, be64]

/-- Index keys compare bytewise as their fields do. -/
theorem toBytes_lt_toBytes_iff {k k' : RecordIndex} (hk : k.Valid) (hk' : k'.Valid) :
    k.toBytes < k'.toBytes ↔ k < k' := by
  obtain ⟨hs, hr, ho⟩ := hk
  obtain ⟨hs', hr', ho'⟩ := hk'
  have h8 : (2 : Nat) ^ 64 = 256 ^ 8 := by norm_num
  have h4 : (2 : Nat) ^ 32 = 256 ^ 4 := by norm_num
  rw [h8] at hs hs' ho ho'
  rw [h4] at hr hr'
  simp only [toBytes, be64, List.append_assoc]
  rw [append_lt_append_iff (by simp), append_lt_append_iff (by simp), Codec.toBytes_lt_toBytes_iff hs hs',
    Codec.toBytes_lt_toBytes_iff hr hr', Codec.toBytes_lt_toBytes_iff ho ho', toBytes_inj hs hs',
    toBytes_inj hr hr', lt_iff]

theorem tryFrom_toBytes {k : RecordIndex} (hk : k.Valid) : tryFrom k.toBytes = .ok k := by
  obtain ⟨hs, hr, ho⟩ := hk
  have hrange : (fromBe32 (Codec.toBytes 4 k.range)).toNat = k.range := by
    rw [fromBe32, UInt32.toNat_ofNat', ofBytes_toBytes]
    simp only [show (256 : Nat) ^ 4 = 2 ^ 32 from rfl, Nat.mod_eq_of_lt hr]
  have hread4 : (Cursor.mk (Codec.toBytes 4 k.range ++ be64 k.offset) 8).getU32 =
      some (fromBe32 (Codec.toBytes 4 k.range), ⟨be64 k.offset, 12⟩) := by
    simp [Cursor.getU32, Cursor.take_append (Codec.length_toBytes 4 k.range)]
  have hread8 : (Cursor.mk (be64 k.offset) 12).getU64 = some (k.offset, ⟨[], 20⟩) := by
    simpa using @Cursor.getU64_append [] 12 k.offset ho
  rw [tryFrom, if_neg (by simp)]
  simp only [toBytes, List.append_assoc, Cursor.new, Cursor.getU64_append hs, Outcome.liftM_some,
    Outcome.ok_bind, Nat.zero_add, hread4, hread8, hrange, Outcome.pure_eq]

end RecordIndex

/-- `HandleExt`. -/
inductive HandleExt where
  /-- hash of the record's tag, a `u64` -/
  | hash (h : Nat)
  /-- number of the nested entries -/
  | batchSize (n : UInt32)
  deriving DecidableEq, Repr

/-- `RecordHandle`: where a record batch lies in the WAL. -/
structure RecordHandle where
  walOffset : Nat
  len : UInt32
  ext : HandleExt
  deriving DecidableEq, Repr

/-- A record of the index: its key and its handle. -/
structure Record where
  index : RecordIndex
  handle : RecordHandle
  deriving DecidableEq, Repr

namespace RecordHandle

/-- The WAL offset and hash fit a `u64`, and the length the 3 bytes it is
packed into. -/
def Valid (h : RecordHandle) : Prop :=
  h.walOffset < 2 ^ 64 ∧ h.len.toNat < 2 ^ 24 ∧ ∀ x, h.ext = .hash x → x < 2 ^ 64

/-- `From<&RecordHandle> for Bytes`: the length in the upper 3 bytes of a
`u32`, the type of the extension in its low byte. -/
def toBytes (h : RecordHandle) : List UInt8 :=
  let lengthType := h.len <<< 8
  match h.ext with
  | .hash hash => be64 h.walOffset ++ be32 lengthType ++ be64 hash
  | .batchSize len => be64 h.walOffset ++ be32 (lengthType ||| 1) ++ be32 len

/-- `RecordHandle::try_from`: a type other than 0 and 1 is `unreachable!`, and
a missing extension fails its `debug_assert!`. -/
def tryFrom (value : List UInt8) : Outcome String RecordHandle :=
  if value.length < 12 then
    .error ("Value of index entry should at least contain offset[8B], length_type[4B], but got " ++
      toString value.length ++ "B")
  else do
    let (offset, c) ← liftM (Cursor.new value).getU64
    let (lengthType, c) ← liftM c.getU32
    let ty := lengthType &&& 0xFF
    let len := lengthType >>> 8
    let ext ← if ty = 0 then do
        Outcome.assert (c.remaining ≥ 8)
        let (hash, _) ← liftM c.getU64
        pure (HandleExt.hash hash)
      else if ty = 1 then do
        Outcome.assert (c.remaining ≥ 4)
        let (n, _) ← liftM c.getU32
        pure (HandleExt.batchSize n)
      else .panic
    pure ⟨offset, len, ext⟩

/-- The length word is the header word of a WAL record of type `zero` or
`full`, which packs a length the same way. -/
theorem shiftLeft_eq_withLength (len : UInt32) : len <<< 8 = RecordType.zero.withLength len := by
  simp [RecordType.withLength, RecordType.toU8]

theorem or_one_eq_withLength (len : UInt32) : len <<< 8 ||| 1 = RecordType.full.withLength len := rfl

/-- What the decoder reads back from a length word: the type in the low byte. -/
theorem and_withLength (t : RecordType) (len : UInt32) :
    t.withLength len &&& 0xFF = t.toU8.toUInt32 := by
  have ht : t.toU8.toNat < 256 := t.toU8.toNat_lt
  apply UInt32.toNat_inj.mp
  rw [UInt32.toNat_and, RecordType.toNat_withLength_mod, show (0xFF : UInt32).toNat = 2 ^ 8 - 1 from rfl,
    Nat.and_two_pow_sub_one_eq_mod, UInt8.toNat_toUInt32]
  omega

theorem shiftRight_withLength_eq (t : RecordType) {len : UInt32} (h : len.toNat < 2 ^ 24) :
    t.withLength len >>> 8 = len :=
  UInt32.toNat_inj.mp (by rw [RecordType.shiftRight_withLength, Nat.mod_eq_of_lt h])

theorem length_toBytes_ge (h : RecordHandle) : 12 ≤ h.toBytes.length := by
  unfold toBytes
  split <;> simp [be64]

theorem tryFrom_toBytes {h : RecordHandle} (hh : h.Valid) : tryFrom h.toBytes = .ok h := by
  obtain ⟨hw, hlen, hhash⟩ := hh
  obtain ⟨walOffset, len, ext⟩ := h
  rw [tryFrom, if_neg (Nat.not_lt.mpr (length_toBytes_ge _))]
  cases ext with
  | hash x =>
    have hx := hhash x rfl
    simp only [toBytes, List.append_assoc, Cursor.new, Cursor.getU64_append hw, Outcome.liftM_some,
      Outcome.ok_bind, Cursor.getU32_append, shiftLeft_eq_withLength, and_withLength,
      shiftRight_withLength_eq _ hlen]
    have hx' : (Cursor.mk (Codec.toBytes 8 x) 12).getU64 = some (x, ⟨[], 20⟩) := by
      simpa [be64] using @Cursor.getU64_append [] 12 x hx
    simp [RecordType.toU8, Cursor.remaining, be64, hx']
  | batchSize n =>
    simp only [toBytes, List.append_assoc, Cursor.new, Cursor.getU64_append hw, Outcome.liftM_some,
      Outcome.ok_bind, Cursor.getU32_append, or_one_eq_withLength, and_withLength,
      shiftRight_withLength_eq _ hlen]
    have hn : (Cursor.mk (be32 n) 12).getU32 = some (n, ⟨[], 16⟩) := by
      simpa using @Cursor.getU32_append [] 12 n
    simp [RecordType.toU8, Cursor.remaining, hn]

end RecordHandle

/-! ## The column family and its scans -/

/-- The index column family: encoded handles by key, in key order. -/
abbrev IndexCf := SortedMap RecordIndex (List UInt8)

/-- `DefaultIndexer::index`: `put_cf` of the encoded key and handle. -/
def index (cf : IndexCf) (record : Record) : IndexCf := cf.insert record.index record.handle.toBytes

/-- The entries an iterator bounded below by `lower` and above by `upper`
visits, in the bytewise order of their keys. -/
def between (cf : IndexCf) (lower upper : List UInt8) : List (RecordIndex × List UInt8) :=
  cf.entries.filter fun e => decide (lower ≤ e.1.toBytes) && decide (e.1.toBytes < upper)

/-- A bound of 12 bytes, `put_u64(stream_id)` and `put_u32(range)`. -/
def rangePrefix (streamId range : Nat) : List UInt8 := be64 streamId ++ Codec.toBytes 4 range

/-- The closure of every scan: the record an entry decodes to, `None` where the
key or the value does not decode. -/
def decodeEntry (e : RecordIndex × List UInt8) : Outcome Empty (Option Record) :=
  match RecordIndex.tryFrom e.1.toBytes with
  | .error _ => pure none
  | .panic => .panic
  | .ok index =>
    match RecordHandle.tryFrom e.2 with
    | .error _ => pure none
    | .panic => .panic
    | .ok handle => pure (some ⟨index, handle⟩)

/-- `retrieve_max_key`: a reverse scan of the keys of the range; `range + 1`
overflows a `u32` at `u32::MAX`. -/
def retrieveMaxKey (cf : IndexCf) (streamId range : Nat) : Outcome Empty (Option Record) :=
  if range + 1 < 2 ^ 32 then
    match (between cf (rangePrefix streamId range) (rangePrefix streamId (range + 1))).getLast? with
    | none => pure none
    | some e => decodeEntry e
  else .panic

/-- `retrieve_left_key`: the record of the greatest base at or below `offset`,
looked up only when `offset` is at most the range's greatest base. -/
def retrieveLeftKey (cf : IndexCf) (streamId range offset : Nat) : Outcome Empty (Option Record) := do
  match ← retrieveMaxKey cf streamId range with
  | none => pure none
  | some record =>
    if offset > record.index.offset then pure none
    else if offset = record.index.offset then pure (some record)
    else
      -- reverse scan of `[(stream_id, range, 0), (stream_id, range, offset + 1))`
      match (between cf (RecordIndex.toBytes ⟨streamId, range, 0⟩)
          (RecordIndex.toBytes ⟨streamId, range, offset + 1⟩)).getLast? with
      | none => pure none
      | some e => decodeEntry e

/-- The `map_while` of `scan_records_from`: records while fewer than
`maxBytes` bytes are taken, up to the first entry that does not decode.
`bytes_c += handle.len` overflows a `u32`. -/
def takeRecords : List (RecordIndex × List UInt8) → Nat → Nat → Outcome Empty (List Record)
  | [], _, _ => pure []
  | e :: rest, bytes, maxBytes =>
    if maxBytes ≤ bytes then pure []
    else do
      match ← decodeEntry e with
      | none => pure []
      | some record =>
        if bytes + record.handle.len.toNat < 2 ^ 32 then do
          let records ← takeRecords rest (bytes + record.handle.len.toNat) maxBytes
          pure (record :: records)
        else .panic

/-- `scan_records_from`. -/
def scanRecordsFrom (entries : List (RecordIndex × List UInt8)) (maxBytes : Nat) :
    Outcome Empty (Option (List Record)) := do
  let records ← takeRecords entries 0 maxBytes
  pure (if records.isEmpty then none else some records)

/-- `scan_record_left_shift`: a forward scan from the left key to the key of
`maxOffset`. The upper bound `(stream_id + 1).to_be_bytes()` set first is
replaced before the scan; only its overflow at `u64::MAX` remains. -/
def scanRecordLeftShift (cf : IndexCf) (streamId range offset maxOffset maxBytes : Nat) :
    Outcome Empty (Option (List Record)) := do
  let leftKeyRecord ← retrieveLeftKey cf streamId range offset
  let leftKey := (leftKeyRecord.map (·.index.toBytes)).getD (RecordIndex.toBytes ⟨streamId, range, offset⟩)
  Outcome.assert (streamId + 1 < 2 ^ 64)
  scanRecordsFrom (between cf leftKey (RecordIndex.toBytes ⟨streamId, range, maxOffset⟩)) maxBytes

/-- Every entry as `index` writes it: a key that fits its fields and an
encoded handle. -/
def WellFormed (cf : IndexCf) : Prop :=
  ∀ e ∈ cf.entries, e.1.Valid ∧ ∃ h : RecordHandle, h.Valid ∧ e.2 = h.toBytes

/-- `index` keeps the column family well formed. -/
theorem WellFormed.index {cf : IndexCf} (hcf : WellFormed cf) {record : Record}
    (hk : record.index.Valid) (hh : record.handle.Valid) : WellFormed (Store.index cf record) := by
  intro e he
  rcases SortedMap.mem_insert.mp he with rfl | ⟨he, -⟩
  · exact ⟨hk, record.handle, hh, rfl⟩
  · exact hcf e he

/-! ## What the bounds select -/

section Bounds

variable {cf : IndexCf} {e : RecordIndex × List UInt8}

/-- A key compares with a 12-byte bound as its stream and range do. -/
theorem toBytes_lt_rangePrefix_iff {k : RecordIndex} (hk : k.Valid) {streamId range : Nat}
    (hs : streamId < 2 ^ 64) (hr : range < 2 ^ 32) :
    k.toBytes < rangePrefix streamId range ↔
      k.streamId < streamId ∨ k.streamId = streamId ∧ k.range < range := by
  obtain ⟨hks, hkr, -⟩ := hk
  have h8 : (2 : Nat) ^ 64 = 256 ^ 8 := by norm_num
  have h4 : (2 : Nat) ^ 32 = 256 ^ 4 := by norm_num
  rw [h8] at hs hks
  rw [h4] at hr hkr
  have hlen : (rangePrefix streamId range).length = (be64 k.streamId ++ Codec.toBytes 4 k.range).length := by
    simp [rangePrefix, be64]
  rw [RecordIndex.toBytes, append_lt_iff hlen, rangePrefix, be64, be64, append_lt_append_iff (by simp),
    Codec.toBytes_lt_toBytes_iff hks hs, toBytes_inj hks hs, Codec.toBytes_lt_toBytes_iff hkr hr]

/-- The 12-byte bounds of `retrieve_max_key` hold the keys of one range. -/
theorem mem_between_rangePrefix (hcf : WellFormed cf) {streamId range : Nat} (hs : streamId < 2 ^ 64)
    (hr : range + 1 < 2 ^ 32) :
    e ∈ between cf (rangePrefix streamId range) (rangePrefix streamId (range + 1)) ↔
      e ∈ cf.entries ∧ e.1.streamId = streamId ∧ e.1.range = range := by
  simp only [between, List.mem_filter, Bool.and_eq_true, decide_eq_true_eq]
  refine and_congr_right fun he => ?_
  have hk := (hcf e he).1
  rw [← List.not_lt, toBytes_lt_rangePrefix_iff hk hs (by omega), toBytes_lt_rangePrefix_iff hk hs hr]
  omega

/-- The 20-byte bounds of the scans hold the keys of one range between two
offsets. -/
theorem mem_between_toBytes (hcf : WellFormed cf) {streamId range lo hi : Nat} (hs : streamId < 2 ^ 64)
    (hr : range < 2 ^ 32) (hlo : lo < 2 ^ 64) (hhi : hi < 2 ^ 64) :
    e ∈ between cf (RecordIndex.toBytes ⟨streamId, range, lo⟩) (RecordIndex.toBytes ⟨streamId, range, hi⟩) ↔
      e ∈ cf.entries ∧ e.1.streamId = streamId ∧ e.1.range = range ∧ lo ≤ e.1.offset ∧ e.1.offset < hi := by
  simp only [between, List.mem_filter, Bool.and_eq_true, decide_eq_true_eq]
  refine and_congr_right fun he => ?_
  have hk := (hcf e he).1
  rw [← List.not_lt, RecordIndex.toBytes_lt_toBytes_iff hk ⟨hs, hr, hlo⟩,
    RecordIndex.toBytes_lt_toBytes_iff hk ⟨hs, hr, hhi⟩, RecordIndex.lt_iff, RecordIndex.lt_iff]
  dsimp only
  omega

end Bounds

/-! ## Decoding what `index` wrote -/

theorem decodeEntry_of_wellFormed {cf : IndexCf} (hcf : WellFormed cf) {e : RecordIndex × List UInt8}
    (he : e ∈ cf.entries) : ∃ h : RecordHandle, e.2 = h.toBytes ∧ decodeEntry e = .ok (some ⟨e.1, h⟩) := by
  obtain ⟨hk, h, hh, he2⟩ := hcf e he
  refine ⟨h, he2, ?_⟩
  rw [decodeEntry, RecordIndex.tryFrom_toBytes hk]
  simp only [he2, RecordHandle.tryFrom_toBytes hh, Outcome.pure_eq]

/-- The greatest key of a range, decoded. -/
theorem retrieveMaxKey_spec {cf : IndexCf} (hcf : WellFormed cf) {streamId range : Nat}
    (hs : streamId < 2 ^ 64) (hr : range + 1 < 2 ^ 32) :
    retrieveMaxKey cf streamId range = .ok none ∨
      ∃ e ∈ cf.entries, e.1.streamId = streamId ∧ e.1.range = range ∧
        ∃ h, retrieveMaxKey cf streamId range = .ok (some ⟨e.1, h⟩) := by
  rw [retrieveMaxKey, if_pos hr]
  cases hlast : (between cf (rangePrefix streamId range) (rangePrefix streamId (range + 1))).getLast? with
  | none => exact .inl rfl
  | some e =>
    obtain ⟨he, hes, her⟩ := (mem_between_rangePrefix hcf hs hr).mp (List.mem_of_getLast? hlast)
    obtain ⟨h, -, hdec⟩ := decodeEntry_of_wellFormed hcf he
    exact .inr ⟨e, he, hes, her, h, hdec⟩

/-- Above every base of the range there is no left key. -/
theorem retrieveLeftKey_of_lt {cf : IndexCf} (hcf : WellFormed cf) {streamId range offset : Nat}
    (hs : streamId < 2 ^ 64) (hr : range + 1 < 2 ^ 32)
    (habove : ∀ e ∈ cf.entries, e.1.streamId = streamId → e.1.range = range → e.1.offset < offset) :
    retrieveLeftKey cf streamId range offset = .ok none := by
  rcases retrieveMaxKey_spec hcf hs hr with hmax | ⟨e, he, hes, her, h, hmax⟩
  · simp only [retrieveLeftKey, hmax, Outcome.ok_bind, Outcome.pure_eq]
  · have hlt := habove e he hes her
    simp only [retrieveLeftKey, hmax, Outcome.ok_bind, gt_iff_lt, if_pos hlt, Outcome.pure_eq]

theorem scanRecordsFrom_nil (maxBytes : Nat) : scanRecordsFrom [] maxBytes = .ok none := by
  simp [scanRecordsFrom, takeRecords]

/-- **A read past the greatest base of its range finds nothing.** When every
base of the range lies below `offset`, in particular when `offset` lies
strictly inside the range's last batch, `scan_record_left_shift` scans from
`offset` itself and returns `Ok(None)`. -/
theorem scanRecordLeftShift_past_last_base {cf : IndexCf} (hcf : WellFormed cf) {streamId range offset : Nat}
    (hs : streamId + 1 < 2 ^ 64) (hr : range + 1 < 2 ^ 32) (ho : offset < 2 ^ 64)
    (habove : ∀ e ∈ cf.entries, e.1.streamId = streamId → e.1.range = range → e.1.offset < offset)
    (maxOffset maxBytes : Nat) (hm : maxOffset < 2 ^ 64) :
    scanRecordLeftShift cf streamId range offset maxOffset maxBytes = .ok none := by
  have hempty : between cf (RecordIndex.toBytes ⟨streamId, range, offset⟩)
      (RecordIndex.toBytes ⟨streamId, range, maxOffset⟩) = [] := by
    refine List.eq_nil_iff_forall_not_mem.mpr fun e he => ?_
    obtain ⟨he, hes, her, hle, -⟩ := (mem_between_toBytes hcf (by omega) (by omega) ho hm).mp he
    exact absurd (habove e he hes her) (Nat.not_lt.mpr hle)
  simp only [scanRecordLeftShift, retrieveLeftKey_of_lt hcf (by omega) hr habove, Outcome.ok_bind,
    Option.map_none, Option.getD_none, Outcome.assert_of_true hs, hempty, scanRecordsFrom_nil]

/-- A range holding one batch of ten offsets at base 0. -/
def oneBatch : IndexCf := index SortedMap.empty ⟨⟨7, 0, 0⟩, ⟨0, 100, .batchSize 10⟩⟩

/-- A read from offset 5, inside the only batch, returns no record. -/
theorem scanRecordLeftShift_inside_last_batch :
    (oneBatch.find? ⟨7, 0, 0⟩).map RecordHandle.tryFrom = some (.ok ⟨0, 100, .batchSize 10⟩) ∧
      scanRecordLeftShift oneBatch 7 0 5 100 1 = .ok none := by
  have hcf : WellFormed oneBatch :=
    WellFormed.index (fun e he => by simp at he) (by decide) ⟨by decide, by decide, fun x hx => by cases hx⟩
  refine ⟨by decide, scanRecordLeftShift_past_last_base hcf (by decide) (by decide) (by decide) ?_ 100 1
    (by decide)⟩
  intro e he _ _
  have : e = (⟨7, 0, 0⟩, RecordHandle.toBytes ⟨0, 100, .batchSize 10⟩) := by
    simpa [oneBatch, index, SortedMap.insertList] using he
  subst this
  decide

end ElasticStream.Store
