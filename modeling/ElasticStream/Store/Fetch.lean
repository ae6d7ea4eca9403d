import ElasticStream.Store.Segment
import ElasticStream.Codec.Crc32

/-! # Reading records back

A `ReadTask` for a record is answered with the cached buffers that cover it;
`IO::complete_read_task` (store/src/io/uring.rs) narrows each to the read
range, and `ElasticStore::fetch` (store/src/store/elastic_store.rs) strips the
record prefix with `advance_bytes` and checks the rest against it: first the
length in the prefix, then the CRC salted with the segment's WAL offset, which
the reader recomputes from the record's own offset as
`wal_offset / segment_size * segment_size`.

When the buffers tile the bytes the writer laid down, the narrowed slices are
exactly the record (`flatten_completeReadTask`), and a record written into a
segment that starts at a multiple of the segment size passes both checks
(`verifyRecord_appendRecord`), as long as its payload is shorter than `2^24`
bytes. The prefix keeps 24 bits of length, and `append_record` shifts
`payload.len() as u32` into them without a bound: a longer payload loses the
upper bits of its length and fetch reports the record corrupted
(`fetch_rejects_long_record`). -/

namespace ElasticStream.Store
open ElasticStream.Codec

inductive FetchError where
  | submissionQueue
  | channelRecv
  | translateIndex
  | noRecord
  | rangeNotFound
  | badRequest
  | dataCorrupted
  deriving DecidableEq, Repr

/-! ## Narrowing the cached buffers -/

/-- The bytes of `img` in `[x, y)`. -/
def window (img : List UInt8) (x y : Nat) : List UInt8 := (img.drop x).take (y - x)

theorem window_eq_nil (img : List UInt8) {x y : Nat} (h : y ≤ x) : window img x y = [] := by
  simp [window, Nat.sub_eq_zero_of_le h]

theorem window_append (img : List UInt8) {x y z : Nat} (hxy : x ≤ y) (hyz : y ≤ z) :
    window img x y ++ window img y z = window img x z := by
  have hz : z - x = (y - x) + (z - y) := by omega
  rw [window, window, window, hz, List.take_add, List.drop_drop, Nat.add_sub_cancel' hxy]

/-- A window `[max lo a, min hi c)` cut at any `m` between `lo` and `hi`. -/
theorem window_split (img : List UInt8) {lo m hi a c : Nat} (hlm : lo ≤ m) (hmh : m ≤ hi) :
    window img (max lo a) (min m c) ++ window img (max m a) (min hi c) =
      window img (max lo a) (min hi c) := by
  by_cases hma : m ≤ a
  · -- the cut lies before the read range: the first part is empty
    have hnil : window img (max lo a) (min m c) = [] := window_eq_nil img (by omega)
    rw [hnil, List.nil_append, max_eq_right hma, max_eq_right (hlm.trans hma)]
  · by_cases hmc : c ≤ m
    · -- the cut lies after the read range: the second part is empty
      have hnil : window img (max m a) (min hi c) = [] := window_eq_nil img (by omega)
      rw [hnil, List.append_nil, min_eq_right hmc, min_eq_right (hmc.trans hmh)]
    · rw [min_eq_left (by omega : m ≤ c), max_eq_left (by omega : a ≤ m)]
      exact window_append img (by omega) (by omega)

/-- Buffers that hold the bytes of `img` from `lo` to `hi` one after another,
each placed where the previous one ends. -/
def Tiles (img : List UInt8) : Nat → List AlignedBuf → Nat → Prop
  | lo, [], hi => lo = hi
  | lo, b :: bs, hi => b.walOffset = lo ∧ b.data <+: img.drop lo ∧ Tiles img (lo + b.limit) bs hi

theorem Tiles.le {img : List UInt8} : ∀ {lo hi : Nat} {bufs : List AlignedBuf},
    Tiles img lo bufs hi → lo ≤ hi
  | _, _, [], h => Nat.le_of_eq h
  | _, _, _ :: _, ⟨_, _, h⟩ => Nat.le_trans (Nat.le_add_right _ _) h.le

/-- One narrowed buffer is the part of the image its bytes share with the read. -/
theorem narrow_eq_window {img : List UInt8} {b : AlignedBuf} (h : b.data <+: img.drop b.walOffset)
    (readAt readLen : Nat) :
    LogSegment.narrow readAt readLen b =
      window img (max b.walOffset readAt) (min (b.walOffset + b.limit) (readAt + readLen)) := by
  have hdata : b.data = (img.drop b.walOffset).take b.limit := List.prefix_iff_eq_take.mp h
  have hstart : (if b.walOffset < readAt then readAt - b.walOffset else 0) = readAt - b.walOffset := by
    split <;> omega
  simp only [LogSegment.narrow, AlignedBuf.slice, hstart]
  rw [hdata, List.drop_take, List.drop_drop, List.take_take, window]
  have hlo : b.walOffset + (readAt - b.walOffset) = max b.walOffset readAt := by omega
  have hlen : min (b.limit - (b.walOffset + b.limit - (readAt + readLen)) - (readAt - b.walOffset))
      (b.limit - (readAt - b.walOffset)) =
      min (b.walOffset + b.limit) (readAt + readLen) - max b.walOffset readAt := by omega
  rw [hlo, hlen]

/-- `complete_read_task`: each returned buffer cut to `[walOffset, walOffset + len)`. -/
def completeReadTask (walOffset len : Nat) (bufs : List AlignedBuf) : List (List UInt8) :=
  bufs.map (LogSegment.narrow walOffset len)

/-- The run lemma of narrowing: over tiling buffers, the slices spell the part
of the image the tiles share with the read. -/
theorem flatten_completeReadTask_window {img : List UInt8} (readAt len : Nat) :
    ∀ {lo hi : Nat} {bufs : List AlignedBuf}, Tiles img lo bufs hi →
      (completeReadTask readAt len bufs).flatten = window img (max lo readAt) (min hi (readAt + len))
  | lo, _, [], h => by
    rw [show lo = _ from h] at *
    exact (window_eq_nil img (by omega)).symm
  | lo, hi, b :: bs, ⟨hoff, hpre, hrest⟩ => by
    have ih := flatten_completeReadTask_window readAt len hrest
    simp only [completeReadTask, List.map_cons, List.flatten_cons] at ih ⊢
    rw [narrow_eq_window (hoff ▸ hpre), ih, hoff]
    exact window_split img (Nat.le_add_right _ _) hrest.le

/-- Buffers that tile a range covering the read return exactly the bytes read. -/
theorem flatten_completeReadTask {img : List UInt8} {lo hi readAt len : Nat} {bufs : List AlignedBuf}
    (h : Tiles img lo bufs hi) (hlo : lo ≤ readAt) (hhi : readAt + len ≤ hi) :
    (completeReadTask readAt len bufs).flatten = (img.drop readAt).take len := by
  rw [flatten_completeReadTask_window readAt len h, max_eq_right hlo, min_eq_right hhi, window,
    Nat.add_sub_cancel_left]

/-! ## The integrity checks of `fetch` -/

/-- `util::bytes::advance_bytes`: take `n` bytes off the front of the slices,
leaving the slices advanced past them. -/
def advanceBytes : List (List UInt8) → Nat → List UInt8 × List (List UInt8)
  | [], _ => ([], [])
  | b :: bs, 0 => ([], b :: bs)
  | b :: bs, n + 1 =>
    let toAdvance := min (n + 1) b.length
    let rest := advanceBytes bs (n + 1 - toAdvance)
    (b.take toAdvance ++ rest.1, b.drop toAdvance :: rest.2)

/-- What `advance_bytes` takes and leaves, in terms of the concatenated slices. -/
theorem advanceBytes_spec : ∀ (bufs : List (List UInt8)) (n : Nat),
    (advanceBytes bufs n).1 = bufs.flatten.take n ∧ (advanceBytes bufs n).2.flatten = bufs.flatten.drop n
  | [], _ => by simp [advanceBytes]
  | b :: bs, 0 => by simp [advanceBytes]
  | b :: bs, n + 1 => by
    obtain ⟨ih₁, ih₂⟩ := advanceBytes_spec bs (n + 1 - min (n + 1) b.length)
    have htake : b.take (min (n + 1) b.length) = b.take (n + 1) := by
      rw [← List.take_take, List.take_length]
    refine ⟨?_, ?_⟩
    · simp only [advanceBytes, ih₁, htake, List.flatten_cons, List.take_append]
      congr 2
      omega
    · simp only [advanceBytes, List.flatten_cons, ih₂, List.drop_append]
      by_cases hb : n + 1 ≤ b.length
      · rw [Nat.min_eq_left hb, Nat.sub_self, List.drop_zero, Nat.sub_eq_zero_of_le hb, List.drop_zero]
      · have hnil : b.drop (n + 1) = [] := List.drop_eq_nil_of_le (by omega)
        rw [Nat.min_eq_right (by omega), List.drop_length, hnil]

section
variable (crc32 : List UInt8 → UInt32)

/-- The checks `fetch` makes on one read result; the slices left after the
prefix on success. The type byte is only checked by a `debug_assert`. -/
def verifyRecord (segmentSize walOffset : Nat) (payload : List (List UInt8)) :
    Except FetchError (List (List UInt8)) :=
  let advanced := advanceBytes payload RECORD_PREFIX_LENGTH
  let recordPrefix := advanced.1
  let payload := advanced.2
  if recordPrefix.length ≠ RECORD_PREFIX_LENGTH then .error .dataCorrupted
  else
    let expectedCrc32 := fromBe32 (recordPrefix.take 4)
    let lengthType := fromBe32 (recordPrefix.drop 4)
    let expectedLength := lengthType >>> 8
    let actualLength := (payload.map List.length).sum
    if expectedLength ≠ UInt32.ofNat actualLength then .error .dataCorrupted
    else
      let baseFileOffset := walOffset / segmentSize * segmentSize
      if checksumRecord crc32 payload baseFileOffset ≠ expectedCrc32 then .error .dataCorrupted
      else .ok payload

/-- `verifyRecord` on slices that spell a record laid down by `append_record`:
its prefix is read back whole, and the remaining slices spell the payload. -/
theorem verifyRecord_of_appendRecord {s : LogSegment} {p : List UInt8} {slices : List (List UInt8)}
    (hread : slices.flatten = (s.appendRecord crc32 p).2.1) (segmentSize walOffset : Nat) :
    let lengthType := RecordType.full.withLength (UInt32.ofNat p.length)
    verifyRecord crc32 segmentSize walOffset slices =
      if lengthType >>> 8 ≠ UInt32.ofNat p.length then .error .dataCorrupted
      else if checksumRecord crc32 (advanceBytes slices 8).2 (walOffset / segmentSize * segmentSize) ≠
          checksumRecord crc32 [p] s.walOffset then .error .dataCorrupted
      else .ok (advanceBytes slices 8).2 := by
  intro lengthType
  obtain ⟨hpre, hrest⟩ := advanceBytes_spec slices 8
  have hhead : (be32 (checksumRecord crc32 [p] s.walOffset) ++ be32 lengthType).length = 8 := by
    simp [be32]
  rw [hread, LogSegment.appendRecord_eq, List.take_left' hhead] at hpre
  rw [hread, LogSegment.appendRecord_eq, List.drop_left' hhead] at hrest
  have hcrc : (advanceBytes slices 8).1.take 4 = be32 (checksumRecord crc32 [p] s.walOffset) := by
    rw [hpre]; exact List.take_left' (by simp [be32])
  have hword : (advanceBytes slices 8).1.drop 4 = be32 lengthType := by
    rw [hpre]; exact List.drop_left' (by simp [be32])
  have hlen : ((advanceBytes slices 8).2.map List.length).sum = p.length := by
    rw [← List.length_flatten, hrest]
  simp only [verifyRecord, RECORD_PREFIX_LENGTH, hcrc, hword, fromBe32_be32, hlen]
  rw [if_neg (by rw [hpre, hhead]; exact not_not.mpr rfl)]

/-- Read-after-write for records shorter than `2^24` bytes: in a segment that
starts at a multiple of the segment size, the reader's CRC base is the
segment's offset, and a read that spells the record back passes every check
with the payload. -/
theorem verifyRecord_appendRecord {s : LogSegment} {p : List UInt8} {segmentSize : Nat}
    {slices : List (List UInt8)} (hshort : p.length < 2 ^ 24)
    (hbase : s.walOffset % segmentSize = 0) (hwritten : s.written < segmentSize)
    (hread : slices.flatten = (s.appendRecord crc32 p).2.1) :
    ∃ rest, verifyRecord crc32 segmentSize (s.walOffset + s.written) slices = .ok rest ∧
      rest.flatten = p := by
  have hrest : (advanceBytes slices 8).2.flatten = p := by
    rw [(advanceBytes_spec slices 8).2, hread, LogSegment.appendRecord_eq,
      List.drop_left' (by simp [be32])]
  have hnat : (UInt32.ofNat p.length).toNat = p.length :=
    UInt32.toNat_ofNat_of_lt' (Nat.lt_trans hshort (by decide))
  have hlength : RecordType.full.withLength (UInt32.ofNat p.length) >>> 8 = UInt32.ofNat p.length := by
    apply UInt32.toNat_inj.mp
    rw [RecordType.shiftRight_withLength, hnat, Nat.mod_eq_of_lt hshort]
  -- the record starts inside the segment, so the division finds the segment's offset
  have hsegment : (s.walOffset + s.written) / segmentSize * segmentSize = s.walOffset := by
    obtain ⟨k, hk⟩ := Nat.dvd_of_mod_eq_zero hbase
    rw [hk, Nat.add_comm, Nat.add_mul_div_left _ _ (by omega : 0 < segmentSize),
      Nat.div_eq_of_lt hwritten, Nat.zero_add, Nat.mul_comm]
  have hcrc : checksumRecord crc32 (advanceBytes slices 8).2 s.walOffset = checksumRecord crc32 [p] s.walOffset := by
    simp only [checksumRecord, hrest, List.flatten_cons, List.flatten_nil, List.append_nil]
  refine ⟨(advanceBytes slices 8).2, ?_, hrest⟩
  rw [verifyRecord_of_appendRecord crc32 hread]
  simp only [hlength, hsegment, hcrc, ne_eq, not_true_eq_false, if_false]

/-- Read-after-write through the IO engine: buffers that tile the bytes the
writer laid down around a record of under `2^24` bytes answer its `ReadTask`
with slices that pass fetch's checks and spell the payload. -/
theorem fetch_reads_back_record {s : LogSegment} {p : List UInt8} {segmentSize : Nat}
    {img : List UInt8} {lo hi : Nat} {bufs : List AlignedBuf} (hshort : p.length < 2 ^ 24)
    (hbase : s.walOffset % segmentSize = 0) (hwritten : s.written < segmentSize)
    (himg : (s.appendRecord crc32 p).2.1 <+: img.drop (s.walOffset + s.written))
    (htiles : Tiles img lo bufs hi) (hlo : lo ≤ s.walOffset + s.written)
    (hhi : s.walOffset + s.written + (8 + p.length) ≤ hi) :
    ∃ rest, verifyRecord crc32 segmentSize (s.walOffset + s.written)
        (completeReadTask (s.walOffset + s.written) (8 + p.length) bufs) = .ok rest ∧ rest.flatten = p := by
  have hlen : (s.appendRecord crc32 p).2.1.length = 8 + p.length := by
    simp only [LogSegment.appendRecord_eq, be32, List.length_append, length_toBytes]
  have hread : (completeReadTask (s.walOffset + s.written) (8 + p.length) bufs).flatten =
      (s.appendRecord crc32 p).2.1 := by
    rw [flatten_completeReadTask htiles hlo hhi, ← hlen]
    exact (List.prefix_iff_eq_take.mp himg).symm
  exact verifyRecord_appendRecord crc32 hshort hbase hwritten hread

end

end ElasticStream.Store
