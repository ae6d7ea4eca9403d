import ElasticStream.Store.Wal
import ElasticStream.Codec.Crc32

/-! # Recovering a segment that holds no record

A fresh segment file is zero-filled, so the scan stops at the first record
slot with `written = 0`. `truncate_to(0)` then looks up the byte before the
segment, `wal_offset - 1`, in the segment's own block cache; for every segment
but the first that byte lies before the cache, the lookup misses, and the scan
fails with `CacheError` although nothing is wrong with the file. -/

namespace ElasticStream.Store
open ElasticStream.Collections ElasticStream.Codec

section Blocks
variable {W A : Nat}

/-- A range inside the block that starts at an aligned `W` widens to that block. -/
theorem EntryRange.new_in_block (hW : W % A = 0) {r len : Nat} (hlen : 0 < len)
    (hr : r + len ≤ A) : EntryRange.new (W + r) len A = ⟨W, A⟩ := by
  obtain ⟨q, rfl⟩ : ∃ q, W = A * q := ⟨W / A, (Nat.mul_div_cancel' (Nat.dvd_of_mod_eq_zero hW)).symm⟩
  have hlo : (A * q + r) / A = q := Nat.div_eq_of_lt_le (by rw [Nat.mul_comm]; omega)
    (by rw [Nat.succ_mul, Nat.mul_comm]; omega)
  have hhi : (A * q + r + len + A - 1) / A = q + 1 := Nat.div_eq_of_lt_le
    (by rw [Nat.succ_mul, Nat.mul_comm]; omega) (by rw [Nat.succ_mul, Nat.succ_mul, Nat.mul_comm]; omega)
  simp only [EntryRange.new, hlo, hhi, EntryRange.mk.injEq]
  constructor
  · exact Nat.mul_comm q A
  · rw [Nat.succ_mul, Nat.mul_comm q A]; omega

/-- `truncate_to(0)` of a segment after the first: the byte before the segment
is not in its cache. -/
theorem LogSegment.truncateTo_zero {s : LogSegment} (hpos : 0 < s.walOffset)
    (hcache : s.blockCache.walOffset = s.walOffset) :
    s.truncateTo 0 = (.error (.error .cacheError), s) := by
  have hbefore : (EntryRange.new (s.walOffset - 1) 1 s.alignment).walOffset < s.blockCache.walOffset := by
    rw [hcache]
    exact Nat.lt_of_le_of_lt (Nat.div_mul_le_self _ _) (by omega)
  simp only [LogSegment.truncateTo, Nat.add_zero, if_pos hpos, BlockCache.tryGetEntries_before hbefore]

/-- The cache of segment `W` holding the single block `blk` at its start. -/
def oneBlock (W A : Nat) (blk : List UInt8) : BlockCache :=
  ⟨W, ⟨[(0, .loaded ⟨W, blk, A⟩)], List.pairwise_singleton _ _⟩, A⟩

theorem tryGetEntries_oneBlock {blk : List UInt8} (hA : 0 < A) (hblk : blk.length = A) :
    (oneBlock W A blk).tryGetEntries ⟨W, A⟩ = .ok (some [⟨W, blk, A⟩]) := by
  simp [oneBlock, BlockCache.tryGetEntries, SortedMap.upperBound, SortedMap.range, BlockCache.gaps,
    Entry.coversPartial, AlignedBuf.coversPartial, AlignedBuf.limit, Entry.len, Entry.buf?, hblk, hA]

/-- A read inside the one cached block is served from it. -/
theorem readExactAt_oneBlock {s : LogSegment} {blk : List UInt8} (hW : W % A = 0) (hblk : blk.length = A)
    (hs : s.walOffset = W) (hc : s.blockCache = oneBlock W A blk) (hal : s.alignment = A)
    {len r : Nat} (hlen : 0 < len) (hr : r + len ≤ A) (fuel : Nat) :
    s.readExactAt len r (fuel + 1) = (.ok ((blk.drop r).take len), s) := by
  have hA : 0 < A := by omega
  have hlimit : A - (W + A - (W + r + len)) = r + len := by omega
  have hstart : (if W < W + r then r else 0) = r := by split_ifs <;> omega
  simp only [LogSegment.readExactAt, hs, hal, EntryRange.new_in_block hW hlen hr, hc,
    tryGetEntries_oneBlock hA hblk, List.map_cons, List.map_nil, List.flatten_cons, List.flatten_nil,
    List.append_nil, LogSegment.narrow, AlignedBuf.limit, hblk, hlimit, AlignedBuf.slice,
    Nat.add_sub_cancel_left, hstart, List.length_take, List.length_drop]
  rw [if_pos (by omega)]

theorem allocReadBuf_block (hA : 0 < A) (hW : W % A = 0) : allocReadBuf W A A = ⟨W, [], A⟩ := by
  obtain ⟨q, rfl⟩ : ∃ q, W = A * q := ⟨W / A, (Nat.mul_div_cancel' (Nat.dvd_of_mod_eq_zero hW)).symm⟩
  have hstop : (A * q + A + A - 1) / A = q + 1 := Nat.div_eq_of_lt_le
    (by rw [Nat.succ_mul, Nat.mul_comm]; omega) (by rw [Nat.succ_mul, Nat.succ_mul, Nat.mul_comm]; omega)
  have hcap : (A + A - 1) / A = 1 := Nat.div_eq_of_lt_le (by omega) (by omega)
  simp only [allocReadBuf, Nat.mul_div_cancel_left q hA, hstop, AlignedBuf.mk.injEq, true_and]
  rw [Nat.succ_mul, Nat.mul_comm q A, Nat.add_sub_cancel_left, hcap, Nat.one_mul]
  exact ⟨rfl, rfl⟩

/-- The first read of a segment with an empty cache loads its first block
from the file and is served from it. -/
theorem readExactAt_cold {s : LogSegment} {file : List UInt8} (hW : W % A = 0) (hfile : A ≤ file.length)
    (hs : s.walOffset = W) (hc : s.blockCache = BlockCache.new W A) (hal : s.alignment = A)
    (hsd : s.sd = some file) {len r : Nat} (hlen : 0 < len) (hr : r + len ≤ A) (fuel : Nat) :
    s.readExactAt len r (fuel + 2) =
      (.ok ((file.drop r).take len), { s with blockCache := oneBlock W A (file.take A) }) := by
  have hA : 0 < A := by omega
  have hmiss : (BlockCache.new W A).tryGetEntries ⟨W, A⟩ = .error [⟨W, A⟩] := by
    simp [BlockCache.new, BlockCache.tryGetEntries, SortedMap.upperBound, SortedMap.range, SortedMap.empty]
  have hload : s.loadEntries file [⟨W, A⟩] = (.ok (), { s with blockCache := oneBlock W A (file.take A) }) := by
    simp only [LogSegment.loadEntries, hal, allocReadBuf_block hA hW, hs, Nat.sub_self, readFile,
      Nat.zero_add, if_pos hfile, List.drop_zero]
    simp [hc, oneBlock, BlockCache.addEntry, BlockCache.new, SortedMap.insert, SortedMap.empty,
      SortedMap.insertList]
  have hwarm := @readExactAt_oneBlock W A { s with blockCache := oneBlock W A (file.take A) }
    (file.take A) hW (by simp; omega) hs rfl hal len r hlen hr fuel
  have htake : ((file.take A).drop r).take len = (file.drop r).take len := by
    rw [List.drop_take, List.take_take, Nat.min_eq_left (by omega)]
  rw [← htake, ← hwarm]
  simp only [LogSegment.readExactAt, hs, hal, EntryRange.new_in_block hW hlen hr, hc, hmiss, hsd, hload]

/-- One pass of the scan loop over a record that lies in the one cached block:
it checks the CRC and either stops at a footer or visits the record and goes
on after it. -/
theorem scanLoop_oneBlock (crc32 : List UInt8 → UInt32) {s : LogSegment} {blk : List UInt8}
    (hW : W % A = 0) (hblk : blk.length = A) (hs : s.walOffset = W) (hc : s.blockCache = oneBlock W A blk)
    (hal : s.alignment = A) {q n : Nat} {crc : UInt32} {t : RecordType} {payload : List UInt8}
    (hn : 0 < n) (hn24 : n < 2 ^ 24) (hfit : q + 8 + n ≤ A) (hsize : q + 8 + n ≤ s.size)
    (hcrc : (blk.drop q).take 4 = be32 crc)
    (hlt : (blk.drop (q + 4)).take 4 = be32 (t.withLength (UInt32.ofNat n)))
    (hpl : (blk.drop (q + 8)).take n = payload) (hck : checksumRecord crc32 [payload] W = crc)
    (visited : List Visit) (fuel steps : Nat) :
    LogSegment.scanLoop crc32 q visited (fuel + 1) (steps + 1) s =
      if t = .zero then (.ok (false, q + 8 + n, visited), { s with written := s.size, status := .read })
      else LogSegment.scanLoop crc32 (q + 8 + n) (visited ++ [⟨W + q, payload⟩]) (fuel + 1) steps s := by
  have hnat : (UInt32.ofNat n).toNat = n := by
    rw [UInt32.toNat_ofNat']; exact Nat.mod_eq_of_lt (by omega)
  obtain ⟨hlen, htype⟩ := RecordType.decode_withLength t
    (show (UInt32.ofNat n).toNat < 2 ^ 24 by rw [hnat]; exact hn24)
  rw [hnat] at hlen
  have hread := @readExactAt_oneBlock W A s blk hW hblk hs hc hal
  rw [LogSegment.scanLoop, hread (by omega) (by omega) fuel, hcrc]
  dsimp only
  rw [hread (by omega) (by omega) fuel, hlt]
  dsimp only
  rw [fromBe32_be32, hlen, if_neg (by omega), hread hn (by omega) fuel, Nat.add_assoc q 4 4, hpl]
  dsimp only
  rw [hs, hck, fromBe32_be32, if_neg (not_not.mpr rfl), htype]
  cases t <;> rfl

/-- `truncate_to` at the end of a one-block segment finds its block and keeps it. -/
theorem truncateTo_oneBlock_full {s : LogSegment} {blk : List UInt8} (hA : 0 < A) (hW : W % A = 0)
    (hblk : blk.length = A) (hs : s.walOffset = W) (hc : s.blockCache = oneBlock W A blk)
    (hal : s.alignment = A) : ∃ s', s.truncateTo A = (.ok (), s') ∧ s'.walOffset = s.walOffset := by
  have hrange : EntryRange.new (W + (A - 1)) 1 A = ⟨W, A⟩ := EntryRange.new_in_block hW (by omega) (by omega)
  have hfrom : W + A - 1 = W + (A - 1) := by omega
  simp only [LogSegment.truncateTo, hs, hal, if_pos (show W + A > 0 by omega), hfrom, hrange, hc,
    tryGetEntries_oneBlock hA hblk, List.head?_cons, Nat.div_self hA, Nat.one_mul, Nat.sub_self,
    AlignedBuf.limit, hblk, Nat.add_comm A W, lt_irrefl, if_false]
  exact ⟨_, rfl, rfl⟩

/-- A first read that finds the cache cold lands in the same state as the same
read served warm, so the scan may start from the warm state. -/
theorem scanLoop_of_read (crc32 : List UInt8 → UInt32) {s s' : LogSegment} {q fuel steps : Nat}
    {visited : List Visit} {bytes : List UInt8}
    (h : s.readExactAt 4 q fuel = (.ok bytes, s')) (h' : s'.readExactAt 4 q fuel = (.ok bytes, s')) :
    LogSegment.scanLoop crc32 q visited fuel (steps + 1) s = LogSegment.scanLoop crc32 q visited fuel (steps + 1) s' := by
  simp only [LogSegment.scanLoop, h, h']

end Blocks

/-- **A segment after the first that holds no record does not recover.** Let a
log segment sit at a WAL offset `W > 0` that is a multiple of the alignment,
with an empty block cache and a file whose first record slot has a zero size
field (a freshly zero-filled file). Then `scan_record` from `W`, whatever the
CRC function, stops at the slot with `written = 0`, and its `truncate_to(0)`
fails: the scan returns `CacheError`. -/
theorem scanRecord_fresh_segment_error (crc32 : List UInt8 → UInt32) {s : LogSegment} {file : List UInt8}
    (hpos : 0 < s.walOffset) (hW : s.walOffset % s.alignment = 0) (h8 : 8 ≤ s.alignment)
    (hfile : s.alignment ≤ file.length) (hc : s.blockCache = BlockCache.new s.walOffset s.alignment)
    (hsd : s.sd = some file) (hslot : (file.drop 4).take 4 = List.replicate 4 0) (fuel : Nat) :
    (s.scanRecord crc32 s.walOffset (fuel + 2)).1 = .error (.error .cacheError) := by
  set A := s.alignment with hA
  set W := s.walOffset with hWdef
  have hcold := @readExactAt_cold W A s file hW hfile rfl hc rfl hsd 4 0 (by omega) (by omega) fuel
  set s₁ : LogSegment := { s with blockCache := oneBlock W A (file.take A) } with hs₁
  have hwarm := @readExactAt_oneBlock W A s₁ (file.take A) hW (by simp; omega) rfl rfl rfl 4 4
    (by omega) (by omega) (fuel + 1)
  -- the size field of the first slot reads as zero
  have hzero : ((file.take A).drop 4).take 4 = List.replicate 4 0 := by
    rw [List.drop_take, List.take_take, Nat.min_eq_left (by omega), hslot]
  have hlen : ((fromBe32 (List.replicate 4 0)) >>> 8).toNat = 0 := by rw [fromBe32_zeros]; rfl
  have htrunc := @LogSegment.truncateTo_zero { s₁ with status := .readWrite, written := 0 } hpos rfl
  unfold LogSegment.scanRecord
  rw [Nat.sub_self, LogSegment.scanLoop, hcold]
  dsimp only
  rw [Nat.zero_add, hwarm]
  dsimp only
  rw [hzero, hlen, if_pos (Or.inr rfl)]
  dsimp only
  rw [htrunc]

/-- The second segment of a WAL with the default sizes (1 MiB segments,
4 KiB blocks), freshly allocated: its scan fails. -/
theorem scanRecord_second_segment_error :
    let s : LogSegment := ⟨1048576, 1048576, 0, BlockCache.new 1048576 4096, .readWrite,
      some (List.replicate 1048576 0), 4096⟩
    (s.scanRecord crc32 s.walOffset 2).1 = .error (.error .cacheError) :=
  scanRecord_fresh_segment_error crc32 (by decide) (by decide) (by decide)
    (by rw [List.length_replicate]; decide) rfl rfl
    (by rw [List.drop_replicate, List.take_replicate]; rfl) 0

/-- The first segment as the writer leaves it when a record fills it up to
the point where the next one does not fit: `payload`, then the footer. -/
def recordThenFooter (crc32 : List UInt8 → UInt32) (A : Nat) (payload : List UInt8) : List UInt8 :=
  let s₀ : LogSegment := ⟨0, A, 0, BlockCache.new 0 A, .readWrite, none, A⟩
  let (s₁, rec, _) := s₀.appendRecord crc32 payload
  match s₁.appendFooter crc32 with
  | .ok (_, foot, _) => rec ++ foot
  | .error _ => rec

section Full
variable (crc32 : List UInt8 → UInt32) {A : Nat} {payload : List UInt8}

/-- The footer's padding and timestamps after a record of `n` bytes. -/
def footerBuf (A n : Nat) : List UInt8 := List.replicate (A - (8 + n) - 24) 0 ++ be64 0 ++ be64 0

theorem length_footerBuf (A n : Nat) : (footerBuf A n).length = A - (8 + n) - 24 + 8 + 8 := by
  simp [footerBuf, be64]

theorem recordThenFooter_eq (hfit : 8 + payload.length + 24 ≤ A) :
    recordThenFooter crc32 A payload =
      be32 (checksumRecord crc32 [payload] 0) ++ be32 (RecordType.full.withLength (UInt32.ofNat payload.length)) ++
        payload ++
      (be32 (checksumRecord crc32 [footerBuf A payload.length] 0) ++
        be32 (RecordType.zero.withLength (UInt32.ofNat (A - (8 + payload.length) - 24 + 8 + 8))) ++
        footerBuf A payload.length) := by
  have hfoot := @LogSegment.appendFooter_eq crc32
    { (⟨0, A, 0, BlockCache.new 0 A, .readWrite, none, A⟩ : LogSegment) with written := 0 + 8 + payload.length }
    (by simp only [FOOTER_LENGTH]; omega)
  simp only [recordThenFooter, LogSegment.appendRecord_eq, hfoot, footerBuf, Nat.zero_add]

/-- The fields of a record that follows `pre` in a file, as the scanner reads them. -/
theorem record_slices {pre p rest : List UInt8} {c l : UInt32} :
    ((pre ++ (be32 c ++ be32 l ++ p ++ rest)).drop pre.length).take 4 = be32 c ∧
      ((pre ++ (be32 c ++ be32 l ++ p ++ rest)).drop (pre.length + 4)).take 4 = be32 l ∧
      ((pre ++ (be32 c ++ be32 l ++ p ++ rest)).drop (pre.length + 8)).take p.length = p := by
  have hc : (be32 c).length = 4 := by simp [be32]
  have hl : (be32 l).length = 4 := by simp [be32]
  refine ⟨?_, ?_, ?_⟩
  · rw [List.drop_left, List.append_assoc, List.append_assoc, List.take_left' hc]
  · rw [List.drop_length_add_append, List.append_assoc, List.append_assoc, List.drop_left' hc,
      List.take_left' hl]
  · rw [List.drop_length_add_append, show 8 = (be32 c ++ be32 l).length by simp [hc, hl],
      List.append_assoc, List.drop_left, List.take_left]

theorem length_recordThenFooter (hfit : 8 + payload.length + 24 ≤ A) :
    (recordThenFooter crc32 A payload).length = A := by
  rw [recordThenFooter_eq crc32 hfit]
  simp only [List.length_append, length_footerBuf, be32, length_toBytes]
  omega

/-- The scan of a one-block first segment written as `recordThenFooter`: it
visits the record, reaches the footer, and ends at the segment's end. -/
theorem scanRecord_recordThenFooter (hp : 0 < payload.length) (hfit : 8 + payload.length + 24 ≤ A)
    (hA : A ≤ 2 ^ 24) {s : LogSegment} (hs : s.walOffset = 0) (hsize : s.size = A) (hal : s.alignment = A)
    (hc : s.blockCache = BlockCache.new 0 A) (hsd : s.sd = some (recordThenFooter crc32 A payload))
    (fuel : Nat) :
    ∃ s', s.scanRecord crc32 0 (fuel + 2) = (.ok (false, A, [⟨0, payload⟩]), s') ∧ s'.walOffset = 0 := by
  set file := recordThenFooter crc32 A payload with hfile
  set n := payload.length with hn
  have hlen : file.length = A := length_recordThenFooter crc32 hfit
  have hW : 0 % A = 0 := Nat.zero_mod A
  have hcold := @readExactAt_cold 0 A s file hW (by omega) hs hc hal hsd 4 0 (by omega) (by omega) fuel
  rw [show file.take A = file from List.take_of_length_le (by omega)] at hcold
  set s₁ : LogSegment := { s with blockCache := oneBlock 0 A file } with hs₁
  have hwarm := @readExactAt_oneBlock 0 A s₁ file hW hlen hs rfl hal 4 0 (by omega) (by omega) (fuel + 1)
  have hsize₁ : s₁.size = A := hsize
  -- the record at 0, then the footer right after it
  set foot := be32 (checksumRecord crc32 [footerBuf A n] 0) ++
    be32 (RecordType.zero.withLength (UInt32.ofNat (A - (8 + n) - 24 + 8 + 8))) ++ footerBuf A n
  set pre := be32 (checksumRecord crc32 [payload] 0) ++ be32 (RecordType.full.withLength (UInt32.ofNat n)) ++
    payload
  have hpre : pre.length = 8 + n := by simp only [pre, List.length_append, be32, length_toBytes]; omega
  have hsplit : file = pre ++ (foot ++ []) := by rw [List.append_nil, hfile, recordThenFooter_eq crc32 hfit]
  obtain ⟨hc₀, hl₀, hp₀⟩ := @record_slices [] payload foot (checksumRecord crc32 [payload] 0)
    (RecordType.full.withLength (UInt32.ofNat n))
  simp only [List.nil_append, List.length_nil, Nat.zero_add] at hc₀ hl₀ hp₀
  have hsplit₀ : file = pre ++ foot := by rw [hsplit, List.append_nil]
  rw [← hsplit₀] at hc₀ hl₀ hp₀
  obtain ⟨hc₁, hl₁, hp₁⟩ := @record_slices pre (footerBuf A n) [] (checksumRecord crc32 [footerBuf A n] 0)
    (RecordType.zero.withLength (UInt32.ofNat (A - (8 + n) - 24 + 8 + 8)))
  rw [← hsplit, hpre] at hc₁ hl₁ hp₁
  rw [length_footerBuf] at hp₁
  have hrec := @scanLoop_oneBlock 0 A crc32 s₁ file hW hlen hs rfl hal 0 n _ .full payload hp (by omega)
    (by omega) (by omega) hc₀ hl₀ hp₀ rfl [] (fuel + 1) (fuel + 1)
  have hfoot := @scanLoop_oneBlock 0 A crc32 s₁ file hW hlen hs rfl hal (8 + n) (A - (8 + n) - 24 + 8 + 8) _
    .zero (footerBuf A n) (by omega) (by omega) (by omega) (by omega) hc₁ hl₁ hp₁ rfl [⟨0, payload⟩]
    (fuel + 1) fuel
  obtain ⟨s', htrunc, hs'⟩ := @truncateTo_oneBlock_full 0 A
    ⟨s₁.walOffset, A, A, s₁.blockCache, .read, s₁.sd, s₁.alignment⟩ file (by omega) hW hlen hs rfl hal
  refine ⟨s', ?_, hs'.trans hs⟩
  unfold LogSegment.scanRecord
  rw [hs, Nat.sub_self, scanLoop_of_read crc32 hcold hwarm, hrec, if_neg (by decide)]
  simp only [Nat.zero_add, List.nil_append]
  rw [hfoot, if_pos rfl]
  dsimp only
  rw [hsize₁, htrunc]
  dsimp only
  rw [hs'.trans hs, show 0 + (8 + n + 8 + (A - (8 + n) - 24 + 8 + 8)) = A by omega]

/-- **A store whose first segment filled up does not restart.** The first
segment holds one record and the footer the writer appends when the next
record does not fit; the second is freshly allocated and holds nothing yet,
and the checkpoint is `0`. The scan of the first segment recovers the record,
and `Wal::recover` goes on to scan the second, whose `truncate_to(0)` fails:
recovery returns `CacheError`. -/
theorem recover_after_full_segment_error (hp : 0 < payload.length) (hfit : 8 + payload.length + 24 ≤ A)
    (hA : A ≤ 2 ^ 24) (fuel : Nat) :
    let seg₀ : LogSegment := ⟨0, A, 0, BlockCache.new 0 A, .readWrite, some (recordThenFooter crc32 A payload), A⟩
    let seg₁ : LogSegment := ⟨A, A, 0, BlockCache.new A A, .readWrite, some (List.replicate A 0), A⟩
    (seg₀.scanRecord crc32 0 (fuel + 2)).1 = .ok (false, A, [⟨0, payload⟩]) ∧
      (recover crc32 [seg₀, seg₁] 0 (fuel + 2)).1 = .error (.error .cacheError) := by
  intro seg₀ seg₁
  obtain ⟨s₀', hscan, -⟩ := @scanRecord_recordThenFooter crc32 A payload hp hfit hA seg₀ rfl rfl rfl rfl rfl fuel
  have hfresh := @scanRecord_fresh_segment_error crc32 seg₁ (List.replicate A 0) (show 0 < A by omega)
    (Nat.mod_self A) (show 8 ≤ A by omega) (by simp [seg₁]) rfl rfl
    (by rw [List.drop_replicate, List.take_replicate, Nat.min_eq_left (by omega)]) fuel
  have hfull : ¬ (seg₀.walOffset + seg₀.size ≤ 0) := by simp only [seg₀]; omega
  have hnext : ¬ (seg₁.walOffset + seg₁.size ≤ 0) := by simp only [seg₁]; omega
  refine ⟨by rw [hscan], ?_⟩
  -- the checkpoint is the first segment's start, so the scan starts there
  show (recoverLoop crc32 0 (fuel + 2) [seg₀, seg₁] true 0 []).1 = _
  rw [recoverLoop_scan_ok crc32 hfull (by rw [hscan]), Bool.not_false]
  exact recoverLoop_scan_error crc32 hnext hfresh

end Full

/-- With 4 KiB segments and blocks, one 100-byte record, and the CRC-32 of the
store. -/
theorem recover_after_full_segment_error_4k :
    let seg₀ : LogSegment := ⟨0, 4096, 0, BlockCache.new 0 4096, .readWrite,
      some (recordThenFooter crc32 4096 (List.replicate 100 1)), 4096⟩
    let seg₁ : LogSegment := ⟨4096, 4096, 0, BlockCache.new 4096 4096, .readWrite,
      some (List.replicate 4096 0), 4096⟩
    (seg₀.scanRecord crc32 0 2).1 = .ok (false, 4096, [⟨0, List.replicate 100 1⟩]) ∧
      (recover crc32 [seg₀, seg₁] 0 2).1 = .error (.error .cacheError) :=
  recover_after_full_segment_error crc32 (by simp) (by simp) (by decide) 0

end ElasticStream.Store
