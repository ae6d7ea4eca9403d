import ElasticStream.Store.Record
import ElasticStream.Store.BlockCache

/-! # Log segments

`LogSegment` (store/src/io/segment.rs) is one fixed-size file of the WAL. The
writer appends records and, when the next one does not fit, a footer that
fills the segment; recovery reads it back through the block cache with
`read_exact_at` and `truncate_to` cuts the cache at the recovered end.

The CRC-32 of `crc32fast` is a parameter `crc32`; `crc32_vectored` hashes the
slices one after another, which is the hash of their concatenation. -/

namespace ElasticStream.Store
open ElasticStream.Codec

/-- How a call ends without a value: a `StoreError`, a panic (an index or a
slice out of range, an unknown record type), or a `loop` that has not ended
within the fuel. -/
inductive Abort where
  | error (e : StoreError)
  | panic
  | outOfFuel
  deriving DecidableEq, Repr

inductive Status where
  | openAt
  | fallocate64
  | fsync
  | readWrite
  | read
  | close
  | unlinkAt
  | recycled
  | renameAt (path : String)
  deriving DecidableEq, Repr

/-- A log segment: its WAL offset, fixed size, written length, block cache and
status; `sd` is the file behind the descriptor (`none` before `open`), and
`alignment` is `config.store.alignment`. -/
structure LogSegment where
  walOffset : Nat
  size : Nat
  written : Nat
  blockCache : BlockCache
  status : Status
  sd : Option (List UInt8)
  alignment : Nat
  deriving DecidableEq

section
variable (crc32 : List UInt8 → UInt32)

/-- `checksum_record`: the CRC of the payload, salted with the segment's WAL
offset so that a recycled file does not pass. -/
def checksumRecord (payload : List (List UInt8)) (fileOffset : Nat) : UInt32 :=
  crc32 (be32 (crc32 payload.flatten) ++ be64 fileOffset)

namespace LogSegment

/-- `append_record`: the segment after it, the bytes handed to the writer, and
the WAL cursor it returns. -/
def appendRecord (s : LogSegment) (payload : List UInt8) : LogSegment × List UInt8 × Nat :=
  let crc := checksumRecord crc32 [payload] s.walOffset
  let lengthType := RecordType.full.withLength (UInt32.ofNat payload.length)
  let s := { s with written := s.written + 4 + 4 + payload.length }
  (s, be32 crc ++ be32 lengthType ++ payload, s.walOffset + s.written)

/-- `append_footer`: zero padding and two zero timestamps fill the segment,
which turns read-only. The `u64` padding length panics if it underflows. -/
def appendFooter (s : LogSegment) : Except Abort (LogSegment × List UInt8 × Nat) :=
  if s.size < s.written + RECORD_PREFIX_LENGTH + 8 + 8 then .error .panic
  else
    let paddingLength := s.size - s.written - RECORD_PREFIX_LENGTH - 8 - 8
    let lengthType := RecordType.zero.withLength (UInt32.ofNat (paddingLength + 8 + 8))
    let buf := List.replicate paddingLength 0 ++ be64 0 ++ be64 0
    let crc := crc32 (be32 (crc32 buf) ++ be64 s.walOffset)
    let s := { s with written := s.size, status := .read }
    .ok (s, be32 crc ++ be32 lengthType ++ buf, s.walOffset + s.written)

theorem appendRecord_eq (s : LogSegment) (payload : List UInt8) :
    s.appendRecord crc32 payload =
      ({ s with written := s.written + 8 + payload.length },
        be32 (checksumRecord crc32 [payload] s.walOffset) ++
          be32 (RecordType.full.withLength (UInt32.ofNat payload.length)) ++ payload,
        s.walOffset + (s.written + 8 + payload.length)) := rfl

/-- The footer's bytes: CRC, length-and-type word, padding and timestamps. -/
theorem appendFooter_eq {s : LogSegment} (h : s.written + FOOTER_LENGTH ≤ s.size) :
    s.appendFooter crc32 =
      let buf := List.replicate (s.size - s.written - 24) 0 ++ be64 0 ++ be64 0
      .ok ({ s with written := s.size, status := .read },
        be32 (checksumRecord crc32 [buf] s.walOffset) ++
          be32 (RecordType.zero.withLength (UInt32.ofNat (s.size - s.written - 24 + 8 + 8))) ++ buf,
        s.walOffset + s.size) := by
  have hpad : s.size - s.written - RECORD_PREFIX_LENGTH - 8 - 8 = s.size - s.written - 24 := by
    simp only [RECORD_PREFIX_LENGTH]; omega
  simp only [FOOTER_LENGTH] at h
  simp only [appendFooter, RECORD_PREFIX_LENGTH, checksumRecord, List.flatten_cons, List.flatten_nil,
    List.append_nil]
  split_ifs with hlt
  · omega
  · simp only [RECORD_PREFIX_LENGTH] at hpad
    rw [hpad]
    exact if_neg hlt

end LogSegment
end

/-- `File::read_exact_at`: `len` bytes at `pos`, or an `UnexpectedEof` error. -/
def readFile (file : List UInt8) (pos len : Nat) : Except StoreError (List UInt8) :=
  if pos + len ≤ file.length then .ok ((file.drop pos).take len) else .error .io

/-- `AlignedBufReader::alloc_read_buf`: an empty buffer over the blocks of the range. -/
def allocReadBuf (walOffset len alignment : Nat) : AlignedBuf :=
  let start := walOffset / alignment * alignment
  let stop := (walOffset + len + alignment - 1) / alignment * alignment
  ⟨start, [], (stop - start + alignment - 1) / alignment * alignment⟩

namespace LogSegment

/-- Read the missed ranges from the file into the cache, stopping at the first
error (the ranges read before it stay cached). -/
def loadEntries (s : LogSegment) (file : List UInt8) : List EntryRange → Except StoreError Unit × LogSegment
  | [] => (.ok (), s)
  | e :: es =>
    let buf := allocReadBuf e.walOffset e.len s.alignment
    match readFile file (e.walOffset - s.walOffset) buf.capacity with
    | .error err => (.error err, s)
    | .ok bytes => loadEntries { s with blockCache := s.blockCache.addEntry { buf with data := bytes } } file es

/-- The part of a cached buffer that falls in `[readAt, readAt + readLen)`. -/
def narrow (readAt readLen : Nat) (b : AlignedBuf) : List UInt8 :=
  let startPos := if b.walOffset < readAt then readAt - b.walOffset else 0
  let limit := b.limit - (b.walOffset + b.limit - (readAt + readLen))
  b.slice startPos limit

/-- `read_exact_at`: `len` bytes at relative offset `rOffset`, through the
block cache; a miss loads the missed blocks and tries again. -/
def readExactAt (s : LogSegment) (len rOffset : Nat) : Nat → Except Abort (List UInt8) × LogSegment
  | 0 => (.error .outOfFuel, s)
  | fuel + 1 =>
    let entry := EntryRange.new (s.walOffset + rOffset) len s.alignment
    let readAt := s.walOffset + rOffset
    match s.blockCache.tryGetEntries entry with
    | .ok (some bufs) =>
      let bytes := (bufs.map (narrow readAt len)).flatten
      -- `copy_from_slice` panics on a length mismatch
      if bytes.length = len then (.ok bytes, s) else (.error .panic, s)
    | .ok none => (.error (.error .cacheError), s)
    | .error entries =>
      match s.sd with
      | none => (.error (.error .notOpened), s)
      | some file =>
        match s.loadEntries file entries with
        | (.error err, s) => (.error (.error err), s)
        | (.ok (), s) => s.readExactAt len rOffset fuel

/-- A buffer holding `bytes` placed at `walOffset` (`AlignedBuf::new` then a
copy and `increase_written`). -/
def copiedBuf (walOffset alignment : Nat) (bytes : List UInt8) : AlignedBuf :=
  ⟨walOffset, bytes, (bytes.length + alignment - 1) / alignment * alignment⟩

/-- `truncate_to`: split the last page off the cached buffer that holds the
last written byte, and evict what lies after `written`. -/
def truncateTo (s : LogSegment) (written : Nat) : Except Abort Unit × LogSegment :=
  let alignment := s.alignment
  let lastPageStart := written / alignment * alignment
  let lastPageLen := written - lastPageStart
  let lastPageStart := lastPageStart + s.walOffset
  let fromWalOffset := if s.walOffset + written > 0 then s.walOffset + written - 1 else 0
  match s.blockCache.tryGetEntries (EntryRange.new fromWalOffset 1 alignment) with
  | .ok (some bufs) =>
    match bufs.head? with
    | none => (.error .panic, s)
    | some buf =>
      let cache :=
        if buf.walOffset + buf.limit > lastPageStart then
          let copyStart := lastPageStart - buf.walOffset
          let cache := if lastPageLen ≠ 0 then
              s.blockCache.addEntry
                (copiedBuf lastPageStart alignment (buf.slice copyStart (copyStart + lastPageLen)))
            else s.blockCache
          let lastLen := lastPageStart - buf.walOffset
          if lastLen ≠ 0 then cache.addEntry (copiedBuf buf.walOffset alignment (buf.slice 0 lastLen))
          else cache
        else s.blockCache
      let cache := cache.remove fun e => decide (e.walOffset ≥ s.walOffset + written)
      (.ok (), { s with blockCache := cache })
  -- the last page is always cached during recovery, says the source
  | .ok none => (.error (.error .cacheError), s)
  | .error _ => (.error (.error .cacheError), s)

end LogSegment

end ElasticStream.Store
